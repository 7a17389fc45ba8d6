import Mathlib.Data.List.Range
import VmkitCore.ObjectModel.Finalization

/-! # Custody of finalizers

Finalizers are numbered in the order of their registration, and the number stands for
the callback. Mutators register finalizers, take pending ones and run them, and the
collector processes them at any time and with any outcome.
-/

namespace VmkitCore.Finalization

def FinalizerKind.callback {κ : Type*} : FinalizerKind κ → Option κ
  | .finalized => none
  | .unordered callback | .drop callback => some callback

/-- The finalizers of a list that still have their callback. -/
def callbacks {κ : Type*} (l : List (Finalizer κ)) : List κ := l.filterMap (·.finalizer.callback)

namespace Custody

/-- What a collector may find: a forwarded object is never null. -/
structure Outcome where
  collection : Collection
  forwarded_ne_null : ∀ o x, collection.getForwardedObject o = some x → x ≠ .null

/-- A reference that is not null. -/
abbrev Registrable := {o : VMKitObject // o ≠ .null}

structure History where
  state : State ℕ
  registrations : ℕ
  /-- The finalizers whose object was not reachable when `process` was called. -/
  unreachable : List ℕ
  /-- The calls of callbacks, the latest one first. -/
  calls : List (Callback ℕ)

inductive Label
  | registerFinalizer (o : Registrable)
  | process (c : Outcome)
  | getFinalizedObject
  -- a callback is out of its slot before it is called, so it does not matter whether it panics
  | run (i : ℕ) (panics : Bool)

namespace History

def register (s : History) (o : Registrable) : History :=
  { s with
    state := { s.state with
      registered := s.state.registered ++ [⟨o, .unordered s.registrations, none⟩] }
    registrations := s.registrations + 1 }

/-- `FinalizerProcessing::process`, with what it returns. -/
def process (s : History) (c : Outcome) : History × Bool :=
  let r := c.collection.isReachable
  let (state, _, closureRequired) := s.state.process c.collection r
  ({ s with
    state
    unreachable := s.unreachable ++ callbacks (s.state.registered.filter fun f => !r f.object) },
    closureRequired)

def getFinalizedObject (s : History) : Option History :=
  (Finalization.step s.state .getFinalizedObject).map fun state => { s with state }

def run (s : History) (i : ℕ) : Option History :=
  s.state.held[i]?.bind fun f =>
    (Finalization.step s.state (.run i)).map fun state =>
      { s with state, calls := f.run.2.toList ++ s.calls }

/-- What the calls of `process` return, one after the other. -/
def processAll (s : History) : List Outcome → List Bool
  | [] => []
  | c :: cs => (s.process c).2 :: (s.process c).1.processAll cs

end History

def step (s : History) : Label → Option History
  | .registerFinalizer o => some (s.register o)
  | .process c => some (s.process c).1
  | .getFinalizedObject => s.getFinalizedObject
  | .run i _ => s.run i

def machine : Machine History Label where
  init s := s = ⟨.new, 0, [], []⟩
  step := step

end Custody

def Callback.callback {κ : Type*} : Callback κ → κ
  | .unordered callback _ | .drop callback => callback

section Retain

variable {κ : Type*} {c : Collection} {r : VMKitObject → Bool} {l : List (Finalizer κ)}
  {f f' : Finalizer κ}

theorem callbacks_append (l l' : List (Finalizer κ)) :
    callbacks (l ++ l') = callbacks l ++ callbacks l' := List.filterMap_append

theorem callbacks_cons (f : Finalizer κ) (l : List (Finalizer κ)) :
    callbacks (f :: l) = f.finalizer.callback.toList ++ callbacks l := by
  cases h : f.finalizer.callback <;> simp [callbacks, h]

/-- Entries that are not null stay registered or are queued, with their callbacks. -/
theorem retain_perm (h : ∀ f ∈ l, f.object ≠ .null) :
    (callbacks (c.retain r l).1 ++ callbacks (c.retain r l).2.1).Perm (callbacks l) ∧
      (c.retain r l).1.length + (c.retain r l).2.1.length = l.length := by
  induction l generalizing r with
  | nil => exact ⟨.refl _, rfl⟩
  | cons f fs ih =>
    obtain ⟨hf, hfs⟩ := List.forall_mem_cons.mp h
    rw [Collection.retain, if_neg hf, callbacks_cons]
    split
    · obtain ⟨hp, hlen⟩ := ih (r := r) hfs
      dsimp only
      rw [callbacks_cons, List.append_assoc, List.length_cons, List.length_cons]
      exact ⟨hp.append_left _, (Nat.add_right_comm ..).trans (congrArg (· + 1) hlen)⟩
    · obtain ⟨hp, hlen⟩ := ih (r := c.traceObject r f.object) hfs
      dsimp only
      rw [callbacks_cons, List.length_cons, List.length_cons]
      exact ⟨(List.perm_append_comm_assoc ..).trans (hp.append_left _), congrArg (· + 1) hlen⟩

/-- What stays registered follows its object. -/
theorem retain_registered (h : f' ∈ (c.retain r l).1) :
    ∃ f ∈ l, f'.finalizer = f.finalizer ∧ f'.object = c.forward f.object := by
  induction l generalizing r with
  | nil => cases h
  | cons f fs ih =>
    rw [Collection.retain] at h
    split at h
    · obtain ⟨g, hg, hgf⟩ := ih h
      exact ⟨g, List.mem_cons_of_mem _ hg, hgf⟩
    · split at h
      · rcases List.mem_cons.mp h with rfl | h
        · exact ⟨f, List.mem_cons_self, rfl, rfl⟩
        · obtain ⟨g, hg, hgf⟩ := ih h
          exact ⟨g, List.mem_cons_of_mem _ hg, hgf⟩
      · obtain ⟨g, hg, hgf⟩ := ih h
        exact ⟨g, List.mem_cons_of_mem _ hg, hgf⟩

/-- What is queued was not reachable when the pass began, as tracing only reaches more. -/
theorem retain_queued (h : f' ∈ (c.retain r l).2.1) :
    ∃ f ∈ l, f'.finalizer = f.finalizer ∧ r f.object = false := by
  induction l generalizing r with
  | nil => cases h
  | cons f fs ih =>
    rw [Collection.retain] at h
    split at h
    · obtain ⟨g, hg, hgf⟩ := ih h
      exact ⟨g, List.mem_cons_of_mem _ hg, hgf⟩
    · split at h
      · obtain ⟨g, hg, hgf⟩ := ih h
        exact ⟨g, List.mem_cons_of_mem _ hg, hgf⟩
      · next hr =>
        rcases List.mem_cons.mp h with rfl | h
        · exact ⟨f, List.mem_cons_self, rfl, by simpa using hr⟩
        · obtain ⟨g, hg, hgf, hrg⟩ := ih h
          refine ⟨g, List.mem_cons_of_mem _ hg, hgf, ?_⟩
          simp only [Collection.traceObject, Bool.or_eq_false_iff] at hrg
          exact hrg.1.1

end Retain

namespace Custody

/-- The callbacks of what has been taken from the pending finalizers, called or not. -/
def History.popped (s : History) : List ℕ :=
  callbacks s.state.held ++ s.calls.map Callback.callback

/-- Every registered finalizer is in one place, and what was queued had been unreachable. -/
structure Inv (s : History) : Prop where
  registered : ∀ f ∈ s.state.registered, f.object ≠ .null
  places : (callbacks s.state.registered ++ callbacks s.state.pending ++ s.popped).Perm
    (List.range s.registrations)
  unreachable : ∀ k ∈ callbacks s.state.pending ++ s.popped, k ∈ s.unreachable

variable {s s' : History}

theorem History.process_registered (s : History) (c : Outcome) :
    (s.process c).1.state.registered =
      (c.collection.retain c.collection.isReachable s.state.registered).1 := rfl

theorem History.process_pending (s : History) (c : Outcome) :
    (s.process c).1.state.pending = s.state.pending ++
      (c.collection.retain c.collection.isReachable s.state.registered).2.1 := rfl

theorem History.process_snd (s : History) (c : Outcome) : (s.process c).2 =
    !(c.collection.retain c.collection.isReachable s.state.registered).2.1.isEmpty := rfl

theorem History.process_popped (s : History) (c : Outcome) :
    (s.process c).1.popped = s.popped := rfl

theorem mem_callbacks {κ : Type*} {l : List (Finalizer κ)} {k : κ} :
    k ∈ callbacks l ↔ ∃ f ∈ l, f.finalizer.callback = some k := List.mem_filterMap

theorem Outcome.forward_ne_null (c : Outcome) {o : VMKitObject} (ho : o ≠ .null) :
    c.collection.forward o ≠ .null := by
  unfold Collection.forward
  cases h : c.collection.getForwardedObject o with
  | none => exact ho
  | some x => exact c.forwarded_ne_null o x h

/-- Running a finalizer moves its callback, if it is still there, to the calls. -/
theorem callbacks_run {κ : Type*} [DecidableEq κ] {l : List (Finalizer κ)} {i : ℕ}
    {f : Finalizer κ} (hf : l[i]? = some f) (k : κ) :
    (callbacks (l.set i f.run.1)).count k + (f.run.2.toList.map Callback.callback).count k =
      (callbacks l).count k := by
  have hrun : f.run.2.toList.map Callback.callback = f.finalizer.callback.toList := by
    unfold Finalizer.run
    cases f.finalizer <;> rfl
  obtain ⟨hi, rfl⟩ := List.getElem?_eq_some_iff.mp hf
  have hl := List.take_append_drop i l
  rw [List.drop_eq_getElem_cons hi] at hl
  have hset : callbacks (l.set i l[i].run.1) =
      callbacks (l.take i) ++ callbacks (l.drop (i + 1)) := by
    rw [List.set_eq_take_append_cons_drop, if_pos hi, callbacks_append, callbacks_cons]
    rfl
  rw [hset, hrun]
  conv_rhs => rw [← hl, callbacks_append, callbacks_cons]
  simp only [List.count_append]
  omega

namespace Inv

theorem register (h : Inv s) (o : Registrable) : Inv (s.register o) := by
  refine ⟨?_, List.perm_iff_count.mpr fun k => ?_, h.unreachable⟩
  · intro f hf
    rcases List.mem_append.mp hf with hf | hf
    · exact h.registered f hf
    · cases List.mem_singleton.mp hf
      exact o.property
  · have hk := h.places.count_eq k
    simp only [History.popped, List.count_append] at hk
    simp only [History.register, History.popped, callbacks_append, callbacks_cons,
      FinalizerKind.callback, List.range_succ, List.count_append, Option.toList_some, ← hk]
    simp only [callbacks, List.filterMap_nil, List.count_nil]
    omega

theorem process (h : Inv s) (c : Outcome) : Inv (s.process c).1 := by
  obtain ⟨hp, -⟩ := retain_perm (c := c.collection) (r := c.collection.isReachable) h.registered
  refine ⟨?_, List.perm_iff_count.mpr fun k => ?_, fun k hk => ?_⟩
  · intro f' hf'
    obtain ⟨f, hf, -, ho⟩ := retain_registered hf'
    rw [ho]
    exact c.forward_ne_null (h.registered f hf)
  · have hk := h.places.count_eq k
    have hq := hp.count_eq k
    rw [s.process_registered, s.process_pending, s.process_popped]
    simp only [List.count_append, callbacks_append] at hk hq ⊢
    exact Eq.trans (by omega) hk
  · rw [s.process_pending, s.process_popped, callbacks_append, List.append_assoc] at hk
    rcases List.mem_append.mp hk with hk | hk
    · exact List.mem_append.mpr (.inl (h.unreachable k (List.mem_append.mpr (.inl hk))))
    rcases List.mem_append.mp hk with hk | hk
    · obtain ⟨f', hf', hc⟩ := mem_callbacks.mp hk
      obtain ⟨f, hf, he, hr⟩ := retain_queued hf'
      exact List.mem_append.mpr (.inr (mem_callbacks.mpr
        ⟨f, List.mem_filter.mpr ⟨hf, by simp [hr]⟩, he ▸ hc⟩))
    · exact List.mem_append.mpr (.inl (h.unreachable k (List.mem_append.mpr (.inr hk))))

theorem getFinalizedObject (h : Inv s) (hs : s.getFinalizedObject = some s') : Inv s' := by
  simp only [History.getFinalizedObject, Finalization.step, Option.map_eq_some_iff] at hs
  obtain ⟨-, ⟨f, hf, rfl⟩, rfl⟩ := hs
  have hpend := List.dropLast_append_getLast? f hf
  have hcount : ∀ k, (callbacks s.state.pending).count k =
      (callbacks s.state.pending.dropLast).count k + (callbacks [f]).count k := by
    intro k
    conv_lhs => rw [← hpend, callbacks_append, List.count_append]
  refine ⟨h.registered, List.perm_iff_count.mpr fun k => ?_, fun k hk => h.unreachable k ?_⟩
  · have hk := h.places.count_eq k
    simp only [History.popped, List.count_append, hcount] at hk
    simp only [History.popped, callbacks_append, List.count_append, ← hk]
    omega
  · simp only [History.popped, callbacks_append, List.mem_append] at hk ⊢
    rw [← hpend, callbacks_append, List.mem_append]
    tauto

theorem run (h : Inv s) {i : ℕ} (hs : s.run i = some s') : Inv s' := by
  simp only [History.run, Finalization.step, Option.bind_eq_some_iff, Option.map_eq_some_iff] at hs
  obtain ⟨f, hf, -, ⟨g, hg, rfl⟩, rfl⟩ := hs
  obtain rfl := Option.some.inj (hf.symm.trans hg)
  have hrun := callbacks_run hf
  have hpopped : (callbacks (s.state.held.set i f.run.1) ++
      (f.run.2.toList ++ s.calls).map Callback.callback).Perm s.popped := by
    refine List.perm_iff_count.mpr fun k => ?_
    simp only [History.popped, List.map_append, List.count_append, ← hrun k]
    omega
  exact ⟨h.registered, (hpopped.append_left _).trans h.places, fun k hk =>
    h.unreachable k ((hpopped.append_left _).mem_iff.mp hk)⟩

theorem step (h : Inv s) {l : Label} (hs : Custody.step s l = some s') : Inv s' := by
  cases l with
  | registerFinalizer o => cases hs; exact h.register o
  | process c => cases hs; exact h.process c
  | getFinalizedObject => exact h.getFinalizedObject hs
  | run i panics => exact h.run hs

end Inv

theorem inv_of_reachable (h : machine.Reachable s) : Inv s :=
  h.invariant (fun _ hs => by rw [show _ = _ from hs]; exact ⟨nofun, .refl _, nofun⟩)
    fun _ _ _ hi _ hs => hi.step hs

/-- What `process` queues is what it takes from the registered finalizers. -/
theorem process_length (h : Inv s) (c : Outcome) :
    (s.process c).1.state.pending.length + (s.process c).1.state.registered.length =
        s.state.pending.length + s.state.registered.length ∧
      ((s.process c).2 = true ↔
        (s.process c).1.state.registered.length < s.state.registered.length) := by
  obtain ⟨-, hlen⟩ := retain_perm (c := c.collection) (r := c.collection.isReachable) h.registered
  rw [s.process_registered, s.process_pending, s.process_snd, List.length_append]
  refine ⟨by omega, ?_⟩
  rw [Bool.not_eq_true', List.isEmpty_eq_false_iff, ← List.length_pos_iff]
  omega

/-- There are at most as many calls of `process` that return true as registered finalizers. -/
theorem count_processAll (h : Inv s) (cs : List Outcome) :
    (s.processAll cs).count true ≤ s.state.registered.length := by
  induction cs generalizing s with
  | nil => exact Nat.zero_le _
  | cons c cs ih =>
    have hrest := ih (h.process c)
    obtain ⟨hlen, hiff⟩ := process_length h c
    rw [History.processAll, List.count_cons]
    cases hret : (s.process c).2 with
    | false =>
      have hle : (s.process c).1.state.registered.length ≤ s.state.registered.length := by
        rw [s.process_pending, List.length_append] at hlen
        omega
      simpa using hrest.trans hle
    | true =>
      have hlt := hiff.mp hret
      simp only [beq_self_eq_true, if_true]
      omega

/--
Every registered finalizer is registered, pending, or popped, and in one of these places only;
callbacks are called at most once, and only if `process` has found their object unreachable.
`process` forwards what stays registered, and returns true exactly when it queues a finalizer,
which happens at most as often as there are registered ones.
-/
theorem finalizers_conserved (h : machine.Reachable s) :
    (callbacks s.state.registered ++ callbacks s.state.pending ++ s.popped).Perm
      (List.range s.registrations) ∧
    (s.calls.map Callback.callback).Nodup ∧
    (∀ k ∈ s.calls.map Callback.callback, k ∈ s.unreachable) ∧
    (∀ c, (∀ f' ∈ (s.process c).1.state.registered, ∃ f ∈ s.state.registered,
        f'.finalizer = f.finalizer ∧ f'.object = c.collection.forward f.object) ∧
      ((s.process c).2 = true ↔
        (s.process c).1.state.registered.length < s.state.registered.length)) ∧
    ∀ cs, (s.processAll cs).count true ≤ s.state.registered.length := by
  have hi := inv_of_reachable h
  refine ⟨hi.places, ?_, fun k hk => ?_, fun c => ⟨fun f' hf' => ?_, (process_length hi c).2⟩,
    count_processAll hi⟩
  · have hn := hi.places.nodup_iff.mpr List.nodup_range
    exact (List.nodup_append.mp (List.nodup_append.mp hn).2.1).2.1
  · exact hi.unreachable k (List.mem_append.mpr (.inr (List.mem_append.mpr (.inr hk))))
  · exact retain_registered hf'

/-- Nothing is reachable, and every object moves by 64 bytes. -/
def Outcome.shift : Outcome where
  collection := ⟨fun _ => false, fun o => some ⟨o.address + 64⟩, fun _ => none, []⟩
  forwarded_ne_null o x h := by
    cases h
    exact fun h => absurd (congrArg VMKitObject.address h) (Nat.succ_ne_zero _)

/-- The second registration of the object comes after the first one has been queued. -/
def custodyRun : List Label :=
  [.registerFinalizer ⟨⟨16⟩, by decide⟩, .process .shift, .registerFinalizer ⟨⟨16⟩, by decide⟩,
    .getFinalizedObject, .run 0 true]

theorem finalizers_conserved_twice : ∃ s, machine.checkedExec (fun _ _ => True)
      ⟨.new, 0, [], []⟩ custodyRun = some s ∧
    s.calls = [.unordered 0 ⟨80⟩] ∧ callbacks s.state.registered = [1] ∧
    (∀ k ∈ s.calls.map Callback.callback, k ∈ s.unreachable) ∧
    (s.processAll [.shift, .shift]).count true ≤ s.state.registered.length := by
  obtain ⟨s, hs, hc, hr⟩ : ∃ s, machine.checkedExec (fun _ _ => True)
      ⟨.new, 0, [], []⟩ custodyRun = some s ∧ s.calls = [.unordered 0 ⟨80⟩] ∧
      callbacks s.state.registered = [1] := ⟨_, rfl, rfl, rfl⟩
  obtain ⟨-, -, hu, -, hp⟩ := finalizers_conserved (.checkedExec (.init rfl) hs)
  exact ⟨s, hs, hc, hr, hu, hp _⟩

end Custody

end VmkitCore.Finalization
