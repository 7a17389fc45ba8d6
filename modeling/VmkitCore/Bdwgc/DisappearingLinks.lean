import VmkitCore.Lib.Simulation
import VmkitCore.ObjectModel.PendingFinalizers

/-! # Disappearing links

A disappearing link is a word that is cleared when an object is not reachable any more. A
collection goes over the links before it goes over the finalizers, every time that weak
references are processed. It does not update the links when it moves objects.
-/

namespace VmkitCore

namespace DisappearingLinks

open Finalization

structure DLink where
  object : VMKitObject
  link : ℕ
  deriving DecidableEq, Repr

structure State (κ : Type) where
  finalization : Finalization.State κ
  memory : ByteMemory
  /-- The set of links, without duplicates. -/
  disappearingLinks : List DLink

inductive Label (κ : Type)
  | finalization (l : Finalization.Label κ)
  | mutate (memory : ByteMemory)
  | registerDisappearingLink (link : ℕ) (base : VMKitObject)
  | unregisterDisappearingLink (link : ℕ) (base : VMKitObject)
  | generalRegisterDisappearingLink (link : ℕ) (obj : VMKitObject)
  | collect (c : Collection)

/-- What `retain` keeps of the links, and the memory in which it has cleared the others. -/
def retainLinks (reachable : VMKitObject → Bool) :
    List DLink → ByteMemory → Option (List DLink × ByteMemory)
  | [], m => some ([], m)
  | d :: ds, m =>
    -- `as_object_unchecked` is for references that are not null
    if d.object = .null then none
    else if reachable d.object then do
      let (ds, m) ← retainLinks reachable ds m
      some (d :: ds, m)
    else retainLinks reachable ds (m.store d.link 8 0)

namespace State

variable {κ : Type} (vm : VirtualMachine) (s : State κ)

/-- Hashing a link asks for the hash code of its object. -/
def insert (d : DLink) : Option (State κ × Bool) := do
  let (_, memory) ← d.object.hashcode vm s.memory
  if d ∈ s.disappearingLinks then some ({ s with memory }, false)
  else some ({ s with memory, disappearingLinks := d :: s.disappearingLinks }, true)

def remove (d : DLink) : Option (State κ) := do
  let (_, memory) ← d.object.hashcode vm s.memory
  some { s with memory, disappearingLinks := s.disappearingLinks.erase d }

/-- `GC_general_register_disappearing_link`, which returns whether there was such a link. -/
def generalRegisterDisappearingLink (link : ℕ) (obj : VMKitObject) : Option (State κ × Bool) := do
  let (s, inserted) ← s.insert vm ⟨obj, link⟩
  some (s, !inserted)

def processWeakRefs (c : Collection) (reachable : VMKitObject → Bool) :
    Option (State κ × (VMKitObject → Bool) × Bool) := do
  let (disappearingLinks, memory) ← retainLinks reachable s.disappearingLinks s.memory
  let (finalization, reachable', closureRequired) := s.finalization.process c reachable
  some (⟨finalization, memory, disappearingLinks⟩, reachable', closureRequired)

/-- The calls of `process_weak_refs` in one collection, after the first one. -/
def processRounds (c : Collection) (s : State κ) (reachable : VMKitObject → Bool) :
    List (VMKitObject → Bool) → Option (State κ × (VMKitObject → Bool))
  | [] => some (s, reachable)
  | closure :: closures => do
    let (s', reachable', _) ← s.processWeakRefs c fun x => reachable x || closure x
    s'.processRounds c reachable' closures

def collect (c : Collection) : Option (State κ) := do
  let (s', reachable, _) ← s.processWeakRefs c c.isReachable
  let (s', reachable) ← s'.processRounds c reachable c.closures
  some { s' with finalization := { s'.finalization with
    objectAt := c.survivors reachable s'.finalization.objectAt } }

end State

variable {κ : Type}

/-- A mutator has references to objects of the heap only, and `GC_base` returns no other. -/
def Refers (s : State κ) (o : VMKitObject) : Prop :=
  o = .null ∨ (s.finalization.objectAt o).isSome

instance (s : State κ) (o : VMKitObject) : Decidable (Refers s o) :=
  inferInstanceAs (Decidable (_ ∨ _))

def step (vm : VirtualMachine) (s : State κ) : Label κ → Option (State κ)
  | .finalization (.collect _) => none
  | .finalization l =>
    (Finalization.step s.finalization l).map fun f => { s with finalization := f }
  | .mutate memory => some { s with memory }
  | .registerDisappearingLink link base =>
    if Refers s base then (s.insert vm ⟨base, link⟩).map Prod.fst else none
  | .unregisterDisappearingLink link base =>
    if Refers s base then s.remove vm ⟨base, link⟩ else none
  | .generalRegisterDisappearingLink link obj =>
    if Refers s obj then (s.generalRegisterDisappearingLink vm link obj).map Prod.fst else none
  | .collect c => s.collect c

def State.new (m : ByteMemory) : State κ := ⟨.new, m, []⟩

def machine (κ : Type) (vm : VirtualMachine) : Machine (State κ) (Label κ) where
  init s := ∃ m, s = .new m
  step := step vm

variable {vm : VirtualMachine} {c : Collection} {r r' : VMKitObject → Bool} {s s' : State κ}
  {m : ByteMemory} {l : List DLink}

/-- The links to objects that are not reached are cleared, and nothing else is written. -/
theorem retainLinks_spec (hl : ∀ d ∈ l, d.object ≠ .null) :
    ∃ m', retainLinks r l m = some (l.filter fun d => r d.object, m') ∧
      (∀ x, (∀ d ∈ l, r d.object = false → ByteMemory.Disjoint d.link 8 x 1) → m' x = m x) ∧
      ∀ d ∈ l, r d.object = false → ∀ x, d.link ≤ x → x < d.link + 8 → m' x = 0 := by
  induction l generalizing m with
  | nil => exact ⟨m, rfl, fun _ _ => rfl, fun _ h => absurd h List.not_mem_nil⟩
  | cons d l ih =>
    obtain ⟨hd, hl⟩ := List.forall_mem_cons.mp hl
    rw [retainLinks, if_neg hd]
    cases hr : r d.object with
    | true =>
      obtain ⟨m', hm', hout, hin⟩ := ih hl (m := m)
      refine ⟨m', ?_, fun x hx => hout x (List.forall_mem_cons.mp hx).2, fun d' hd' hr' => ?_⟩
      · rw [List.filter_cons_of_pos (by simpa using hr), if_pos rfl, hm']
        rfl
      · rcases List.mem_cons.mp hd' with rfl | hd'
        · rw [hr] at hr'
          cases hr'
        · exact hin d' hd' hr'
    | false =>
      obtain ⟨m', hm', hout, hin⟩ := ih hl (m := m.store d.link 8 0)
      refine ⟨m', ?_, fun x hx => ?_, fun d' hd' hr' x hlo hhi => ?_⟩
      · rw [List.filter_cons_of_neg (by simp [hr]), if_neg Bool.false_ne_true]
        exact hm'
      · obtain ⟨hx, hxs⟩ := List.forall_mem_cons.mp hx
        rw [hout x hxs, ByteMemory.store_apply_outside (hx hr)]
      · -- a later link may overlap this one, but it is cleared as well
        by_cases hlater : ∃ e ∈ l, r e.object = false ∧ e.link ≤ x ∧ x < e.link + 8
        · obtain ⟨e, he, hre, hle, hlt⟩ := hlater
          exact hin e he hre x hle hlt
        · rcases List.mem_cons.mp hd' with rfl | hd'
          · have hkeep : m' x = m.store d'.link 8 0 x := by
              refine hout x fun e he hre => ?_
              have hnot : ¬ (e.link ≤ x ∧ x < e.link + 8) := fun hx => hlater ⟨e, he, hre, hx⟩
              unfold ByteMemory.Disjoint
              omega
            rw [hkeep, ByteMemory.store, if_pos ⟨hlo, hhi⟩, Nat.zero_div]
            rfl
          · exact hin d' hd' hr' x hlo hhi

/-- If all objects are reached, no link is cleared. -/
theorem retainLinks_of_reachable (hl : ∀ d ∈ l, d.object ≠ .null)
    (hr : ∀ d ∈ l, r d.object = true) : retainLinks r l m = some (l, m) := by
  obtain ⟨m', hm', hout, -⟩ := retainLinks_spec (r := r) (m := m) hl
  have hmem : m' = m := by
    funext x
    refine hout x fun d hd hfalse => ?_
    rw [hr d hd] at hfalse
    cases hfalse
  rw [hm', hmem, List.filter_eq_self.mpr hr]

theorem retain_mono {l : List (Finalizer κ)} {x : VMKitObject} (hx : r x = true) :
    (c.retain r l).2.2 x = true := by
  induction l generalizing r with
  | nil => exact hx
  | cons f fs ih =>
    rw [Collection.retain]
    split
    · exact ih hx
    · split
      · exact ih hx
      · refine ih ?_
        simp [Collection.traceObject, hx]

/-- After the first time, processing weak references goes over the finalizers only. -/
theorem processRounds_eq (closures : List (VMKitObject → Bool))
    (hnull : ∀ d ∈ s.disappearingLinks, d.object ≠ .null)
    (hr : ∀ d ∈ s.disappearingLinks, r d.object = true) :
    s.processRounds c r closures =
      some (⟨(s.finalization.processRounds c r closures).1, s.memory, s.disappearingLinks⟩,
        (s.finalization.processRounds c r closures).2) := by
  induction closures generalizing s r with
  | nil => rfl
  | cons closure closures ih =>
    have hr' : ∀ d ∈ s.disappearingLinks, (r d.object || closure d.object) = true := by
      intro d hd
      rw [hr d hd, Bool.true_or]
    rw [State.processRounds, State.processWeakRefs, retainLinks_of_reachable hnull hr']
    exact ih (s := ⟨_, _, _⟩) hnull fun d hd => retain_mono (hr' d hd)

/-- A collection goes over the links once, and over the finalizers as if there were no links. -/
theorem collect_spec (hnull : ∀ d ∈ s.disappearingLinks, d.object ≠ .null) :
    ∃ s', s.collect c = some s' ∧ s'.finalization = s.finalization.collect c ∧
      s'.disappearingLinks = s.disappearingLinks.filter (fun d => c.isReachable d.object) ∧
      (∀ x, (∀ d ∈ s.disappearingLinks, c.isReachable d.object = false →
        ByteMemory.Disjoint d.link 8 x 1) → s'.memory x = s.memory x) ∧
      ∀ d ∈ s.disappearingLinks, c.isReachable d.object = false →
        s'.memory.load d.link 8 = 0 := by
  obtain ⟨m', hm', hout, hin⟩ := retainLinks_spec (r := c.isReachable) (m := s.memory) hnull
  have hrounds := processRounds_eq (c := c) c.closures
    (s := ⟨(s.finalization.process c c.isReachable).1, m',
      s.disappearingLinks.filter fun d => c.isReachable d.object⟩)
    (r := (s.finalization.process c c.isReachable).2.1)
    (fun d hd => hnull d (List.mem_filter.mp hd).1)
    (fun d hd => retain_mono (List.mem_filter.mp hd).2)
  refine ⟨⟨s.finalization.collect c, m',
    s.disappearingLinks.filter fun d => c.isReachable d.object⟩, ?_, rfl, rfl, hout,
    fun d hd hfalse => ?_⟩
  · rw [State.collect, State.processWeakRefs, hm']
    simp only [Option.bind_eq_bind, Option.bind_some, hrounds]
    rfl
  · exact ByteMemory.load_eq_zero fun i hi => hin d hd hfalse _ (by omega) (by omega)

theorem insert_spec {d : DLink} {inserted : Bool} (h : s.insert vm d = some (s', inserted)) :
    s'.finalization = s.finalization ∧
      (∀ e, e ∈ s'.disappearingLinks ↔ e = d ∨ e ∈ s.disappearingLinks) ∧
      (vm.addressBasedHashing = true → d.object ≠ .null) := by
  obtain ⟨⟨n, m⟩, hm, h⟩ := Option.bind_eq_some_iff.mp h
  refine ⟨?_, fun e => ?_, fun habh hnull => ?_⟩
  · dsimp only at h
    split at h <;> (cases h; rfl)
  · dsimp only at h
    split at h
    · next hd =>
      cases h
      exact ⟨.inr, Or.rec (fun he => he ▸ hd) id⟩
    · cases h
      exact List.mem_cons
  · -- the header of null cannot be asked for its hash state
    rw [VMKitObject.hashcode, if_pos habh, hnull] at hm
    cases hm

theorem remove_spec {d : DLink} (h : s.remove vm d = some s') :
    s'.finalization = s.finalization ∧
      ∀ e, e ∈ s'.disappearingLinks → e ∈ s.disappearingLinks := by
  obtain ⟨⟨n, m⟩, -, h⟩ := Option.bind_eq_some_iff.mp h
  cases h
  exact ⟨rfl, fun _ => List.mem_of_mem_erase⟩

/-- The link that a step inserts into the set. -/
def Label.inserted : Label κ → Option DLink
  | .registerDisappearingLink link o => some ⟨o, link⟩
  | .generalRegisterDisappearingLink link o => some ⟨o, link⟩
  | _ => none

theorem objectAt_step {f f' : Finalization.State κ} {label : Finalization.Label κ}
    (hne : ∀ c, label ≠ .collect c) (h : Finalization.step f label = some f') {o : VMKitObject}
    (ho : (f.objectAt o).isSome) : (f'.objectAt o).isSome := by
  cases label with
  | allocate x =>
    obtain ⟨-, h⟩ := Option.ite_none_left_eq_some.mp h
    cases h
    dsimp only
    by_cases hx : o = x
    · subst hx
      rw [Function.update_self]
      rfl
    · rw [Function.update_of_ne hx]
      exact ho
  | registerFinalizer x callback =>
    obtain ⟨-, h⟩ := Option.ite_none_right_eq_some.mp h
    cases h
    exact ho
  | collect c => exact absurd rfl (hne c)
  | getFinalizedObject | run =>
    obtain ⟨_, -, rfl⟩ := Option.map_eq_some_iff.mp h
    exact ho

/-- Outside of collections links come from mutators, and objects stay where they are. -/
theorem step_cases {op : Label κ} (h : step vm s op = some s') :
    (∃ c, op = .collect c ∧ s.collect c = some s') ∨
    (∀ c, op ≠ .collect c) ∧
      (∀ d ∈ s'.disappearingLinks, d ∈ s.disappearingLinks ∨ op.inserted = some d) ∧
      (∀ d, op.inserted = some d → d ∈ s'.disappearingLinks ∧ Refers s d.object ∧
        (vm.addressBasedHashing = true → d.object ≠ .null)) ∧
      ∀ o, (s.finalization.objectAt o).isSome → (s'.finalization.objectAt o).isSome := by
  have hinsert : ∀ {d inserted}, s.insert vm d = some (s', inserted) → Refers s d.object →
      (∀ e ∈ s'.disappearingLinks, e ∈ s.disappearingLinks ∨ some d = some e) ∧
      (∀ e, some d = some e → e ∈ s'.disappearingLinks ∧ Refers s e.object ∧
        (vm.addressBasedHashing = true → e.object ≠ .null)) ∧
      ∀ o, (s.finalization.objectAt o).isSome → (s'.finalization.objectAt o).isSome := by
    intro d inserted hd hrefers
    obtain ⟨hfin, hlinks, hnull⟩ := insert_spec hd
    refine ⟨fun e he => ?_, fun e he => ?_, fun o ho => hfin ▸ ho⟩
    · rcases (hlinks e).mp he with rfl | he
      · exact .inr rfl
      · exact .inl he
    · cases he
      exact ⟨(hlinks d).mpr (.inl rfl), hrefers, hnull⟩
  cases op with
  | collect c => exact .inl ⟨c, rfl, h⟩
  | finalization label =>
    have hne : ∀ c, label ≠ .collect c := by
      rintro c rfl
      cases h
    have hstep : (Finalization.step s.finalization label).map
        (fun f => { s with finalization := f }) = some s' := by
      cases label with
      | collect c => exact absurd rfl (hne c)
      | _ => exact h
    obtain ⟨f, hf, rfl⟩ := Option.map_eq_some_iff.mp hstep
    exact .inr ⟨by simp, fun d hd => .inl hd, by simp [Label.inserted],
      fun o => objectAt_step hne hf⟩
  | mutate memory =>
    cases h
    exact .inr ⟨by simp, fun d hd => .inl hd, by simp [Label.inserted], fun _ => id⟩
  | registerDisappearingLink link o =>
    obtain ⟨hrefers, h⟩ := Option.ite_none_right_eq_some.mp h
    obtain ⟨⟨_, inserted⟩, hd, rfl⟩ := Option.map_eq_some_iff.mp h
    exact .inr ⟨by simp, hinsert hd hrefers⟩
  | unregisterDisappearingLink link o =>
    obtain ⟨-, h⟩ := Option.ite_none_right_eq_some.mp h
    obtain ⟨hfin, hlinks⟩ := remove_spec h
    exact .inr ⟨by simp, fun d hd => .inl (hlinks d hd), by simp [Label.inserted],
      fun o ho => hfin ▸ ho⟩
  | generalRegisterDisappearingLink link o =>
    obtain ⟨hrefers, h⟩ := Option.ite_none_right_eq_some.mp h
    obtain ⟨⟨_, existed⟩, hd, rfl⟩ := Option.map_eq_some_iff.mp h
    obtain ⟨⟨s₁, inserted⟩, hadd, heq⟩ := Option.bind_eq_some_iff.mp hd
    cases heq
    exact .inr ⟨by simp, hinsert hadd hrefers⟩

/-- Where the objects of links are after a collection. -/
theorem objectAt_collect (f : Finalization.State κ) (c : Collection) :
    ∃ R : VMKitObject → Bool, (f.collect c).objectAt = c.survivors R f.objectAt ∧
      ∀ o, c.isReachable o = true → R o = true := by
  have hrounds : ∀ (closures : List (VMKitObject → Bool)) (f : Finalization.State κ)
      (r : VMKitObject → Bool), (f.processRounds c r closures).1.objectAt = f.objectAt ∧
      ∀ o, r o = true → (f.processRounds c r closures).2 o = true := by
    intro closures
    induction closures with
    | nil => exact fun f r => ⟨rfl, fun _ => id⟩
    | cons closure closures ih =>
      intro f r
      obtain ⟨hobject, hmono⟩ := ih (f.process c fun x => r x || closure x).1
        (f.process c fun x => r x || closure x).2.1
      refine ⟨hobject, fun o ho => hmono o (retain_mono ?_)⟩
      rw [ho, Bool.true_or]
  obtain ⟨hobject, hmono⟩ := hrounds c.closures (f.process c c.isReachable).1
    (f.process c c.isReachable).2.1
  refine ⟨_, ?_, fun o ho => hmono o (retain_mono ho)⟩
  rw [Finalization.State.collect]
  exact congrArg (c.survivors _) hobject

/-- Every link is to an object of the heap. -/
def LinksRefer (s : State κ) : Prop :=
  ∀ d ∈ s.disappearingLinks, d.object ≠ .null ∧ (s.finalization.objectAt d.object).isSome

/-- Collections keep the promises of collectors. -/
def Collects (s : State κ) (op : Label κ) : Prop :=
  ∀ c, op = .collect c → c.Valid s.finalization.objectAt

/-- No null is registered, and no reached object that has a link is moved. -/
def KeepsLinked (s : State κ) (op : Label κ) : Prop :=
  (∀ d, op.inserted = some d → d.object ≠ .null) ∧
    ∀ c, op = .collect c → ∀ d ∈ s.disappearingLinks, c.isReachable d.object = true →
      c.getForwardedObject d.object = none

theorem linksRefer_step {op : Label κ} (hv : Collects s op) (hs : LinksRefer s)
    (h : step vm s op = some s') : LinksRefer s' ↔ KeepsLinked s op := by
  rcases step_cases h with ⟨c, rfl, hc⟩ | ⟨hne, hlinks, hinserted, hobject⟩
  · obtain ⟨s₁, hs₁, hfin, hlinks, -⟩ := collect_spec (c := c) fun d hd => (hs d hd).1
    cases hc.symm.trans hs₁
    obtain ⟨R, hR, hmono⟩ := objectAt_collect s.finalization c
    -- the reference of a reached object is still one unless it is forwarded
    have hsurvives : ∀ d ∈ s.disappearingLinks, c.isReachable d.object = true →
        ((s'.finalization.objectAt d.object).isSome ↔
          c.getForwardedObject d.object = none) := by
      intro d hd hr
      have horigin := (hv c rfl).origin_eq_none (hs d hd).2
      rw [hfin, hR, Collection.survivors, horigin]
      dsimp only
      rw [hmono _ hr, Bool.true_and]
      cases hf : c.getForwardedObject d.object with
      | none => simpa using (hs d hd).2
      | some x => simp
    constructor
    · intro hs'
      refine ⟨by simp [Label.inserted], ?_⟩
      rintro c' hc' d hd hr
      cases hc'
      refine (hsurvives d hd hr).mp (hs' d ?_).2
      rw [hlinks]
      exact List.mem_filter.mpr ⟨hd, hr⟩
    · rintro ⟨-, hkeep⟩ d hd
      rw [hlinks] at hd
      obtain ⟨hd, hr⟩ := List.mem_filter.mp hd
      exact ⟨(hs d hd).1, (hsurvives d hd hr).mpr (hkeep c rfl d hd hr)⟩
  · constructor
    · intro hs'
      refine ⟨fun d hd => (hs' d (hinserted d hd).1).1, fun c hc => absurd hc (hne c)⟩
    · rintro ⟨hnull, -⟩ d hd
      rcases hlinks d hd with hd | hd
      · exact ⟨(hs d hd).1, hobject _ (hs d hd).2⟩
      · have hn := hnull d hd
        exact ⟨hn, hobject _ ((hinserted d hd).2.1.resolve_left hn)⟩

/--
Whatever mutators and collectors do, all links refer to objects of the heap exactly as long as no
null is registered and no collection moves an object that has a link.
-/
theorem linksRefer_iff {ops : List (Label κ)} (hv : (machine κ vm).Meets Collects (.new m) ops) :
    (machine κ vm).Always LinksRefer (.new m) ops ↔
      (machine κ vm).Meets KeepsLinked (.new m) ops :=
  Machine.always_iff_meets_of_meets (J := fun _ => True) (fun _ _ _ _ _ _ => trivial)
    (fun _ _ _ _ hv hs h => linksRefer_step hv hs h) hv trivial
    fun _ h => absurd h List.not_mem_nil

/-- With address-based hashing null cannot be registered. -/
theorem nonnull_of_reachable (habh : vm.addressBasedHashing = true)
    (hs : (machine κ vm).Reachable s) : ∀ d ∈ s.disappearingLinks, d.object ≠ .null := by
  refine hs.invariant (I := fun s => ∀ d ∈ s.disappearingLinks, d.object ≠ .null) ?_ ?_
  · rintro s ⟨m, rfl⟩ d hd
    exact absurd hd List.not_mem_nil
  · intro s op s' hnull _ h d hd
    rcases step_cases h with ⟨c, rfl, hc⟩ | ⟨-, hlinks, hinserted, -⟩
    · obtain ⟨s₁, hs₁, -, hlinks, -⟩ := collect_spec (c := c) hnull
      cases hc.symm.trans hs₁
      rw [hlinks] at hd
      exact hnull d (List.mem_filter.mp hd).1
    · rcases hlinks d hd with hd | hd
      · exact hnull d hd
      · exact (hinserted d hd).2.2 habh

/-- One object is allocated, given a link, and moved nowhere. -/
theorem linksRefer_iff_still : (machine Unit (.fixedSize 16)).Always LinksRefer (.new fun _ => 0)
    [.finalization (.allocate ⟨1032⟩), .registerDisappearingLink 2048 ⟨1032⟩,
      .collect (.still fun _ => true)] := by
  have hv : (machine Unit (.fixedSize 16)).Meets Collects (.new fun _ => 0)
      [.finalization (.allocate ⟨1032⟩), .registerDisappearingLink 2048 ⟨1032⟩,
        .collect (.still fun _ => true)] := by
    refine Machine.meets_of_mem fun op hop s c hc => ?_
    rw [hc] at hop
    simp only [List.mem_cons, reduceCtorEq, Label.collect.injEq, List.not_mem_nil, or_false,
      false_or] at hop
    rw [hop]
    exact Collection.still_valid _
  refine (linksRefer_iff hv).mpr (Machine.meets_of_mem fun op hop s => ?_)
  simp only [List.mem_cons, List.not_mem_nil, or_false] at hop
  rcases hop with rfl | rfl | rfl
  · exact ⟨by simp [Label.inserted], by simp⟩
  · exact ⟨by simp [Label.inserted, VMKitObject.null], by simp⟩
  · refine ⟨by simp [Label.inserted], ?_⟩
    rintro c hc d - -
    cases hc
    rfl

/--
At any point of any run, a collection clears the links to objects that were not reached before it
looked at the finalizers, also if a finalizer revives the object, and changes no other word. It
queues the finalizers that it would queue without links.
-/
theorem collect_clears_links (habh : vm.addressBasedHashing = true)
    (hs : (machine κ vm).Reachable s) (c : Collection) :
    ∃ s', step vm s (.collect c) = some s' ∧ s'.finalization = s.finalization.collect c ∧
      s'.disappearingLinks = s.disappearingLinks.filter (fun d => c.isReachable d.object) ∧
      (∀ x, (∀ d ∈ s.disappearingLinks, c.isReachable d.object = false →
        ByteMemory.Disjoint d.link 8 x 1) → s'.memory x = s.memory x) ∧
      ∀ d ∈ s.disappearingLinks, c.isReachable d.object = false →
        s'.memory.load d.link 8 = 0 :=
  collect_spec (nonnull_of_reachable habh hs)

/-- The finalizer of an object is queued, and the link to it is cleared. -/
theorem collect_clears_links_queued : ∃ s s',
    (machine Unit (.fixedSize 16)).exec (.new fun _ => 1)
      [.finalization (.allocate ⟨1032⟩), .finalization (.registerFinalizer ⟨1032⟩ ()),
        .registerDisappearingLink 2048 ⟨1032⟩] = some s ∧
    step (.fixedSize 16) s (.collect (.still fun _ => false)) = some s' ∧
    s'.finalization.pending.length = 1 ∧ s'.disappearingLinks = [] ∧
    s'.memory.load 2048 8 = 0 := by
  obtain ⟨s, hs, hlinks⟩ : ∃ s, (machine Unit (.fixedSize 16)).exec (.new fun _ => 1)
      [.finalization (.allocate ⟨1032⟩), .finalization (.registerFinalizer ⟨1032⟩ ()),
        .registerDisappearingLink 2048 ⟨1032⟩] = some s ∧
      s.disappearingLinks = [⟨⟨1032⟩, 2048⟩] ∧
      (s.finalization.collect (.still fun _ => false)).pending.length = 1 := ⟨_, rfl, rfl, rfl⟩
  have hreach : (machine Unit (.fixedSize 16)).Reachable s :=
    Machine.Reachable.exec (.init ⟨_, rfl⟩) hs
  obtain ⟨s', hs', hfin, hkept, -, hzero⟩ :=
    collect_clears_links rfl hreach (.still fun _ => false)
  rw [hlinks.1] at hkept hzero
  exact ⟨s, s', hs, hs', hfin ▸ hlinks.2, hkept, hzero _ List.mem_cons_self rfl⟩

end DisappearingLinks

end VmkitCore
