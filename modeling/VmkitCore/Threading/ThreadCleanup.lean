import Mathlib.Data.List.Perm.Basic
import VmkitCore.Lib.Loop
import VmkitCore.Threading.ThreadTable

/-! # Cleaning up the thread table

`process_about_to_terminate` looks for terminated threads in the first slots of the table,
as many as there are entries in the queue of ending threads, and removes the entry of the
queue at the position of the slot. Slots are reused through a stack of free indices.
-/

namespace VmkitCore.ThreadManager

variable {τ : Type*}

namespace Inner

variable {m m' : Inner τ} {status : τ → ThreadState} {index : τ → ℕ} {t u : τ}
  {threads : List (Option τ)} {i k n : ℕ}

/-- One round of the loop of `process_about_to_terminate`; an error is a panic with this table. -/
def processRound (status : τ → ThreadState) (index : τ → ℕ) (m : Inner τ) :
    Inner τ ⊕ Except (Inner τ) (Inner τ) :=
  match m.processAboutToTerminate status index with
  | some (m', true) => .inl m'
  | some (m', false) => .inr (.ok m')
  | none => .inr (.error m)

/-- Each slot knows its thread, and the free indices are those of the empty slots. -/
structure Indexed (index : τ → ℕ) (m : Inner τ) : Prop where
  slot : ∀ i t, m.threads[i]? = some (some t) → index t = i
  free : ∀ i, i ∈ m.freeThreadIndices ↔ m.threads[i]? = some none
  nodup : m.freeThreadIndices.Nodup

/-- Live threads in these slots. -/
def LiveTo (status : τ → ThreadState) (threads : List (Option τ)) (i k : ℕ) : Prop :=
  ∀ j, i ≤ j → j < k → ∃ t, threads[j]? = some (some t) ∧ status t ≠ .terminated

theorem LiveTo.cons (hi : threads[i]? = some (some t)) (ht : status t ≠ .terminated)
    (h : LiveTo status threads (i + 1) k) : LiveTo status threads i k := by
  intro j hj hjk
  rcases Nat.eq_or_lt_of_le hj with rfl | hlt
  · exact ⟨t, hi, ht⟩
  · exact h j hlt hjk

/-- The search goes over live threads. -/
theorem findTerminated_skip (h : LiveTo status threads i (i + k)) :
    findTerminated status threads i (k + n) = findTerminated status threads (i + k) n := by
  induction k generalizing i with
  | zero => rw [Nat.zero_add, Nat.add_zero]
  | succ k ih =>
    obtain ⟨t, ht, hs⟩ := h i le_rfl (by omega)
    have hstep : findTerminated status threads i (k + n + 1) =
        findTerminated status threads (i + 1) (k + n) := by
      rw [findTerminated, ht]
      simp only [hs, if_false]
    rw [Nat.succ_add, hstep, ih fun j hj hjk => h j (by omega) (by omega)]
    congr 1
    omega

/-- A search that comes to its end has seen live threads, and maybe one that is terminated. -/
theorem findTerminated_eq_some {o : Option (ℕ × τ)}
    (h : findTerminated status threads i n = some o) :
    o = none ∧ LiveTo status threads i (i + n) ∨
      ∃ k t, o = some (k, t) ∧ i ≤ k ∧ k < i + n ∧ threads[k]? = some (some t) ∧
        status t = .terminated ∧ LiveTo status threads i k := by
  induction n generalizing i with
  | zero => exact .inl ⟨(Option.some.inj h).symm, fun j hj hjn => absurd hjn (by omega)⟩
  | succ n ih =>
    rw [findTerminated] at h
    split at h
    · next t ht =>
      split at h
      · next hs =>
        exact .inr ⟨i, t, (Option.some.inj h).symm, le_rfl, by omega, ht, hs,
          fun j hj hji => absurd hji (by omega)⟩
      · next hs =>
        rw [show i + (n + 1) = i + 1 + n by omega]
        rcases ih h with ⟨ho, hl⟩ | ⟨k, u, ho, hik, hkn, hk, hu, hl⟩
        · exact .inl ⟨ho, hl.cons ht hs⟩
        · exact .inr ⟨k, u, ho, by omega, hkn, hk, hu, hl.cons ht hs⟩
    · cases h

/-- The entry of the queue at the slot of a terminated thread is removed, and the thread's slot. -/
def remove (m : Inner τ) (k idx : ℕ) : Inner τ where
  threads := m.threads.set idx none
  freeThreadIndices := m.freeThreadIndices ++ [idx]
  aboutToTerminate := swapRemove m.aboutToTerminate k

theorem length_swapRemove {l : List τ} (h : l ≠ []) : (swapRemove l k).length + 1 = l.length := by
  rw [swapRemove, List.getLast?_eq_some_getLast h]
  simp only [List.length_dropLast, List.length_set]
  have := List.length_pos_iff.mpr h
  omega

theorem processRound_cases (status : τ → ThreadState) (index : τ → ℕ) (m : Inner τ) :
    processRound status index m = .inr (.error m) ∨
    processRound status index m = .inr (.ok m) ∧
      LiveTo status m.threads 0 m.aboutToTerminate.length ∨
    ∃ k t, processRound status index m = .inl (m.remove k (index t)) ∧
      k < m.aboutToTerminate.length ∧ m.threads[k]? = some (some t) ∧ status t = .terminated ∧
      LiveTo status m.threads 0 k ∧ index t < m.threads.length := by
  unfold processRound processAboutToTerminate
  cases ho : findTerminated status m.threads 0 m.aboutToTerminate.length with
  | none => exact .inl rfl
  | some o =>
    rcases findTerminated_eq_some ho with ⟨rfl, hl⟩ | ⟨k, t, rfl, -, hk, ht, hs, hl⟩
    · exact .inr (.inl ⟨rfl, by simpa using hl⟩)
    by_cases hlt : index t < m.threads.length
    · refine .inr (.inr ⟨k, t, ?_, by simpa using hk, ht, hs, hl, hlt⟩)
      simp only [Option.bind_some, if_pos hlt, remove]
    · exact .inl (by simp only [Option.bind_some, if_neg hlt])

theorem length_of_processRound (h : processRound status index m = .inl m') :
    m'.aboutToTerminate.length < m.aboutToTerminate.length := by
  rcases processRound_cases status index m with he | ⟨he, -⟩ | ⟨k, t, he, hk, -⟩
  · cases h.symm.trans he
  · cases h.symm.trans he
  · obtain rfl := Sum.inl.inj (h.symm.trans he)
    have hne : m.aboutToTerminate ≠ [] := List.length_pos_iff.mp (by omega)
    exact Nat.lt_of_lt_of_eq (Nat.lt_succ_self _) (length_swapRemove hne)

/-- `process_about_to_terminate`, which never starts over more often than its queue is long. -/
def process (status : τ → ThreadState) (index : τ → ℕ) (m : Inner τ) :
    Except (Inner τ) (Inner τ) :=
  (runLoop (processRound status index) (m.aboutToTerminate.length + 1) m).getD (.error m)

theorem returns_iff {r : Except (Inner τ) (Inner τ)} :
    Loop.Returns (processRound status index) m r ↔ process status index m = r := by
  obtain ⟨q, hq⟩ : ∃ q, runLoop (processRound status index) (m.aboutToTerminate.length + 1) m =
      some q :=
    Loop.exists_runLoop_of_decreasing (fun m => m.aboutToTerminate.length)
      (fun _ _ => length_of_processRound) (Nat.lt_succ_self m.aboutToTerminate.length)
  have hp : process status index m = q := by rw [process, hq]; rfl
  rw [hp]
  constructor
  · exact fun h => Loop.Returns.unique ⟨_, hq⟩ h
  · rintro rfl
    exact ⟨_, hq⟩

namespace Indexed

/-- Freeing the slot of a thread keeps the indices right. -/
theorem remove (h : Indexed index m) (ht : m.threads[i]? = some (some t)) :
    Indexed index (m.remove k i) := by
  have hlt := (List.getElem?_eq_some_iff.mp ht).1
  have hset : ∀ j, (m.threads.set i none)[j]? = if i = j then some none else m.threads[j]? := by
    intro j
    rw [List.getElem?_set]
    split <;> simp [*]
  refine ⟨fun j u hj => ?_, fun j => ?_, ?_⟩
  · rw [Inner.remove, hset] at hj
    split at hj
    · cases hj
    · exact h.slot j u hj
  · rw [Inner.remove, List.mem_append, List.mem_singleton, h.free, hset]
    split
    · next hij => simp [hij]
    · next hij => simp [Ne.symm hij]
  · refine List.nodup_append.mpr ⟨h.nodup, List.nodup_singleton i, ?_⟩
    rintro j hj _ hi rfl
    obtain rfl := List.mem_singleton.mp hi
    cases ht.symm.trans ((h.free _).mp hj)

end Indexed

/-- What freeing the slot of a terminated thread keeps, `process_about_to_terminate` keeps. -/
theorem process_invariant {I : Inner τ → Prop} (hI : ∀ m k t, I m →
      m.threads[k]? = some (some t) → status t = .terminated → I (m.remove k (index t)))
    (hm : I m) :
    ∃ m', (process status index m = .ok m' ∨ process status index m = .error m') ∧ I m' := by
  have hret := returns_iff.mpr (rfl : process status index m = _)
  refine hret.invariant (I := I)
    (Q := fun r => ∃ m', (r = .ok m' ∨ r = .error m') ∧ I m') ?_ ?_ hm
  · intro m m' hi hr
    rcases processRound_cases status index m with he | ⟨he, -⟩ | ⟨k, t, he, -, ht, hs, -⟩
    · cases hr.symm.trans he
    · cases hr.symm.trans he
    · rw [Sum.inl.inj (hr.symm.trans he)]
      exact hI m k t hi ht hs
  · intro m r hi hr
    rcases processRound_cases status index m with he | ⟨he, -⟩ | ⟨k, t, he, -⟩
    · exact ⟨m, .inr (Sum.inr.inj (hr.symm.trans he)), hi⟩
    · exact ⟨m, .inl (Sum.inr.inj (hr.symm.trans he)), hi⟩
    · cases hr.symm.trans he

/-- Whether it returns or panics, the cleanup keeps the indices right and adds no thread. -/
theorem Indexed.process (h : Indexed index m) (status : τ → ThreadState) :
    ∃ m', (Inner.process status index m = .ok m' ∨ Inner.process status index m = .error m') ∧
      Indexed index m' ∧ ∀ t, some t ∈ m'.threads → some t ∈ m.threads := by
  refine process_invariant (I := fun m' => Indexed index m' ∧
    ∀ t, some t ∈ m'.threads → some t ∈ m.threads) ?_ ⟨h, fun _ => id⟩
  rintro m' k t ⟨hi, hsub⟩ ht -
  refine ⟨hi.remove (hi.slot k t ht ▸ ht), fun u hu => hsub u ?_⟩
  exact (List.mem_or_eq_of_mem_set hu).resolve_right nofun

/-- The thread goes into a slot that was empty or new, and no other slot changes. -/
structure Inserted (m m' : Inner τ) (t : τ) (idx : ℕ) : Prop where
  vacant : m.threads[idx]? = some none ∨ idx = m.threads.length
  filled : m'.threads[idx]? = some (some t)
  others : ∀ j, j ≠ idx → m'.threads[j]? = m.threads[j]?

theorem addThread_of_hole {free : List ℕ} (h : m.freeThreadIndices = free ++ [k])
    (hk : k < m.threads.length) :
    m.addThread t =
      ({ m with freeThreadIndices := free, threads := m.threads.set k (some t) }, k) := by
  simp [addThread, h, Nat.not_le_of_lt hk]

theorem inserted_addThread (h : Indexed index m) (t : τ) :
    Inserted m (m.addThread t).1 t (m.addThread t).2 := by
  rcases List.eq_nil_or_concat' m.freeThreadIndices with he | ⟨free, k, he⟩
  · rw [addThread_of_free he]
    refine ⟨.inr rfl, by simp, fun j hj => ?_⟩
    rw [List.getElem?_append, List.getElem?_singleton]
    dsimp only at hj
    split
    · rfl
    · next hlt => rw [if_neg (by omega), List.getElem?_eq_none (by omega)]
  · have hk : m.threads[k]? = some none := (h.free k).mp (by simp [he])
    have hlt := (List.getElem?_eq_some_iff.mp hk).1
    rw [addThread_of_hole he hlt]
    exact ⟨.inl hk, by simp [hlt], fun j hj => List.getElem?_set_ne (Ne.symm hj)⟩

/-- Which indices are free after an insertion. -/
theorem mem_free_addThread (h : Indexed index m) (t : τ) :
    i ∈ (m.addThread t).1.freeThreadIndices ↔ i ∈ m.freeThreadIndices ∧ i ≠ (m.addThread t).2 := by
  rcases List.eq_nil_or_concat' m.freeThreadIndices with he | ⟨free, k, he⟩
  · simp [addThread_of_free he, he]
  · have hk : m.threads[k]? = some none := (h.free k).mp (by simp [he])
    have hnodup := h.nodup
    rw [addThread_of_hole he (List.getElem?_eq_some_iff.mp hk).1, he]
    rw [he, List.nodup_append] at hnodup
    constructor
    · exact fun hi => ⟨List.mem_append_left _ hi, hnodup.2.2 i hi k (List.mem_singleton_self k)⟩
    · rintro ⟨hi, hne⟩
      exact (List.mem_append.mp hi).resolve_right fun hik => hne (List.mem_singleton.mp hik)

/-- Adding a thread that holds no slot keeps the indices right. -/
theorem Indexed.addThread [DecidableEq τ] (h : Indexed index m) (ht : some t ∉ m.threads) :
    Indexed (Function.update index t (m.addThread t).2) (m.addThread t).1 := by
  obtain ⟨hv, hf, ho⟩ := inserted_addThread h t
  refine ⟨fun i u hu => ?_, fun i => ?_, ?_⟩
  · by_cases hi : i = (m.addThread t).2
    · obtain rfl : t = u := by simpa [hi, hf] using hu
      rw [Function.update_self, hi]
    · rw [ho i hi] at hu
      have hne : u ≠ t := fun he => ht (he ▸ List.mem_of_getElem? hu)
      rw [Function.update_of_ne hne, h.slot i u hu]
  · rw [mem_free_addThread h, h.free]
    by_cases hi : i = (m.addThread t).2
    · simp [hi, hf]
    · simp [hi, ho i hi]
  · have hsub : (m.addThread t).1.freeThreadIndices = m.freeThreadIndices.dropLast := rfl
    rw [hsub]
    exact h.nodup.sublist (List.dropLast_sublist _)

theorem process_of_live (h : LiveTo status m.threads 0 m.aboutToTerminate.length) :
    process status index m = .ok m := by
  have hfind : findTerminated status m.threads 0 m.aboutToTerminate.length = some none :=
    findTerminated_skip (n := 0) (by simpa using h)
  rw [← returns_iff, Loop.returns_of_inr]
  simp [processRound, processAboutToTerminate, hfind]

/-- A round that ends at the last slot it looks at is the last one. -/
theorem process_of_last (h : Indexed index m) (hk : k + 1 = m.aboutToTerminate.length)
    (ht : m.threads[k]? = some (some t)) (hs : status t = .terminated)
    (hl : LiveTo status m.threads 0 k) : process status index m = .ok (m.remove k k) := by
  have hi : index t = k := h.slot k t ht
  have hlt : k < m.threads.length := (List.getElem?_eq_some_iff.mp ht).1
  have hfind : findTerminated status m.threads 0 m.aboutToTerminate.length =
      some (some (k, t)) := by
    rw [← hk, findTerminated_skip (by simpa using hl), Nat.zero_add, findTerminated, ht]
    simp [hs]
  have hround : processRound status index m = .inl (m.remove k k) := by
    simp [processRound, processAboutToTerminate, hfind, hi, hlt, remove]
  have hne : m.aboutToTerminate ≠ [] := List.length_pos_iff.mp (by omega)
  have hlen : (m.remove k k).aboutToTerminate.length = k :=
    Nat.succ_injective ((length_swapRemove hne).trans hk.symm)
  rw [← returns_iff, Loop.returns_of_inl hround, returns_iff]
  refine process_of_live fun j hj hjk => ?_
  rw [hlen] at hjk
  rw [remove, List.getElem?_set_ne (by omega)]
  exact hl j hj hjk

/-- A cleanup that returns has found no terminated thread, or one in the last slot. -/
theorem process_eq_ok (h : Indexed index m) (hp : process status index m = .ok m') :
    LiveTo status m.threads 0 m.aboutToTerminate.length ∧ m' = m ∨
    ∃ k t, k + 1 = m.aboutToTerminate.length ∧ m.threads[k]? = some (some t) ∧
      status t = .terminated ∧ LiveTo status m.threads 0 k ∧ m' = m.remove k k := by
  rw [← returns_iff] at hp
  rcases processRound_cases status index m with he | ⟨he, hl⟩ | ⟨k, t, he, hk, ht, hs, hl, -⟩
  · cases (Loop.returns_of_inr he).mp hp
  · exact .inl ⟨hl, Except.ok.inj ((Loop.returns_of_inr he).mp hp)⟩
  rw [h.slot k t ht] at he
  rw [Loop.returns_of_inl he] at hp
  have hlt : k < m.threads.length := (List.getElem?_eq_some_iff.mp ht).1
  have hhole : (m.remove k k).threads[k]? = some none := by simp [remove, hlt]
  have hne : m.aboutToTerminate ≠ [] := List.length_pos_iff.mp (by omega)
  have hlen : (m.remove k k).aboutToTerminate.length + 1 = m.aboutToTerminate.length :=
    length_swapRemove hne
  -- the second round comes to the slot that the first one has emptied, unless it was the last
  have hstop : ∀ n, LiveTo status (m.remove k k).threads 0 n → n ≤ k := by
    intro n hn
    by_contra hlt
    obtain ⟨u, hu, -⟩ := hn k (Nat.zero_le k) (by omega)
    cases hhole.symm.trans hu
  rcases processRound_cases status index (m.remove k k) with
    he' | ⟨he', hl'⟩ | ⟨j, u, -, hj, hu, hus, hl', -⟩
  · cases (Loop.returns_of_inr he').mp hp
  · have hle := hstop _ hl'
    exact .inr ⟨k, t, by omega, ht, hs, hl, Except.ok.inj ((Loop.returns_of_inr he').mp hp)⟩
  · exfalso
    rcases Nat.lt_or_eq_of_le (hstop j hl') with hjk | rfl
    · obtain ⟨v, hv, hvs⟩ := hl j (Nat.zero_le j) hjk
      rw [remove, List.getElem?_set_ne (by omega)] at hu
      cases hv.symm.trans hu
      exact hvs hus
    · cases hhole.symm.trans hu

end Inner

namespace Cleanup

/-- The table with what it reads of the threads. -/
structure State (τ : Type*) where
  inner : Inner τ
  indexInManager : τ → ℕ
  status : τ → ThreadState

/-- Methods of the manager, and changes of the execution states. -/
inductive Label (τ : Type*)
  | addThread (t : τ)
  | addAboutToTerminateCurrent (t : τ)
  | processAboutToTerminate
  | setExecStatus (t : τ) (st : ThreadState)
  deriving DecidableEq, Repr

variable [DecidableEq τ]

def State.process (s : State τ) : Except (Inner τ) (Inner τ) :=
  s.inner.process s.status s.indexInManager

/-- A panic leaves the table as it is then. A thread is added once, and ends once. -/
def step (s : State τ) : Label τ → Option (State τ)
  | .addThread t =>
    if some t ∈ s.inner.threads then none else
    match s.process with
    | .ok m =>
      let (m', idx) := m.addThread t
      some { s with inner := m', indexInManager := Function.update s.indexInManager t idx }
    | .error m => some { s with inner := m }
  | .addAboutToTerminateCurrent t =>
    if some t ∉ s.inner.threads ∨ t ∈ s.inner.aboutToTerminate then none else
    (s.inner.addAboutToTerminateCurrent (s.indexInManager t)).map fun m => { s with inner := m }
  | .processAboutToTerminate =>
    match s.process with
    | .ok m | .error m => some { s with inner := m }
  | .setExecStatus t st => some { s with status := Function.update s.status t st }

def machine : Machine (State τ) (Label τ) where
  init s := s.inner = .new
  step := step

variable {s s' : State τ} {l : Label τ} {t : τ} {m : Inner τ}

theorem indexed_step (h : s.inner.Indexed s.indexInManager) (hs : machine.step s l = some s') :
    s'.inner.Indexed s'.indexInManager := by
  obtain ⟨m, hm, hi, hsub⟩ := h.process s.status
  change s.process = .ok m ∨ s.process = .error m at hm
  cases l with
  | addThread t =>
    obtain ⟨ht, hs⟩ := Option.ite_none_left_eq_some.mp hs
    rcases hm with hm | hm
    all_goals
      rw [hm] at hs
      cases hs
    · exact hi.addThread fun hmem => ht (hsub t hmem)
    · exact hi
  | addAboutToTerminateCurrent t =>
    obtain ⟨-, hs⟩ := Option.ite_none_left_eq_some.mp hs
    obtain ⟨m', hm', rfl⟩ := Option.map_eq_some_iff.mp hs
    unfold Inner.addAboutToTerminateCurrent at hm'
    split at hm' <;> cases hm'
    exact ⟨h.slot, h.free, h.nodup⟩
  | processAboutToTerminate =>
    simp only [machine, step] at hs
    rcases hm with hm | hm
    all_goals
      rw [hm] at hs
      cases hs
      exact hi
  | setExecStatus t st =>
    cases hs
    exact h

theorem indexed_exec {ls : List (Label τ)} (h : s.inner.Indexed s.indexInManager)
    (hs : machine.exec s ls = some s') : s'.inner.Indexed s'.indexInManager := by
  induction ls generalizing s with
  | nil => cases hs; exact h
  | cons l ls ih =>
    obtain ⟨u, hu, hs⟩ := Machine.exec_cons_eq_some.mp hs
    exact ih (indexed_step h hu) hs

theorem inserted_of_step (h : s.inner.Indexed s.indexInManager) (hm : s.process = .ok m)
    (hs : machine.step s (.addThread t) = some s') :
    Inner.Inserted m s'.inner t (s'.indexInManager t) := by
  obtain ⟨m', hm', hi, -⟩ := h.process s.status
  change s.process = .ok m' ∨ s.process = .error m' at hm'
  rw [hm] at hm'
  obtain rfl : m = m' := Except.ok.inj (hm'.resolve_right nofun)
  obtain ⟨-, hs⟩ := Option.ite_none_left_eq_some.mp hs
  rw [hm] at hs
  cases hs
  change Inner.Inserted m (m.addThread t).1 t
    (Function.update s.indexInManager t (m.addThread t).2 t)
  rw [Function.update_self]
  exact Inner.inserted_addThread hi t

/--
From any table whose slots and free indices are right, every run keeps them right, adds
threads to slots that were empty or new and changes no other slot, and no two threads of the
table have the same index.
-/
theorem indices_kept {ls : List (Label τ)} (h : s.inner.Indexed s.indexInManager)
    (hs : machine.exec s ls = some s') :
    s'.inner.Indexed s'.indexInManager ∧
    (∀ t m s'', s'.process = .ok m → machine.step s' (.addThread t) = some s'' →
      Inner.Inserted m s''.inner t (s''.indexInManager t)) ∧
    ∀ t u, some t ∈ s'.inner.threads → some u ∈ s'.inner.threads →
      s'.indexInManager t = s'.indexInManager u → t = u := by
  have hi := indexed_exec h hs
  refine ⟨hi, fun t m s'' => inserted_of_step hi, fun t u ht hu he => ?_⟩
  obtain ⟨i, hi'⟩ := List.mem_iff_getElem?.mp ht
  obtain ⟨j, hj⟩ := List.mem_iff_getElem?.mp hu
  obtain rfl : i = j := by rw [← hi.slot i t hi', ← hi.slot j u hj, he]
  exact Option.some.inj (Option.some.inj (hi'.symm.trans hj))

/-- The thread in slot 0 ends, and slot 1 is free. -/
def State.hole : State Bool := ⟨⟨[some true, none], [1], [true]⟩, fun _ => 0, fun _ => .inManaged⟩

theorem indices_kept_hole : ∃ s' : State Bool,
    machine.exec .hole [.addThread false] = some s' ∧
    s'.inner.threads = [some true, some false] ∧ s'.inner.Indexed s'.indexInManager := by
  have h : State.hole.inner.Indexed State.hole.indexInManager := by
    refine ⟨fun i t hi => ?_, fun i => ?_, List.nodup_singleton 1⟩
    · rcases i with _ | _ | i <;> simp_all [State.hole]
    · rcases i with _ | _ | i <;> simp [State.hole]
  obtain ⟨s', hs, ht⟩ : ∃ s' : State Bool, machine.exec .hole [.addThread false] = some s' ∧
      s'.inner.threads = [some true, some false] := ⟨_, rfl, rfl⟩
  exact ⟨s', hs, ht, (indices_kept h hs).1⟩

section Cleaned

variable {status : τ → ThreadState} {index : τ → ℕ} {m' : Inner τ} {i k : ℕ}

/-- Exactly the terminated threads of the queue are gone, from the queue and from their slots. -/
structure Cleaned (status : τ → ThreadState) (index : τ → ℕ) (m m' : Inner τ) : Prop where
  queue : m'.aboutToTerminate.Perm (m.aboutToTerminate.filter fun t => status t ≠ .terminated)
  slots : ∀ i : ℕ, m'.threads[i]? = m.threads[i]?.map (Option.filter fun t =>
    !decide (t ∈ m.aboutToTerminate ∧ status t = .terminated))
  free : m'.freeThreadIndices.Perm (m.freeThreadIndices ++
    (m.aboutToTerminate.filter fun t => status t = .terminated).map index)

/--
The slots at the positions of the queue are occupied, and at most at the last position there is
a terminated thread, which is then the one in the queue and in the slot.
-/
structure Aligned (status : τ → ThreadState) (m : Inner τ) : Prop where
  occupied : ∀ i < m.aboutToTerminate.length, ∃ t, m.threads[i]? = some (some t)
  front : ∀ i t, i + 1 < m.aboutToTerminate.length →
    (m.aboutToTerminate[i]? = some t ∨ m.threads[i]? = some (some t)) → status t ≠ .terminated
  back : ∀ i t, i + 1 = m.aboutToTerminate.length →
    (m.aboutToTerminate[i]? = some t ∨ m.threads[i]? = some (some t)) → status t = .terminated →
    m.aboutToTerminate[i]? = some t ∧ m.threads[i]? = some (some t)

omit [DecidableEq τ] in
theorem live_of_liveTo {j n : ℕ} (h : Inner.LiveTo status m.threads j n) (hi : j ≤ i) (hin : i < n)
    (ht : m.threads[i]? = some (some t)) : status t ≠ .terminated := by
  obtain ⟨u, hu, hus⟩ := h i hi hin
  cases hu.symm.trans ht
  exact hus

theorem cleaned_self_iff (hl : Inner.LiveTo status m.threads 0 m.aboutToTerminate.length) :
    Cleaned status index m m ↔ Aligned status m := by
  constructor
  · intro h
    have hlive : ∀ t ∈ m.aboutToTerminate, status t ≠ .terminated := by
      intro t ht hs
      have hmem := (h.queue.mem_iff).mp ht
      simp [hs] at hmem
    have hboth : ∀ (i : ℕ) t, i < m.aboutToTerminate.length →
        (m.aboutToTerminate[i]? = some t ∨ m.threads[i]? = some (some t)) →
        status t ≠ .terminated := by
      rintro i t hi (ht | ht)
      · exact hlive t (List.mem_of_getElem? ht)
      · exact live_of_liveTo hl (Nat.zero_le i) hi ht
    refine ⟨fun i hi => ?_, fun i t hi => hboth i t (by omega),
      fun i t hi ho hs => absurd hs (hboth i t (by omega) ho)⟩
    obtain ⟨t, ht, -⟩ := hl i (Nat.zero_le i) hi
    exact ⟨t, ht⟩
  · intro h
    have hlive : ∀ t ∈ m.aboutToTerminate, status t ≠ .terminated := by
      intro t ht hs
      obtain ⟨i, hi⟩ := List.mem_iff_getElem?.mp ht
      have hlt := (List.getElem?_eq_some_iff.mp hi).1
      rcases Nat.lt_or_eq_of_le (Nat.succ_le_of_lt hlt) with hlt' | he
      · exact h.front i t hlt' (.inl hi) hs
      · exact live_of_liveTo hl (Nat.zero_le i) hlt (h.back i t he (.inl hi) hs).2 hs
    refine ⟨?_, fun i => ?_, ?_⟩
    · rw [List.filter_eq_self.mpr fun t ht => by simpa using hlive t ht]
    · rcases m.threads[i]? with _ | _ | t
      · rfl
      · rfl
      · simpa [Option.filter_some, imp_not_comm] using hlive t
    · rw [List.filter_eq_nil_iff.mpr fun t ht => by simpa using hlive t ht, List.map_nil,
        List.append_nil]

section RemoveLast

variable {D : List τ} {l : τ}

omit [DecidableEq τ] in
theorem aboutToTerminate_remove (hA : m.aboutToTerminate = D ++ [l]) :
    (m.remove D.length D.length).aboutToTerminate = D := by
  simp [Inner.remove, Inner.swapRemove, hA]

omit [DecidableEq τ] in
theorem threads_remove (ht : m.threads[k]? = some (some t)) (i : ℕ) :
    (m.remove k k).threads[i]? = if k = i then some none else m.threads[i]? := by
  have hlt := (List.getElem?_eq_some_iff.mp ht).1
  rw [Inner.remove, List.getElem?_set]
  split <;> simp [*]

/-- The queue and the table are aligned where removing the last entry is a cleanup. -/
theorem aligned_of_cleaned_remove (hA : m.aboutToTerminate = D ++ [l])
    (ht : m.threads[D.length]? = some (some t)) (hs : status t = .terminated)
    (hl : Inner.LiveTo status m.threads 0 D.length)
    (hc : Cleaned status index m (m.remove D.length D.length)) : Aligned status m := by
  have hlength : m.aboutToTerminate.length = D.length + 1 := by simp [hA]
  have hD : ∀ u ∈ D, status u ≠ .terminated := by
    intro u hu hus
    have hmem := (aboutToTerminate_remove hA ▸ hc.queue).mem_iff.mp hu
    simp [hus] at hmem
  have hslot := hc.slots D.length
  rw [threads_remove ht, if_pos rfl, ht] at hslot
  have hmem : t ∈ m.aboutToTerminate := by
    by_contra hn
    simp [Option.filter_some, hn] at hslot
  obtain rfl : t = l := by
    rw [hA] at hmem
    rcases List.mem_append.mp hmem with hmem | hmem
    · exact absurd hs (hD t hmem)
    · exact List.mem_singleton.mp hmem
  have hAlast : m.aboutToTerminate[D.length]? = some t := by simp [hA]
  refine ⟨fun i hi => ?_, fun i u hi ho => ?_, fun i u hi ho _ => ?_⟩
  · rcases Nat.lt_or_eq_of_le (Nat.le_of_lt_succ (hlength ▸ hi)) with hi | rfl
    · obtain ⟨u, hu, -⟩ := hl i (Nat.zero_le i) hi
      exact ⟨u, hu⟩
    · exact ⟨t, ht⟩
  · have hi' : i < D.length := by omega
    rcases ho with ho | ho
    · rw [hA, List.getElem?_append_left hi'] at ho
      exact hD u (List.mem_of_getElem? ho)
    · exact live_of_liveTo hl (Nat.zero_le i) hi' ho
  · obtain rfl : i = D.length := by omega
    rcases ho with ho | ho
    · obtain rfl := Option.some.inj (hAlast.symm.trans ho)
      exact ⟨ho, ht⟩
    · obtain rfl := Option.some.inj (Option.some.inj (ht.symm.trans ho))
      exact ⟨hAlast, ho⟩

theorem cleaned_remove_of_aligned (h : m.Indexed index) (hA : m.aboutToTerminate = D ++ [l])
    (ht : m.threads[D.length]? = some (some t)) (hs : status t = .terminated)
    (ha : Aligned status m) : Cleaned status index m (m.remove D.length D.length) := by
  have hlength : m.aboutToTerminate.length = D.length + 1 := by simp [hA]
  have hlast := (ha.back D.length t hlength.symm (.inr ht) hs).1
  obtain rfl : l = t := by simpa [hA] using hlast
  have hD : ∀ u ∈ D, status u ≠ .terminated := by
    intro u hu
    obtain ⟨i, hi⟩ := List.mem_iff_getElem?.mp hu
    have hi' := (List.getElem?_eq_some_iff.mp hi).1
    exact ha.front i u (by omega) (.inl (by rw [hA, List.getElem?_append_left hi', hi]))
  refine ⟨?_, fun i => ?_, ?_⟩
  · have hfilter : m.aboutToTerminate.filter (fun u => status u ≠ .terminated) = D := by
      rw [hA, List.filter_append, List.filter_eq_self.mpr fun u hu => by simpa using hD u hu]
      simp [hs]
    rw [aboutToTerminate_remove hA, hfilter]
  · rw [threads_remove ht]
    split
    · next hi => simp [← hi, ht, hA, hs, Option.filter_some]
    · next hi =>
      rcases hu : m.threads[i]? with _ | _ | u
      · rfl
      · rfl
      · have hlive : u ∈ m.aboutToTerminate → status u ≠ .terminated := by
          intro hmem
          rw [hA] at hmem
          rcases List.mem_append.mp hmem with hmem | hmem
          · exact hD u hmem
          · obtain rfl := List.mem_singleton.mp hmem
            exact absurd ((h.slot _ _ ht).symm.trans (h.slot i _ hu)) hi
        simpa [Option.filter_some, imp_not_comm] using hlive
  · have hfilter : m.aboutToTerminate.filter (fun u => status u = .terminated) = [l] := by
      rw [hA, List.filter_append, List.filter_eq_nil_iff.mpr fun u hu => by simpa using hD u hu]
      simp [hs]
    rw [hfilter, List.map_singleton, h.slot _ _ ht]
    exact List.Perm.refl _

end RemoveLast

/-- A cleanup that removes one thread removes the last entry of the queue. -/
theorem cleaned_remove_iff (h : m.Indexed index) (hk : k + 1 = m.aboutToTerminate.length)
    (ht : m.threads[k]? = some (some t)) (hs : status t = .terminated)
    (hl : Inner.LiveTo status m.threads 0 k) :
    Cleaned status index m (m.remove k k) ↔ Aligned status m := by
  obtain hnil | ⟨D, l, hA⟩ := List.eq_nil_or_concat' m.aboutToTerminate
  · simp [hnil] at hk
  obtain rfl : k = D.length := by simpa [hA] using hk
  constructor
  · exact aligned_of_cleaned_remove hA ht hs hl
  · exact cleaned_remove_of_aligned h hA ht hs

/--
For every table that can be reached, the cleanup returns with exactly the terminated threads of
the queue removed if and only if the queue and the table are aligned.
-/
theorem process_cleans_iff (h : machine.Reachable s) :
    (∃ m, Loop.Returns (Inner.processRound s.status s.indexInManager) s.inner (.ok m) ∧
      Cleaned s.status s.indexInManager s.inner m) ↔ Aligned s.status s.inner := by
  have hi : s.inner.Indexed s.indexInManager := by
    refine h.invariant (I := fun s => s.inner.Indexed s.indexInManager) (fun s hs => ?_)
      fun s l s' hi _ hs => indexed_step hi hs
    rw [show s.inner = .new from hs]
    exact ⟨fun i t => by simp [Inner.new], fun i => by simp [Inner.new], List.nodup_nil⟩
  constructor
  · rintro ⟨m, hm, hc⟩
    rcases Inner.process_eq_ok hi (Inner.returns_iff.mp hm) with
      ⟨hl, rfl⟩ | ⟨k, t, hk, ht, hs, hl, rfl⟩
    · exact (cleaned_self_iff hl).mp hc
    · exact (cleaned_remove_iff hi hk ht hs hl).mp hc
  · intro ha
    by_cases hl : Inner.LiveTo s.status s.inner.threads 0 s.inner.aboutToTerminate.length
    · exact ⟨s.inner, Inner.returns_iff.mpr (Inner.process_of_live hl),
        (cleaned_self_iff hl).mpr ha⟩
    obtain hnil | hpos := Nat.eq_zero_or_pos s.inner.aboutToTerminate.length
    · exact absurd (fun j _ hj => absurd (hnil ▸ hj) (Nat.not_lt_zero j)) hl
    obtain ⟨t, ht⟩ := ha.occupied (s.inner.aboutToTerminate.length - 1) (by omega)
    have hfront :
        Inner.LiveTo s.status s.inner.threads 0 (s.inner.aboutToTerminate.length - 1) := by
      intro j _ hj
      obtain ⟨u, hu⟩ := ha.occupied j (by omega)
      exact ⟨u, hu, ha.front j u (by omega) (.inr hu)⟩
    have hs : s.status t = .terminated := by
      by_contra hs
      refine hl fun j hj hjn => ?_
      rcases Nat.lt_or_eq_of_le (Nat.le_sub_one_of_lt hjn) with hlt | rfl
      · exact hfront j hj hlt
      · exact ⟨t, ht, hs⟩
    have hk : s.inner.aboutToTerminate.length - 1 + 1 = s.inner.aboutToTerminate.length := by omega
    exact ⟨_, Inner.returns_iff.mpr (Inner.process_of_last hi hk ht hs hfront),
      (cleaned_remove_iff hi hk ht hs hfront).mpr ha⟩

def State.new : State Bool := ⟨.new, fun _ => 0, fun _ => .inManaged⟩

/-- One thread starts and ends while another one lives on in slot 1. -/
def endingRun : List (Label Bool) :=
  [.addThread false, .addThread true, .addAboutToTerminateCurrent false,
    .setExecStatus false .terminated]

theorem process_cleans_iff_ending : ∃ s : State Bool,
    machine.checkedExec (fun _ _ => True) .new endingRun = some s ∧
    ∃ m, Loop.Returns (Inner.processRound s.status s.indexInManager) s.inner (.ok m) ∧
      Cleaned s.status s.indexInManager s.inner m := by
  obtain ⟨s, hs, hq, ht⟩ : ∃ s : State Bool,
      machine.checkedExec (fun _ _ => True) .new endingRun = some s ∧
      s.inner.aboutToTerminate = [false] ∧ s.inner.threads = [some false, some true] :=
    ⟨_, rfl, rfl, rfl⟩
  have hinit : machine.init State.new := rfl
  refine ⟨s, hs, (process_cleans_iff (.checkedExec (.init hinit) hs)).mpr ⟨?_, ?_, ?_⟩⟩
  all_goals rw [hq, ht]
  · rintro (_ | i) hi
    · exact ⟨false, rfl⟩
    · simp at hi
  · rintro i t hi
    simp at hi
  · rintro i t hi ho -
    obtain rfl : i = 0 := by simpa using hi
    simpa using ho

/-- With both threads ending, the first one dead, the cleanup runs into the slot it emptied. -/
theorem process_panics : ∃ s : State Bool,
    machine.exec .new [.addThread false, .addThread true, .addAboutToTerminateCurrent false,
      .addAboutToTerminateCurrent true, .setExecStatus false .terminated] = some s ∧
    (∃ m, Loop.Returns (Inner.processRound s.status s.indexInManager) s.inner (.error m)) ∧
    ¬ ∃ m, Loop.Returns (Inner.processRound s.status s.indexInManager) s.inner (.ok m) := by
  refine ⟨_, rfl, ⟨_, 2, rfl⟩, ?_⟩
  rintro ⟨m, hm⟩
  cases hm.unique ⟨2, rfl⟩

end Cleaned

end Cleanup

end VmkitCore.ThreadManager
