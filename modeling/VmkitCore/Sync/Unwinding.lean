import VmkitCore.Sync.WaitHandshake

/-! # Unwinding out of an unlocked action

An unlocked action may unwind. Its guard was released before the action, and is dropped as if it
had been locked again.
-/

namespace VmkitCore.Monitor

variable {τ : Type*} [DecidableEq τ]

/-- The action unwinds, and `unlocked_no_handshake` leaves the rest to the guard's destructor. -/
def unwind (ids : ThreadIds τ) (s : State τ) (t : τ) : Option (State τ) := do
  let s ← startOp ids s t .unwind
  (machine ids).exec s (s.dropSteps t)

/-- The cells tell later users which thread is inside, and with how many guards. -/
structure Agrees (ids : ThreadIds τ) (s : State τ) : Prop where
  mutex : ∀ t, s.mutex = some t ↔ (s.threads t).Owns
  holder : ∀ t, s.mutex = some t → s.holder = (s.threads t).pc.holderCell (ids.slot t)
  recCount : ∀ t, s.mutex = some t → s.recCount = (s.threads t).pc.recCell (s.threads t).guards
  free : s.mutex = none → s.holder = 0 ∧ s.recCount = 0

/-- A step with a `fetch_add` that wraps around. -/
def wrappingMachine (ids : ThreadIds τ) : Machine (State τ) (Label τ) where
  init s := s = State.new
  step s a := (step ids s a).map fun s' => { s' with recCount := s'.recCount % 2 ^ 64 }

/-- A thread locks the monitor and drops its guard. -/
def lockAndDrop (t : τ) : List (Label τ) :=
  [.start t .lockNoHandshake, .step t, .step t, .step t, .start t .drop, .step t]

variable {ids : ThreadIds τ} {s s' : State τ} {t u : τ} {rec g f : ℕ} {fs : List Frame}

theorem fetchSub_ne (n : ℕ) : fetchSub n ≠ n := by
  unfold fetchSub
  split_ifs <;> omega

theorem unwind_eq (hframes : (s.threads t).frames = ⟨.relockMutex rec, g, f⟩ :: fs)
    (hpc : (s.threads t).pc = .idle) (hg : (s.threads t).guards = (s.threads t).floor)
    (hfg : f < g) :
    unwind ids s t = some ((s.setLocal t ⟨.idle, g, f, fs⟩).dropGuard t).1 := by
  have hstart : startOp ids s t .unwind = some (s.setLocal t ⟨.idle, g, f, fs⟩) := by
    simp [startOp, hpc, hframes, hg]
  rw [unwind, hstart]
  exact exec_dropSteps (by simp [State.setLocal]) (by simpa [State.setLocal] using hfg)

/-- Unless it takes the count from one to zero, the destructor only changes the count. -/
theorem unwind_eq_of_ne_one (hframes : (s.threads t).frames = ⟨.relockMutex rec, g, f⟩ :: fs)
    (hpc : (s.threads t).pc = .idle) (hg : (s.threads t).guards = (s.threads t).floor)
    (hfg : f < g) (hr : s.recCount ≠ 1) :
    unwind ids s t = some { s with
      recCount := fetchSub s.recCount
      threads := Function.update s.threads t ⟨.idle, g - 1, f, fs⟩ } := by
  simp [unwind_eq hframes hpc hg hfg, State.dropGuard, State.setLocal, hr]

theorem unwind_eq_of_eq_one (hframes : (s.threads t).frames = ⟨.relockMutex rec, g, f⟩ :: fs)
    (hpc : (s.threads t).pc = .idle) (hg : (s.threads t).guards = (s.threads t).floor)
    (hfg : f < g) (hr : s.recCount = 1) :
    unwind ids s t = some ⟨none, 0, 0, Function.update s.threads t ⟨.idle, g - 1, f, fs⟩⟩ := by
  simp [unwind_eq hframes hpc hg hfg, State.dropGuard, State.setLocal, hr, fetchSub]

omit [DecidableEq τ] in
/-- Inside an unlocked action a thread does not own the monitor. -/
theorem Inv.not_owns_unlocked (h : Inv ids s)
    (hframes : (s.threads t).frames = ⟨.relockMutex rec, g, f⟩ :: fs)
    (hpc : (s.threads t).pc = .idle) (hg : (s.threads t).guards = (s.threads t).floor) :
    ¬ (s.threads t).Owns ∧ f < g := by
  have hframesOk := (h.locals t).frames
  rw [hframes] at hframesOk
  obtain ⟨hleft, hok, -⟩ := hframesOk
  refine ⟨?_, hok.1⟩
  rcases hleft with ⟨hfloor, -⟩ | ⟨-, hresume⟩
  · rw [Local.Owns, hpc, hg, hfloor]
    exact Nat.lt_irrefl 0
  · cases hresume

/-- The destructor drops a guard that the cells do not count. -/
theorem not_agrees_unwind (h : Inv ids s)
    (hframes : (s.threads t).frames = ⟨.relockMutex rec, g, f⟩ :: fs)
    (hpc : (s.threads t).pc = .idle) (hg : (s.threads t).guards = (s.threads t).floor)
    (hs : unwind ids s t = some s') : ¬ Agrees ids s' := by
  obtain ⟨hout, hfg⟩ := h.not_owns_unlocked hframes hpc hg
  intro hagrees
  cases hm : s.mutex with
  | none =>
    obtain ⟨-, hr⟩ := h.free hm
    rw [unwind_eq_of_ne_one hframes hpc hg hfg (by omega)] at hs
    cases hs
    have hfree : fetchSub s.recCount = 0 := (hagrees.free hm).2
    rw [hr] at hfree
    exact absurd hfree (by decide)
  | some u =>
    have hut : u ≠ t := fun hut => hout ((h.mutex t).mp (hut ▸ hm))
    by_cases hr : s.recCount = 1
    · -- it unlocks the mutex of another thread
      rw [unwind_eq_of_eq_one hframes hpc hg hfg hr] at hs
      cases hs
      have howns := (h.mutex u).mp hm
      rw [← Function.update_of_ne hut ⟨.idle, g - 1, f, fs⟩ s.threads] at howns
      cases (hagrees.mutex u).mpr howns
    · rw [unwind_eq_of_ne_one hframes hpc hg hfg hr] at hs
      cases hs
      have hcount := hagrees.recCount u hm
      dsimp only at hcount
      rw [Function.update_of_ne hut, ← h.recCount u hm] at hcount
      exact fetchSub_ne _ hcount

/-- With a count that wrapped around below zero, the drop after the next lock does not unlock. -/
theorem lockAndDrop_eq (hm : s.mutex = none) (hh : s.holder = 0) (hr : s.recCount = 2 ^ 64 - 1)
    (hpc : (s.threads u).pc = .idle) (hg : (s.threads u).guards = 0)
    (hf : (s.threads u).floor = 0) : (wrappingMachine ids).exec s (lockAndDrop u) =
      some { s with mutex := some u, holder := ids.slot u } := by
  have hslot := (ids.slot_ne_zero u).symm
  have hself : Function.update s.threads u ⟨.idle, 0, 0, (s.threads u).frames⟩ = s.threads := by
    rw [Function.update_eq_self_iff]
    cases hl : s.threads u
    simp_all
  simp [lockAndDrop, Machine.exec, wrappingMachine, step, startOp, threadStep, State.acquire,
    State.goto, State.setLocal, hm, hh, hr, hpc, hg, hf, hslot, fetchSub, hself]

/--
The destructor after unwinding leaves the monitor in disorder, whoever had it in the meantime.
If nobody had it, whoever locks it next has it for good.
-/
theorem unwinding_breaks_monitor (h : (machine ids).ReachableUnder Orderly s)
    (hframes : (s.threads t).frames = ⟨.relockMutex rec, g, f⟩ :: fs)
    (hpc : (s.threads t).pc = .idle) (hg : (s.threads t).guards = (s.threads t).floor) :
    ∃ s', unwind ids s t = some s' ∧ (s'.threads t).guards = g - 1 ∧ ¬ Agrees ids s' ∧
      (s.mutex = none → ∀ u, (s'.threads u).pc = .idle → (s'.threads u).guards = 0 →
        ∃ s'', (wrappingMachine ids).exec s' (lockAndDrop u) = some s'' ∧
          s''.mutex = some u ∧ (s''.threads u).guards = 0) := by
  have hinv : Inv ids s := inv_of_reachable h
  obtain ⟨hout, hlt⟩ := hinv.not_owns_unlocked hframes hpc hg
  have hfloor : ∀ u, (Function.update s.threads t ⟨.idle, g - 1, f, fs⟩ u).floor ≤
      (Function.update s.threads t ⟨.idle, g - 1, f, fs⟩ u).guards := by
    intro u
    by_cases hu : u = t
    · subst hu
      rw [Function.update_self]
      exact Nat.le_sub_one_of_lt hlt
    · rw [Function.update_of_ne hu]
      exact (hinv.locals u).floor
  by_cases hr : s.recCount = 1
  · have hs : unwind ids s t = some _ := unwind_eq_of_eq_one hframes hpc hg hlt hr
    refine ⟨_, hs, by simp, not_agrees_unwind hinv hframes hpc hg hs, fun hm => ?_⟩
    exact absurd ((hinv.free hm).2.symm.trans hr) (by decide)
  · have hs : unwind ids s t = some _ := unwind_eq_of_ne_one hframes hpc hg hlt hr
    refine ⟨_, hs, by simp, not_agrees_unwind hinv hframes hpc hg hs, fun hm u hupc hug => ?_⟩
    obtain ⟨hholder, hzero⟩ := hinv.free hm
    have hufloor := Nat.le_zero.mp (hug ▸ hfloor u)
    exact ⟨_, lockAndDrop_eq hm hholder (by rw [hzero]; rfl) hupc hug hufloor, rfl, hug⟩

/-- A thread locks the monitor and begins an unlocked action. -/
def unlockedRun : List (Label Bool) :=
  [.start true .lockNoHandshake, .step true, .step true, .step true,
    .start true .unlockedNoHandshake, .step true, .step true, .step true, .step true]

theorem unwinding_breaks_monitor_once : ∃ s s',
    (machine .pair).checkedExec Orderly State.new unlockedRun = some s ∧
    unwind .pair s true = some s' ∧ ¬ Agrees .pair s' ∧
    ∃ s'', (wrappingMachine .pair).exec s' (lockAndDrop false) = some s'' ∧
      s''.mutex = some false ∧ (s''.threads false).guards = 0 := by
  have hrun : (machine .pair).checkedExec Orderly State.new unlockedRun = some _ := rfl
  have hbreaks : ∃ s', unwind .pair _ true = some s' ∧ _ :=
    unwinding_breaks_monitor (.checkedExec (.init rfl) hrun) rfl rfl rfl
  obtain ⟨s', hs, -, hnot, hlock⟩ := hbreaks
  cases hs
  exact ⟨_, _, hrun, rfl, hnot, hlock rfl false rfl rfl⟩

/-- One guard, whose action unwinds, is enough. -/
theorem monitor_inconsistent_after_unwinding : ¬ ∀ (s s' : State Bool) (t : Bool),
    (machine .pair).ReachableUnder Orderly s → unwind .pair s t = some s' →
    Agrees .pair s' := by
  intro h
  have hrun : (machine .pair).checkedExec Orderly State.new unlockedRun = some _ := rfl
  have hagrees := h _ _ true (.checkedExec (.init rfl) hrun) rfl
  exact absurd (hagrees.free rfl).2 (by decide)

end VmkitCore.Monitor
