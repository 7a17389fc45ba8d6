import Mathlib.Logic.Function.Iterate
import VmkitCore.Sync.MonitorInvariant

/-! # Returning from `wait_with_handshake`

The call relocks the monitor at the depth it was called at and makes a new guard.
The guard it consumed is dropped after that, so one count too many is gone.
-/

namespace VmkitCore.Monitor

variable {τ : Type*} [DecidableEq τ] {ids : ThreadIds τ} {s s' : State τ} {t : τ} {d n : ℕ}

/-- A guard's destructor, run in one go, and how often it unlocks the mutex. -/
def State.dropGuard (s : State τ) (t : τ) : State τ × ℕ :=
  let l := s.threads t
  let s' := { s with recCount := fetchSub s.recCount }.setLocal t
    { l with guards := l.guards - 1 }
  if s.recCount = 1 then ({ s' with holder := 0, mutex := none }, 1) else (s', 0)

def State.dropGuards (t : τ) : ℕ → State τ → State τ × ℕ
  | 0, s => (s, 0)
  | n + 1, s =>
    let (s', k) := s.dropGuard t
    let (s'', m) := s'.dropGuards t n
    (s'', k + m)

/-- What the caller expects of `wait_with_handshake` at depth `r`. -/
structure Restored (ids : ThreadIds τ) (s : State τ) (t : τ) (r : ℕ) : Prop where
  mutex : s.mutex = some t
  holder : s.holder = ids.slot t
  recCount : s.recCount = r
  unlocks : (s.dropGuards t r).2 = 1
  drained : (s.dropGuards t r).1.recCount = 0

theorem dropGuard_recCount : (s.dropGuard t).1.recCount = fetchSub s.recCount := by
  unfold State.dropGuard
  dsimp only
  split <;> rfl

theorem dropGuards_recCount : (s.dropGuards t n).1.recCount = fetchSub^[n] s.recCount := by
  induction n generalizing s with
  | zero => rfl
  | succ n ih => rw [State.dropGuards, Function.iterate_succ_apply, ← dropGuard_recCount, ← ih]

theorem iterate_fetchSub (n k : ℕ) : fetchSub^[n] (n + k) = k := by
  induction n with
  | zero => simp
  | succ n ih =>
    rw [Function.iterate_succ_apply, fetchSub, if_neg (by omega)]
    simpa [Nat.add_right_comm n 1 k] using ih

/-- The steps of a guard's destructor, with nothing in between. -/
def State.dropSteps (s : State τ) (t : τ) : List (Label τ) :=
  .start t .drop :: .step t :: if s.recCount = 1 then [.step t, .step t] else []

/-- The destructor in one go is the run of its single steps. -/
theorem exec_dropSteps (hpc : (s.threads t).pc = .idle)
    (hg : (s.threads t).floor < (s.threads t).guards) :
    (machine ids).exec s (s.dropSteps t) = some (s.dropGuard t).1 := by
  by_cases h1 : s.recCount = 1
  · simp [Machine.exec, machine, step, startOp, threadStep, hpc, hg, h1, State.dropGuard,
      State.dropSteps, State.goto, State.setLocal]
  · simp [Machine.exec, machine, step, startOp, threadStep, hpc, hg, h1, State.dropGuard,
      State.dropSteps, State.goto, State.setLocal]

omit [DecidableEq τ] in
theorem returning_eq_some : returning s t = some d ↔
    (s.threads t).pc = .dropCount (.handshake d) ∧ s.recCount ≠ 1 ∨
      (s.threads t).pc = .dropMutex (.handshake d) := by
  unfold returning
  split <;> simp_all [and_comm]

/-- The step the call returns with, at every depth and after every wait. -/
theorem Inv.returns (h : Inv ids s) (hr : returning s t = some d)
    (hs : Monitor.step ids s (.step t) = some s') :
    0 < d ∧ (s'.threads t).guards = d ∧ s'.recCount = d - 1 ∧
      (s'.mutex = some t ∧ s'.holder = ids.slot t ∧ d ≠ 1 ∨
        s'.mutex = none ∧ s'.holder = 0 ∧ d = 1) := by
  have hok := (h.locals t).pc
  rcases returning_eq_some.mp hr with ⟨hpc, h1⟩ | hpc
  · have hm := (h.mutex t).mpr (by rw [Local.Owns, hpc]; trivial)
    have hrec := h.recCount t hm
    have hholder := h.holder t hm
    simp only [hpc, Pc.Ok, Pc.recCell, Pc.holderCell] at hok hrec hholder
    simp only [Monitor.step, Monitor.threadStep, hpc, Option.some.injEq] at hs
    subst hs
    obtain ⟨hg, hd, -⟩ := hok
    refine ⟨hd, by simp [State.setLocal, hg], ?_, .inl ⟨hm, hholder, by omega⟩⟩
    show fetchSub s.recCount = d - 1
    rw [fetchSub, if_neg (by omega), hrec, hg, Nat.add_sub_cancel]
  · have hm := (h.mutex t).mpr (by rw [Local.Owns, hpc]; trivial)
    have hrec := h.recCount t hm
    have hholder := h.holder t hm
    simp only [hpc, Pc.Ok, Pc.recCell, Pc.holderCell] at hok hrec hholder
    simp only [Monitor.step, Monitor.threadStep, hpc, Option.some.injEq] at hs
    subst hs
    obtain ⟨hg, rfl⟩ := hok
    exact ⟨Nat.one_pos, by simp [State.goto, State.setLocal, hg], hrec, .inr ⟨rfl, hholder, rfl⟩⟩

/--
Whenever `wait_with_handshake` returns, at any depth and after any run, one live guard is not
counted: at depth one the mutex is free although the caller has its new guard, and dropping all
live guards makes the count wrap around.
-/
theorem waitWithHandshake_not_restored (h : (machine ids).ReachableUnder Orderly s)
    (hr : returning s t = some d) (hs : step ids s (.step t) = some s') :
    (s'.threads t).guards = d ∧ s'.recCount = d - 1 ∧ (s'.mutex = none ↔ d = 1) ∧
      (s'.dropGuards t d).1.recCount = 2 ^ 64 - 1 ∧ ¬ Restored ids s' t d := by
  obtain ⟨hd, hg, hrec, hcells⟩ := (inv_of_reachable h).returns hr hs
  have hwrap : (s'.dropGuards t d).1.recCount = 2 ^ 64 - 1 := by
    obtain ⟨k, rfl⟩ : ∃ k, d = k + 1 := ⟨d - 1, by omega⟩
    rw [dropGuards_recCount, hrec, Function.iterate_succ_apply', Nat.add_sub_cancel,
      show fetchSub^[k] k = 0 from iterate_fetchSub k 0]
    rfl
  refine ⟨hg, hrec, ?_, hwrap, fun hres => ?_⟩
  · rcases hcells with ⟨hm, -, hne⟩ | ⟨hm, -, he⟩
    · simp [hm, hne]
    · simp [hm, he]
  · have := hres.recCount
    omega

/-- One thread locks, waits, is woken, and is about to get its guard back at depth one. -/
def waitRun : List (Label Bool) :=
  [.start true .lockNoHandshake, .step true, .step true, .step true,
    .start true .waitWithHandshake, .start true .endFrame, .step true, .step true, .step true,
    .wake true, .step true, .step true, .step true, .step true, .step true, .step true, .step true,
    .start true .endFrame, .step true, .attempt true true, .step true, .step true, .step true,
    .step true]

theorem waitWithHandshake_not_restored_depth_one : ∃ s s',
    (machine .pair).checkedExec Orderly State.new waitRun = some s ∧
    returning s true = some 1 ∧ step .pair s (.step true) = some s' ∧
    ¬ Restored .pair s' true 1 := by
  refine ⟨_, _, rfl, rfl, rfl, ?_⟩
  exact (waitWithHandshake_not_restored (.checkedExec (.init rfl) (l := waitRun) rfl) rfl
    rfl).2.2.2.2

theorem waitWithHandshake_unlocks : ∃ s s', (machine .pair).exec State.new waitRun = some s ∧
    returning s true = some 1 ∧ step .pair s (.step true) = some s' ∧ (s'.threads true).guards = 1 ∧
    s'.mutex = none ∧ s'.holder = 0 ∧ ¬ Restored .pair s' true 1 :=
  ⟨_, _, rfl, rfl, rfl, rfl, rfl, rfl, fun h => nomatch h.mutex⟩

end VmkitCore.Monitor
