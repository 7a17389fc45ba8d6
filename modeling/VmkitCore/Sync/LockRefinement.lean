import VmkitCore.Lib.ReentrantLock
import VmkitCore.Lib.Simulation
import VmkitCore.Sync.MonitorInvariant

/-! # The monitor as a lock

A monitor is locked and unlocked where `rec_count` is written; until the call has written the
other cells as well, the mutex keeps the other threads out. So a run of the monitor, split into
single reads and writes, is a run of a reentrant lock.
-/

namespace VmkitCore.Monitor

/-- The count that a thread at this step has saved and not restored. -/
def Pc.saved : Pc → List ℕ
  | .waitSwapHolder _ rec | .waitSleep _ rec _ | .asleep _ rec _ | .waitRelock _ rec _
  | .waitStoreCount _ rec _ | .unlockHolder _ rec | .unlockMutex _ rec | .relockMutex rec
  | .relockCount rec | .waitHandshakeMutex _ rec | .waitHandshakeAttempt _ rec
  | .waitHandshakeDropRaw _ rec | .waitHandshakeHolder _ rec | .waitHandshakeCount _ rec => [rec]
  | _ => []

/-- The saved counts of a thread, the one of the innermost call first. -/
def Local.saved (l : Local) : List ℕ := l.pc.saved ++ l.frames.flatMap fun f => f.resume.saved

section Saved

variable {l l' : Local} {pc : Pc} {slot g f g' f' : ℕ}

theorem Local.saved_congr (hpc : l'.pc.saved = l.pc.saved) (hf : l'.frames = l.frames) :
    l'.saved = l.saved := by
  rw [saved, saved, hpc, hf]

theorem Local.saved_enter (hpc : pc.saved = l.pc.saved) :
    (⟨.idle, g', f', ⟨pc, g, f⟩ :: l.frames⟩ : Local).saved = l.saved := by
  rw [saved, saved, ← hpc]
  rfl

/-- What is saved is the depth of a monitor that was locked. -/
theorem Pc.Ok.exists_of_saved (hok : pc.Ok slot g f) {n : ℕ} (hn : n ∈ pc.saved) :
    ∃ k, n = k + 1 := by
  apply Nat.exists_eq_add_one.mpr
  cases pc
  all_goals simp only [Pc.saved, List.mem_singleton, List.not_mem_nil] at hn
  all_goals
    subst hn
    simp only [Pc.Ok] at hok
    omega

end Saved

variable {τ : Type*}

/-- What is locked, for how often, and what has been given up. -/
def State.lock (s : State τ) : ReentrantLock τ where
  held := if s.recCount = 0 then none else s.mutex.map fun t => (t, s.recCount - 1)
  givenUp t := (s.threads t).saved.map (· - 1)

/-- The operation that takes effect with a step. -/
def operation (s : State τ) : Label τ → List (ReentrantLock.Label τ)
  | .step t =>
    match (s.threads t).pc with
    | .countGuard => [.lock t]
    | .dropCount _ => [.unlock t]
    | .waitSwapCount _ | .unlockStoreCount .. => [.giveUp t]
    | .waitStoreCount .. | .relockCount _ | .waitHandshakeCount .. => [.takeBack t]
    | _ => []
  | _ => []

section Operations

variable {s : State τ} {t : τ} {l : Local} {m : Option τ} {h n : ℕ}

theorem held_free (hr : s.recCount = 0) : s.lock.held = none := if_pos hr

theorem held_eq_some : s.lock.held = some (t, n) ↔ s.mutex = some t ∧ s.recCount = n + 1 := by
  have hpos : ∀ k, (k ≠ 0 ∧ k - 1 = n) ↔ k = n + 1 := by omega
  simp [State.lock, ← hpos, and_left_comm]

variable [DecidableEq τ]

/-- A step changes what its thread has saved, and maybe who holds. -/
theorem lock_mk {r : ℕ} : (⟨m, h, r, Function.update s.threads t l⟩ : State τ).lock =
    ⟨if r = 0 then none else m.map fun u => (u, r - 1),
      Function.update s.lock.givenUp t (l.saved.map (· - 1))⟩ := by
  rw [State.lock, ReentrantLock.mk.injEq]
  refine ⟨rfl, funext fun u => ?_⟩
  by_cases hu : u = t
  · subst hu
    simp
  · simp [hu, State.lock]

theorem lock_keep {r : ℕ} (hl : l.saved = (s.threads t).saved) :
    (⟨m, h, r, Function.update s.threads t l⟩ : State τ).lock =
      { s.lock with held := if r = 0 then none else m.map fun u => (u, r - 1) } := by
  have hself : Function.update s.lock.givenUp t ((s.threads t).saved.map (· - 1)) =
      s.lock.givenUp := Function.update_eq_self t s.lock.givenUp
  rw [lock_mk, hl, hself]

theorem lock_unchanged (hl : l.saved = (s.threads t).saved) (hm : m = s.mutex ∨ s.recCount = 0) :
    (⟨m, h, s.recCount, Function.update s.threads t l⟩ : State τ).lock = s.lock := by
  rw [lock_keep hl]
  rcases hm with rfl | hr
  · rfl
  · simp [State.lock, hr]

theorem step_lock (hl : l.saved = (s.threads t).saved) (hm : s.mutex = some t) :
    s.lock.step (.lock t) =
      some (⟨s.mutex, h, s.recCount + 1, Function.update s.threads t l⟩ : State τ).lock := by
  rw [ReentrantLock.step_lock, lock_keep hl, hm]
  cases hr : s.recCount with
  | zero => exact .inl ⟨held_free hr, rfl⟩
  | succ n => exact .inr ⟨n, held_eq_some.mpr ⟨hm, hr⟩, rfl⟩

theorem step_unlock (hl : l.saved = (s.threads t).saved) (hm : s.mutex = some t)
    (hr : s.recCount = n + 1) : s.lock.step (.unlock t) =
      some (⟨s.mutex, h, n, Function.update s.threads t l⟩ : State τ).lock := by
  rw [ReentrantLock.step_unlock, lock_keep hl, hm, held_eq_some.mpr ⟨hm, hr⟩]
  cases n with
  | zero => exact .inl ⟨rfl, rfl⟩
  | succ n => exact .inr ⟨n, rfl, rfl⟩

theorem step_giveUp (hl : l.saved = (n + 1) :: (s.threads t).saved) (hm : s.mutex = some t)
    (hr : s.recCount = n + 1) : s.lock.step (.giveUp t) =
      some (⟨s.mutex, h, 0, Function.update s.threads t l⟩ : State τ).lock := by
  rw [ReentrantLock.step_giveUp, lock_mk, hl]
  exact ⟨n, held_eq_some.mpr ⟨hm, hr⟩, rfl⟩

theorem step_takeBack (hl : (s.threads t).saved = (n + 1) :: l.saved) (hm : s.mutex = some t)
    (hr : s.recCount = 0) : s.lock.step (.takeBack t) =
      some (⟨s.mutex, h, n + 1, Function.update s.threads t l⟩ : State τ).lock := by
  rw [ReentrantLock.step_takeBack, lock_mk, hm]
  exact ⟨n, l.saved.map (· - 1), held_free hr, congrArg (List.map (· - 1)) hl, rfl⟩

end Operations

section Steps

variable {ids : ThreadIds τ} [DecidableEq τ] {s s' : State τ} {t : τ}

theorem lock_acquire (h : Inv ids s) {pc : Pc} (hpc : pc.saved = (s.threads t).pc.saved)
    (hs : s.acquire t pc = some s') : s'.lock = s.lock := by
  obtain ⟨hm, rfl⟩ := State.acquire_eq_some.mp hs
  refine lock_unchanged ?_ (.inr (h.free hm).2)
  exact Local.saved_congr hpc rfl

/-- The start of a method, and the end of an action, have no effect. -/
theorem lock_startOp {op : Op} (hop : op.Orderly) (hs : startOp ids s t op = some s') :
    s'.lock = s.lock := by
  have hpc : (s.threads t).pc = .idle := by
    by_contra hpc
    simp [startOp, hpc] at hs
  have hgoto : ∀ pc : Pc, pc.saved = [] → (s.goto t pc).lock = s.lock := fun pc hsaved =>
    lock_unchanged (Local.saved_congr (by rw [hpc]; exact hsaved) rfl) (.inl rfl)
  unfold startOp at hs
  simp only [hpc, ne_eq, not_true_eq_false, if_false] at hs
  cases op with
  | lockNoHandshake =>
    cases hs
    exact hgoto _ (by split <;> rfl)
  | lockWithHandshake =>
    cases hs
    split
    · exact lock_unchanged (Local.saved_enter (by rw [hpc]; rfl)) (.inl rfl)
    · exact hgoto _ rfl
  | drop | waitNoHandshake | unlockedNoHandshake =>
    obtain ⟨-, hs⟩ := Option.ite_none_right_eq_some.mp hs
    cases hs
    exact hgoto _ rfl
  | waitWithHandshake =>
    obtain ⟨-, hs⟩ := Option.ite_none_right_eq_some.mp hs
    cases hs
    exact lock_unchanged (Local.saved_enter (by rw [hpc]; rfl)) (.inl rfl)
  | endFrame =>
    cases hf : (s.threads t).frames with
    | nil => simp [hf] at hs
    | cons f fs =>
      simp only [hf] at hs
      obtain ⟨-, hs⟩ := Option.ite_none_right_eq_some.mp hs
      cases hs
      refine lock_unchanged ?_ (.inl rfl)
      rw [Local.saved, Local.saved, hf, hpc]
      rfl
  | unwind | capture | giveBack => cases hop

theorem exec_threadStep (h : Inv ids s) (hs : threadStep ids s t = some s') :
    (ReentrantLock.machine τ).exec s.lock (operation s (.step t)) = some s'.lock := by
  have hok := (h.locals t).pc
  have hmutex : (s.threads t).Owns → s.mutex = some t := (h.mutex t).mpr
  have hcell := h.recCount t
  unfold threadStep at hs
  unfold operation
  unfold Local.Owns at hmutex
  cases hpc : (s.threads t).pc
  all_goals
    simp only [hpc] at hs hok hmutex hcell ⊢
    try cases hs
  case lockMutex | handshakeMutex | waitRelock | relockMutex | waitHandshakeMutex =>
    exact congrArg some (lock_acquire h (by rw [hpc]; rfl) hs).symm
  case countGuard =>
    rw [Machine.exec_singleton]
    exact step_lock (Local.saved_congr (by rw [hpc]; rfl) rfl) (hmutex trivial)
  case dropCount c =>
    obtain ⟨n, hn⟩ : ∃ n, s.recCount = n + 1 := by
      rw [hcell (hmutex trivial)]
      cases c with
      | direct => exact Nat.exists_eq_add_one.mpr (Nat.zero_lt_of_lt hok)
      | handshake d =>
        obtain ⟨hg, hd, -⟩ := hok
        exact Nat.exists_eq_add_one.mpr (by rw [Pc.recCell, hg]; exact hd)
    rw [Machine.exec_singleton, hn]
    exact step_unlock (Local.saved_congr (by rw [hpc]; split <;> rfl) rfl) (hmutex trivial) hn
  case waitSwapCount c =>
    have hrec : s.recCount = (s.threads t).guards := hcell (hmutex trivial)
    obtain ⟨n, hn⟩ := Nat.exists_eq_add_one.mpr (Nat.zero_lt_of_lt hok.1)
    rw [Machine.exec_singleton]
    refine step_giveUp ?_ (hmutex trivial) (hrec.trans hn)
    rw [Local.saved, Local.saved, hpc, hrec, hn]
    rfl
  case unlockStoreCount c rec =>
    obtain ⟨hlt, -, rfl⟩ := hok
    have hrec : s.recCount = (s.threads t).guards := hcell (hmutex trivial)
    obtain ⟨n, hn⟩ := Nat.exists_eq_add_one.mpr (Nat.zero_lt_of_lt hlt)
    rw [Machine.exec_singleton]
    refine step_giveUp ?_ (hmutex trivial) (hrec.trans hn)
    rw [Local.saved, Local.saved, hpc, hn]
    rfl
  case waitStoreCount | relockCount | waitHandshakeCount =>
    obtain ⟨n, rfl⟩ := hok.exists_of_saved (List.mem_singleton_self _)
    rw [Machine.exec_singleton]
    refine step_takeBack ?_ (hmutex trivial) (hcell (hmutex trivial))
    rw [Local.saved, hpc]
    rfl
  case dropRaw | waitHandshakeDropRaw =>
    refine congrArg some (lock_unchanged ?_ (.inr (hcell (hmutex trivial)))).symm
    exact Local.saved_enter (by rw [hpc]; rfl)
  case unlockMutex c rec =>
    refine congrArg some (lock_unchanged ?_ (.inr (hcell (hmutex trivial)))).symm
    exact Local.saved_enter (by rw [hpc]; split <;> rfl)
  case dropMutex | waitSleep =>
    refine congrArg some (lock_unchanged ?_ (.inr (hcell (hmutex trivial)))).symm
    exact Local.saved_congr (by rw [hpc]; rfl) rfl
  case waitStoreHolder c holder =>
    refine congrArg some (lock_unchanged ?_ (.inl rfl)).symm
    exact Local.saved_congr (by rw [hpc]; split <;> rfl) rfl
  all_goals
    refine congrArg some (lock_unchanged ?_ (.inl rfl)).symm
    exact Local.saved_congr (by rw [hpc]; rfl) rfl

/-- What a step of the monitor does for the lock is the operation that takes effect with it. -/
theorem Inv.exec_operation (h : Inv ids s) {a : Label τ} (hc : Orderly s a)
    (hs : Monitor.step ids s a = some s') :
    (ReentrantLock.machine τ).exec s.lock (operation s a) = some s'.lock := by
  cases a with
  | start u op => exact congrArg some (lock_startOp hc hs).symm
  | step u => exact exec_threadStep h hs
  | attempt u left | wake u =>
    unfold Monitor.step at hs
    dsimp only at hs
    split at hs <;> cases hs
    all_goals
      next hpc =>
      refine congrArg some (lock_unchanged ?_ (.inl rfl)).symm
      exact Local.saved_congr (by rw [hpc]; first | rfl | (split <;> rfl)) rfl

theorem simulates : (ReentrantLock.machine τ).Simulates (machine ids) Orderly operation
    fun s lock => Inv ids s ∧ s.lock = lock where
  step := by
    rintro s _ a s' ⟨h, rfl⟩ hc hs
    exact ⟨s'.lock, h.exec_operation hc hs, h.step hc hs, rfl⟩

/-- Between its calls, a thread holds the levels that it has guards for. -/
theorem Inv.levels_idle (h : Inv ids s) (hpc : (s.threads t).pc = .idle) :
    s.lock.levels t = (s.threads t).guards := by
  have hown : s.mutex = some t ↔ 0 < (s.threads t).guards := by
    rw [h.mutex, Local.Owns, hpc]
    rfl
  cases hg : (s.threads t).guards with
  | zero =>
    have hm : s.mutex ≠ some t := by simp [hown, hg]
    unfold ReentrantLock.levels
    split
    · rfl
    · next u n hh =>
      apply if_neg
      rintro rfl
      exact hm (held_eq_some.mp hh).1
  | succ n =>
    have hm : s.mutex = some t := hown.mpr (by omega)
    have hr : s.recCount = n + 1 := by
      rw [h.recCount t hm, hpc]
      exact hg
    rw [ReentrantLock.levels, held_eq_some.mpr ⟨hm, hr⟩]
    exact if_pos rfl

end Steps

/--
Until a `wait_with_handshake` returns, and while actions of unlocked calls return and keep to their
own guards, the monitor is a reentrant lock: its operations take effect one at a time, each with a
step of the call that makes it. A thread has locked the monitor as often as it has unlocked it, but
for its levels, and between its calls it has guards for these.
-/
theorem monitor_refines_lock [DecidableEq τ] {ids : ThreadIds τ} {s : State τ}
    {l : List (Label τ)} (hl : (machine ids).Meets Orderly State.new l)
    (hs : (machine ids).exec State.new l = some s) :
    let operations := (machine ids).answers operation State.new l
    (ReentrantLock.machine τ).exec .new operations = some s.lock ∧
    ∀ t, s.lock.total t + operations.count (.unlock t) = operations.count (.lock t) ∧
      ((s.threads t).pc = .idle → s.lock.levels t = (s.threads t).guards) := by
  obtain ⟨_, hexec, h, rfl⟩ := simulates.exec ⟨Inv.new ids, rfl⟩ hl hs
  have hnew : (State.new : State τ).lock = .new := rfl
  rw [hnew] at hexec
  refine ⟨hexec, fun t => ⟨?_, h.levels_idle⟩⟩
  have htotal := ReentrantLock.total_exec hexec t
  simpa [ReentrantLock.total, ReentrantLock.levels, ReentrantLock.new] using htotal

/-- One thread waits while the other one locks the monitor twice. -/
def overtakenRun : List (Label Bool) :=
  [.start true .lockNoHandshake, .step true, .step true, .start false .lockNoHandshake, .step true,
    .start true .waitNoHandshake, .step true, .step true, .step true, .step false, .wake true,
    .step false, .step false, .start false .lockNoHandshake, .step false, .start false .drop,
    .step false, .start false .drop, .step false, .step false, .step false, .step true, .step true,
    .step true]

theorem monitor_refines_lock_overtaken : ∃ s,
    (machine .pair).exec State.new overtakenRun = some s ∧
    (ReentrantLock.machine Bool).exec .new [.lock true, .giveUp true, .lock false, .lock false,
      .unlock false, .unlock false, .takeBack true] = some s.lock ∧
    s.lock.total true = 1 ∧ s.lock.levels true = 1 := by
  have hrun : (machine .pair).checkedExec Orderly State.new overtakenRun = some _ := rfl
  obtain ⟨hexec, h⟩ := monitor_refines_lock (Machine.meets_of_checkedExec hrun) rfl
  exact ⟨_, rfl, hexec, (h true).1, (h true).2 rfl⟩

end VmkitCore.Monitor
