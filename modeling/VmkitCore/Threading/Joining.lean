import VmkitCore.Threading.ManualRegistration
import VmkitCore.Threading.ThreadCleanup

/-! # Joining all threads

`join_all` waits until the thread table is empty. A thread that has ended stays in its slot,
as no thread ever gets the state `terminated`, and the table never becomes shorter.
-/

namespace VmkitCore.ThreadManager

variable {τ ι : Type*}

/-- The loop condition of `join_all` is false, and `threads()` yields no thread. -/
def Inner.Joined (m : Inner τ) : Prop := ¬ 0 < m.threads.length ∧ m.threads.filterMap id = []

/-- Every thread that has been started has completed `terminate`. -/
def State.AllTerminated (s : State τ ι) : Prop :=
  ∀ t, s.phase t ≠ .unstarted → s.phase t = .running ∧ (s.threads t).pc = .terminated

/-- A virtual machine with or without a main thread. -/
def vmMachine [DecidableEq τ] [DecidableEq ι] (cfg : Config τ ι) :
    Machine (State τ ι) (VmLabel τ ι) where
  init s := s = State.new ∨ ∃ main, (mainMachine cfg main).init s
  step := (manualMachine cfg).step

namespace Joining

theorem joined_iff {m : Inner τ} : m.Joined ↔ m.threads = [] := by
  constructor
  · exact fun h => List.length_eq_zero_iff.mp (Nat.eq_zero_of_not_pos h.1)
  · intro h
    simp [Inner.Joined, h]

section Process

variable {m : Inner τ} {status : τ → ThreadState} {index : τ → ℕ}

/-- While no thread is terminated, a cleanup that returns leaves the table as it is. -/
theorem returns_self (h : ∀ t, status t ≠ .terminated) {m' : Inner τ}
    (hr : Loop.Returns (Inner.processRound status index) m (.ok m')) : m' = m := by
  rcases Inner.processRound_cases status index m with he | ⟨he, -⟩ | ⟨k, t, -, -, -, ht, -⟩
  · cases (Loop.returns_of_inr he).mp hr
  · exact Except.ok.inj ((Loop.returns_of_inr he).mp hr)
  · exact absurd ht (h t)

theorem returns_new : Loop.Returns (Inner.processRound status index) .new (.ok .new) :=
  ⟨1, rfl⟩

end Process

variable [DecidableEq τ] [DecidableEq ι] {cfg : Config τ ι} {s s' : State τ ι} {t : τ}
  {l : VmLabel τ ι}

/-- What holds in every run: nothing is removed from the table. -/
structure Grown (s : State τ ι) : Prop where
  free : s.inner.freeThreadIndices = []
  live : ∀ t, Live (s.phase t) (s.threads t)
  listed : ∀ t, (s.phase t).isRegistered = true → some t ∈ s.inner.threads
  fresh : (∀ t, s.phase t = .unstarted) → s.inner = .new

theorem startup_started (hs : startup cfg s t = some s') : s'.phase t ≠ .unstarted := by
  cases startup_cases hs with
  | start | park | enterNative => simp
  | enter _ _ hp => simpa using hp
  | call _ hp => simpa using hp
  | target hne => simpa using hne
  | again hp => simp [hp]
  | @add scope => cases scope <;> simp

omit [DecidableEq ι] in
theorem onThread_inner {o : Option (Blocking.State ι Unit)} {pc : CollectorPc τ}
    (hs : s.onThread t o pc = some s') : s'.inner = s.inner := by
  obtain ⟨c, -, rfl⟩ := Option.map_eq_some_iff.mp hs
  rfl

/-- The collector changes the table only by a round of `process_about_to_terminate`. -/
theorem collectorStep_inner (hs : collectorStep cfg s = some s') : s'.inner = s.inner ∨
    ∃ again,
      s.inner.processAboutToTerminate s.status s.indexInManager = some (s'.inner, again) := by
  unfold collectorStep at hs
  cases hpc : s.collector
  all_goals simp only [hpc] at hs
  case retain todo kept =>
    rcases todo with _ | ⟨t, todo⟩
    · cases kept <;> cases hs <;> exact .inl rfl
    · exact .inl (onThread_inner hs)
  case sync todo | unblock todo =>
    rcases todo with _ | ⟨t, todo⟩
    · cases hs
      exact .inl rfl
    · exact .inl (onThread_inner hs)
  case retainTest t todo kept =>
    split at hs
    · cases hs
      exact .inl rfl
    · exact .inl (onThread_inner hs)
  case process =>
    split at hs
    · cases hs
    obtain ⟨⟨m, again⟩, hm, rfl⟩ := Option.map_eq_some_iff.mp hs
    exact .inr ⟨again, hm⟩
  case collect rest acc =>
    rcases rest with _ | ⟨_ | t, rest⟩ <;> cases hs <;> exact .inl rfl
  case idle | returned =>
    cases hs
    exact .inl rfl
  case scan | collectLock | unblockScan =>
    split at hs
    · cases hs
    · cases hs
      exact .inl rfl
  case retainBlock | syncBlock | unblockRun =>
    rcases State.runMethod_eq_some.mp hs with ⟨-, rfl⟩ | ⟨-, hs⟩
    · exact .inl rfl
    · exact .inl (onThread_inner hs)
  all_goals exact .inl (onThread_inner hs)

namespace Grown

/-- While nothing has been started, nothing is put into the table. -/
theorem fresh_step (h : Grown s) (hs : (vmMachine cfg).step s l = some s')
    (hu : ∀ t, s'.phase t = .unstarted) : s'.inner = .new := by
  cases l with
  | registerMutatorManual t =>
    obtain ⟨-, -, rfl⟩ := State.registerMutatorManual_result hs
    simpa using hu t
  | manager l =>
    change ThreadManager.step cfg s l = some s' at hs
    cases l with
    | startup t => exact absurd (hu t) (startup_started hs)
    | call t op =>
      obtain ⟨hp, c, -, rfl⟩ := call_eq_some.mp hs
      exact absurd (hp.symm.trans (hu t)) nofun
    | step t =>
      have hp := hu t
      rw [(Moves.threadStep hs).phase, (threadStep_threads hs).1] at hp
      cases hp
    | collector =>
      have hphase := (Moves.collectorStep hs).phase
      have hnew := h.fresh (hphase ▸ hu)
      rcases collectorStep_inner hs with he | ⟨again, hm⟩
      · exact he.trans hnew
      · rw [hnew] at hm
        exact (congrArg Prod.fst (Option.some.inj hm)).symm

theorem step (h : Grown s) (hs : (vmMachine cfg).step s l = some s') : Grown s' := by
  obtain ⟨hfree, hlive, hlisted⟩ := manualMachine_table h.free h.live h.listed hs
  exact ⟨hfree, hlive, hlisted, h.fresh_step hs⟩

end Grown

theorem grown_of_reachable (h : (vmMachine cfg).Reachable s) : Grown s := by
  refine h.invariant (I := Grown) ?_ fun s l s' hi _ hs => hi.step hs
  rintro s (rfl | ⟨main, hs⟩)
  · exact ⟨rfl, fun _ => ⟨nofun, fun _ => rfl⟩, fun _ => nofun, fun _ => rfl⟩
  · obtain ⟨hi, hsingle⟩ := mainInv_of_init hs
    refine ⟨hi.free, hi.live, fun t ht => ?_, fun hu => ?_⟩
    · exact List.mem_of_getElem? (hsingle.index t (.inr ht))
    · obtain ⟨-, hs⟩ := hs
      obtain rfl := Option.some.inj hs
      simpa using hu main

/--
Once all threads that have been started have ended, the cleanup empties the table exactly if no
thread has been started.
-/
theorem join_all_iff (h : (vmMachine cfg).Reachable s) (ht : s.AllTerminated) :
    (∃ m, Loop.Returns (Inner.processRound s.status s.indexInManager) s.inner (.ok m) ∧
      m.Joined) ↔ ∀ t, s.phase t = .unstarted := by
  have hg := grown_of_reachable h
  constructor
  · rintro ⟨m, hm, hj⟩ t
    by_contra hp
    obtain rfl := returns_self (fun t => (hg.live t).status) hm
    have hmem := hg.listed t (by rw [(ht t hp).1]; rfl)
    rw [joined_iff.mp hj] at hmem
    cases hmem
  · intro hu
    rw [hg.fresh hu]
    exact ⟨.new, returns_new, joined_iff.mpr rfl⟩

/-- One thread starts, runs and ends. -/
def endingRun : List (VmLabel Bool Unit) :=
  List.replicate 13 (.manager (.startup true)) ++ .manager (.call true .terminate) ::
    List.replicate 6 (.manager (.step true))

theorem join_all_iff_ending : ∃ s : State Bool Unit,
    (vmMachine .mutators).checkedExec (fun _ _ => True) .new endingRun = some s ∧
    s.AllTerminated ∧
    ¬ ∃ m, Loop.Returns (Inner.processRound s.status s.indexInManager) s.inner (.ok m) ∧
      m.Joined := by
  obtain ⟨s, hs, hp, hp', hpc⟩ : ∃ s : State Bool Unit,
      (vmMachine .mutators).checkedExec (fun _ _ => True) .new endingRun = some s ∧
      s.phase false = .unstarted ∧ s.phase true = .running ∧
      (s.threads true).pc = .terminated := ⟨_, rfl, rfl, rfl, rfl⟩
  have hend : s.AllTerminated := by
    rintro (_ | _) ht
    · exact absurd hp ht
    · exact ⟨hp', hpc⟩
  refine ⟨s, hs, hend, fun hj => ?_⟩
  cases hp'.symm.trans ((join_all_iff (.checkedExec (.init (.inl rfl)) hs) hend).mp hj true)

/-- The thread that has ended is still in its slot after the cleanup. -/
theorem ended_thread_stays : ∃ (s : State Bool Unit) (m : Inner Bool),
    (vmMachine .mutators).exec .new endingRun = some s ∧ s.AllTerminated ∧
    Loop.Returns (Inner.processRound s.status s.indexInManager) s.inner (.ok m) ∧
    m.threads = [some true] ∧ ¬ m.Joined := by
  refine ⟨_, _, rfl, ?_, ⟨1, rfl⟩, rfl, fun hj => absurd hj.2 nofun⟩
  rintro (_ | _) ht
  · exact absurd rfl ht
  · exact ⟨rfl, rfl⟩

end Joining

end VmkitCore.ThreadManager
