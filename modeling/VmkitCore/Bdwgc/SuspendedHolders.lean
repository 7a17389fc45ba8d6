import VmkitCore.Bdwgc.CollectionLocks
import VmkitCore.Threading.SuspensionInvariant

/-! # Locks of suspended mutators

A mutator that waits in the signal handler runs no code, so it releases nothing. If
it holds no lock when it begins to wait, and none is handed over to it meanwhile,
then no collection waits for it.
-/

namespace VmkitCore.Monitor

variable {τ : Type*} [DecidableEq τ] {ids : ThreadIds τ} {s s' : State τ} {t u : τ}

/-- A step makes nobody but its thread the holder of the mutex. -/
theorem threadStep_mutex (hs : threadStep ids s t = some s') (hu : s'.mutex = some u) :
    s.mutex = some u ∨ u = t := by
  unfold threadStep at hs
  dsimp only at hs
  split at hs
  case h_1 | h_2 | h_3 | h_4 => cases hs
  case h_5 | h_8 | h_16 | h_23 | h_26 =>
    rw [acquire_mutex hs] at hu
    exact .inr (Option.some.inj hu).symm
  all_goals
    cases hs
    first | exact .inl hu | cases hu

end VmkitCore.Monitor

namespace VmkitCore.Suspension

variable {τ : Type*} [DecidableEq τ] {cfg : Config τ} {s s' : State τ} {t u : τ}

/-- The thread waits in its handler, or is about to. -/
def Parks (s : State τ) (l : Label τ) (t : τ) : Prop :=
  (s.threads t).handler = .parked ∨ ∃ sp, l = .handler t sp ∧ (s.threads t).handler = .post

theorem modify_parked {f : Thread τ → Thread τ}
    (hf : (f (s.threads t)).handler = .parked → (s.threads t).handler = .parked)
    (hp : ((s.modify t f).threads u).handler = .parked) : (s.threads u).handler = .parked := by
  by_cases hu : u = t
  · subst hu
    rw [State.modify_self] at hp
    exact hf hp
  · rwa [State.modify_of_ne hu] at hp

omit [DecidableEq τ] in
theorem leaveHandler_ne_parked (c : Thread τ) : c.leaveHandler.handler ≠ .parked := by
  unfold Thread.leaveHandler
  split <;> exact nofun

theorem handlerStep_parked {sp : ℕ} (hs : handlerStep s t sp = some s')
    (hp : (s'.threads u).handler = .parked) : Parks s (.handler t sp) u := by
  have hleave : ∀ {s : State τ}, ((s.modify t Thread.leaveHandler).threads u).handler = .parked →
      (s.threads u).handler = .parked :=
    modify_parked fun h => absurd h (leaveHandler_ne_parked _)
  unfold handlerStep at hs
  split at hs
  case h_1 | h_2 => cases hs
  case h_3 =>
    obtain ⟨thread, -, rfl⟩ := Option.map_eq_some_iff.mp hs
    split at hp
    · exact .inl (hleave hp)
    · exact .inl (modify_parked (by simp) hp)
  case h_4 =>
    cases hs
    refine .inl (modify_parked (fun h => h) (modify_parked (fun h => ?_) hp))
    dsimp only at h
    split at h <;> cases h
  case h_5 | h_8 =>
    cases hs
    exact .inl (hleave hp)
  case h_6 hpost =>
    by_cases hu : u = t
    · subst hu
      exact .inr ⟨sp, rfl, hpost⟩
    · cases hs
      rw [State.modify_of_ne hu] at hp
      exact .inl hp
  case h_7 =>
    obtain ⟨thread, -, rfl⟩ := Option.map_eq_some_iff.mp hs
    exact .inl (modify_parked (fun h => h) (modify_parked (by simp) hp))

omit [DecidableEq τ] in
theorem goto_threads (pc : CollectorPc τ) : (s.goto pc).threads = s.threads := rfl

theorem suspendStep_parked {pc : SuspendPc} {goto : SuspendPc → CollectorPc τ}
    {done : CollectorPc τ} (hs : suspendStep s t pc goto done = some s')
    (hp : (s'.threads u).handler = .parked) : (s.threads u).handler = .parked := by
  unfold suspendStep at hs
  cases pc with
  | load | target | test =>
    cases hs
    exact hp
  | handle =>
    dsimp only at hs
    split at hs <;> cases hs
    exact hp
  | kill =>
    dsimp only at hs
    split at hs <;> cases hs
    · exact hp
    · rw [goto_threads] at hp
      exact modify_parked (fun h => h) hp
  | wait =>
    simp only [State.wait] at hs
    split at hs <;> cases hs
    exact hp
  | add =>
    cases hs
    rw [goto_threads] at hp
    exact modify_parked (fun h => h) hp

theorem resumeStep_parked {pc : ResumePc} {goto : ResumePc → CollectorPc τ}
    {done : CollectorPc τ} (hs : resumeStep s t pc goto done = some s')
    (hp : (s'.threads u).handler = .parked) : (s.threads u).handler = .parked := by
  unfold resumeStep at hs
  cases pc with
  | load | target =>
    cases hs
    exact hp
  | kill =>
    dsimp only at hs
    split at hs <;> cases hs
    · exact hp
    · rw [goto_threads] at hp
      exact modify_parked (fun h => h) hp
  | wait =>
    simp only [State.wait] at hs
    split at hs <;> cases hs
    exact hp
  | sub =>
    cases hs
    rw [goto_threads] at hp
    exact modify_parked (fun h => h) hp

theorem collectorStep_parked (hs : collectorStep cfg s = some s')
    (hp : (s'.threads u).handler = .parked) : (s.threads u).handler = .parked := by
  unfold collectorStep at hs
  split at hs
  case h_5 => exact suspendStep_parked hs hp
  case h_9 => exact resumeStep_parked hs hp
  all_goals
    cases hs
    exact hp

theorem step_parked {l : Label τ} (hs : step cfg s l = some s')
    (hp : (s'.threads u).handler = .parked) : Parks s l u := by
  cases l with
  | register t =>
    simp only [step] at hs
    split at hs <;> cases hs
    exact .inl hp
  | establish t | terminate t | exit t =>
    simp only [step] at hs
    split at hs <;> cases hs
    exact .inl (modify_parked (fun h => h) hp)
  | deliver t =>
    simp only [step] at hs
    split at hs
    · cases hs
    · split at hs <;> cases hs
      all_goals exact .inl (modify_parked (by simp) hp)
  | handler t sp => exact handlerStep_parked hs hp
  | collector => exact .inl (collectorStep_parked hs hp)

end VmkitCore.Suspension

namespace VmkitCore.Bdwgc

variable {τ κ : Type*} [DecidableEq τ] {cfg : Config τ} {s s' : State τ κ} {t u : τ}
  {p q : Party τ} {k : Lock}

namespace State

@[simp] theorem modify_suspension (f : Mutator κ → Mutator κ) :
    (s.modify t f).suspension = s.suspension := rfl

@[simp] theorem modify_holder (f : Mutator κ → Mutator κ) :
    (s.modify t f).holder k = s.holder k := by
  cases k <;> rfl

@[simp] theorem goto_suspension (pc : MutatorPc κ) : (s.goto t pc).suspension = s.suspension := rfl

@[simp] theorem goto_holder (pc : MutatorPc κ) : (s.goto t pc).holder k = s.holder k :=
  modify_holder _

omit [DecidableEq τ] in
@[simp] theorem gcGoto_suspension (pc : GcPc) : (s.gcGoto pc).suspension = s.suspension := rfl

omit [DecidableEq τ] in
@[simp] theorem gcGoto_holder (pc : GcPc) : (s.gcGoto pc).holder k = s.holder k := by
  cases k <;> rfl

omit [DecidableEq τ] in
@[simp] theorem body_suspension (op : Op κ) : (s.body op).1.suspension = s.suspension := by
  cases op <;> rfl

omit [DecidableEq τ] in
@[simp] theorem body_holder (op : Op κ) : (s.body op).1.holder k = s.holder k := by
  cases op <;> cases k <;> rfl

/-- How a call ends changes its thread alone. -/
theorem finish_eq_modify (op : Op κ) (value : Value κ) :
    ∃ f, s.finish t op value = s.modify t f := by
  unfold State.finish
  split <;> exact ⟨_, rfl⟩

end State

/-- What a step of one party leaves alone: who is suspended, and the locks of the others. -/
structure Acts (p : Party τ) (s s' : State τ κ) : Prop where
  suspension : s'.suspension = s.suspension
  holder : ∀ k q, s'.holder k = some q → s.holder k = some q ∨ q = p

namespace Acts

variable {s'' : State τ κ}

omit [DecidableEq τ] in
theorem refl : Acts p s s := ⟨rfl, fun _ _ h => .inl h⟩

omit [DecidableEq τ] in
theorem congr (h : Acts p s s') (hs : s''.suspension = s'.suspension)
    (hh : ∀ k, s''.holder k = s'.holder k) : Acts p s s'' :=
  ⟨hs.trans h.suspension, fun k q hq => h.holder k q (hh k ▸ hq)⟩

omit [DecidableEq τ] in
theorem registeredLock {m : Monitor.State (Party τ)}
    (hm : ∀ q, m.mutex = some q → s.registeredLock.mutex = some q ∨ q = p) :
    Acts p s { s with registeredLock := m } := by
  refine ⟨rfl, fun k q hq => ?_⟩
  cases k with
  | registered => exact hm q hq
  | roots | disappearingLinks | pending => exact .inl hq

omit [DecidableEq τ] in
theorem pendingLock {m : Monitor.State (Party τ)}
    (hm : ∀ q, m.mutex = some q → s.pendingLock.mutex = some q ∨ q = p) :
    Acts p s { s with pendingLock := m } := by
  refine ⟨rfl, fun k q hq => ?_⟩
  cases k with
  | pending => exact hm q hq
  | roots | disappearingLinks | registered => exact .inl hq

theorem lock (hs : s.lock cfg.ids p k = some s') : Acts p s s' := by
  cases k with
  | roots | disappearingLinks =>
    simp only [State.lock] at hs
    split at hs <;> cases hs
    refine ⟨rfl, fun k q hq => ?_⟩
    cases k
    all_goals first | exact .inl hq | exact .inr (Option.some.inj hq).symm
  | registered =>
    obtain ⟨m, hm, rfl⟩ := Option.map_eq_some_iff.mp hs
    exact registeredLock fun q hq => .inl (Monitor.startOp_mutex hm ▸ hq)
  | pending =>
    obtain ⟨m, hm, rfl⟩ := Option.map_eq_some_iff.mp hs
    exact pendingLock fun q hq => .inl (Monitor.startOp_mutex hm ▸ hq)

theorem unlock (hs : s.unlock cfg.ids p k = some s') : Acts p s s' := by
  cases k with
  | roots | disappearingLinks =>
    cases hs
    refine ⟨rfl, fun k q hq => ?_⟩
    cases k
    all_goals first | exact .inl hq | cases hq
  | registered =>
    obtain ⟨m, hm, rfl⟩ := Option.map_eq_some_iff.mp hs
    exact registeredLock fun q hq => .inl (Monitor.startOp_mutex hm ▸ hq)
  | pending =>
    obtain ⟨m, hm, rfl⟩ := Option.map_eq_some_iff.mp hs
    exact pendingLock fun q hq => .inl (Monitor.startOp_mutex hm ▸ hq)

theorem advance (hs : s.advance cfg.ids p = some s') : Acts p s s' := by
  unfold State.advance at hs
  split at hs
  · obtain ⟨m, hm, rfl⟩ := Option.map_eq_some_iff.mp hs
    exact registeredLock fun q hq => Monitor.threadStep_mutex hm hq
  · obtain ⟨m, hm, rfl⟩ := Option.map_eq_some_iff.mp hs
    exact pendingLock fun q hq => Monitor.threadStep_mutex hm hq

theorem mutatorStep (hs : Bdwgc.mutatorStep cfg s t = some s') : Acts (.mutator t) s s' := by
  unfold Bdwgc.mutatorStep at hs
  split at hs
  · exact advance hs
  split at hs
  · cases hs
  · obtain ⟨s₁, hl, rfl⟩ := Option.map_eq_some_iff.mp hs
    exact (lock hl).congr rfl fun _ => by simp
  · cases hs
    exact refl.congr (by simp) fun _ => by simp
  · obtain ⟨s₁, hl, rfl⟩ := Option.map_eq_some_iff.mp hs
    obtain ⟨f, hf⟩ := s₁.finish_eq_modify (t := t) _ _
    rw [hf]
    exact (unlock hl).congr rfl fun _ => by simp

theorem gcStep {c : Finalization.Collection} {reachable : VMKitObject → Bool}
    (hs : Bdwgc.gcStep cfg s c reachable = some s') : Acts .collector s s' := by
  unfold Bdwgc.gcStep at hs
  split at hs
  · exact advance hs
  cases hpc : s.gc
  all_goals simp only [hpc] at hs
  case idle | rootsScan | linksRetain | finalizersRetain =>
    cases hs
    exact refl.congr rfl fun k => by cases k <;> rfl
  case done => cases hs
  case rootsLock | linksLock | registeredLock | pendingLock =>
    obtain ⟨s₁, hl, rfl⟩ := Option.map_eq_some_iff.mp hs
    exact (lock hl).congr rfl fun _ => by simp
  all_goals
    obtain ⟨s₁, hl, rfl⟩ := Option.map_eq_some_iff.mp hs
    exact (unlock hl).congr rfl fun _ => by simp

end Acts

/-- Waiting for the signal to go on. -/
def Suspended (s : State τ κ) (t : τ) : Prop := (s.suspension.threads t).handler = .parked

instance (s : State τ κ) (t : τ) : Decidable (Suspended s t) := inferInstanceAs (Decidable (_ = _))

/-- Holds none of the locks. -/
def Free (s : State τ κ) (p : Party τ) : Prop :=
  s.rootsLock ≠ some p ∧ s.linksLock ≠ some p ∧ s.registeredLock.mutex ≠ some p ∧
    s.pendingLock.mutex ≠ some p

instance (s : State τ κ) (p : Party τ) : Decidable (Free s p) :=
  inferInstanceAs (Decidable (_ ∧ _ ∧ _ ∧ _))

omit [DecidableEq τ] in
theorem free_iff : Free s p ↔ ∀ k, s.holder k ≠ some p := by
  constructor
  · rintro ⟨hroots, hlinks, hregistered, hpending⟩ (_ | _ | _ | _)
    exacts [hroots, hlinks, hregistered, hpending]
  · exact fun h => ⟨h .roots, h .disappearingLinks, h .registered, h .pending⟩

/--
A mutator that begins to wait in the handler holds none of the locks, and no lock is handed over
to a mutator that waits there.
-/
def SuspendsFree (s : State τ κ) : Label τ κ → Prop
  | .suspension (.handler t _) => (s.suspension.threads t).handler = .post → Free s (.mutator t)
  | .step _ (some u) | .work _ _ (some u) => ¬ Suspended s u
  | _ => True

instance (s : State τ κ) : ∀ l, Decidable (SuspendsFree s l)
  | .suspension (.handler _ _) => inferInstanceAs (Decidable (_ → _))
  | .step _ (some _) | .work _ _ (some _) => inferInstanceAs (Decidable (¬ _))
  | .suspension (.register _) | .suspension (.establish _) | .suspension (.terminate _)
  | .suspension (.exit _) | .suspension (.deliver _) | .suspension .collector | .call ..
  | .finalizerRan _ | .step _ none | .work _ _ none => inferInstanceAs (Decidable True)

/-- No mutator holds a lock while it waits in its handler. -/
def SuspendedFree (s : State τ κ) : Prop := ∀ t, Suspended s t → ∀ k, s.holder k ≠ some (.mutator t)

omit [DecidableEq τ] in
theorem State.Running.not_suspended (h : s.Running t) : ¬ Suspended s t := fun hp => by
  cases h.1.symm.trans hp

namespace SuspendedFree

omit [DecidableEq τ] in
theorem congr (h : SuspendedFree s) (hs : s'.suspension = s.suspension)
    (hh : ∀ k, s'.holder k = s.holder k) : SuspendedFree s' := fun t ht k => by
  rw [Suspended, hs] at ht
  rw [hh]
  exact h t ht k

omit [DecidableEq τ] in
theorem acts (h : SuspendedFree s) (ha : Acts p s s')
    (hp : ∀ t, p = .mutator t → ¬ Suspended s t) : SuspendedFree s' := by
  intro t ht k hk
  rw [Suspended, ha.suspension] at ht
  rcases ha.holder k _ hk with hk | hk
  · exact h t ht k hk
  · exact hp t hk.symm ht

theorem handOff {handTo : Option τ} (h : SuspendedFree s')
    (hu : ∀ u, handTo = some u → ¬ Suspended s' u) {s'' : State τ κ}
    (hs : Bdwgc.handOff cfg s s' handTo = some s'') : SuspendedFree s'' := by
  cases handTo with
  | none =>
    cases hs
    exact h
  | some u =>
    simp only [Bdwgc.handOff] at hs
    split at hs
    · cases hs
    split at hs
    · refine h.acts (.mutatorStep hs) ?_
      rintro _ ⟨⟩
      exact hu _ rfl
    · cases hs

/-- A thread that begins to wait holds nothing, and its locks stay as they are. -/
theorem suspensionStep {l : Suspension.Label τ} (h : SuspendedFree s)
    (hc : SuspendsFree s (.suspension l)) (hs : Bdwgc.suspensionStep cfg s l = some s') :
    SuspendedFree s' := by
  have hnext : ∀ s', (Suspension.step cfg.threads s.suspension l).map
      (fun u => { s with suspension := u }) = some s' → SuspendedFree s' := by
    intro s' hs
    obtain ⟨u, hu, rfl⟩ := Option.map_eq_some_iff.mp hs
    intro t ht
    rcases Suspension.step_parked hu ht with hp | ⟨sp, rfl, hpost⟩
    · exact h t hp
    · exact free_iff.mp (hc hpost)
  unfold Bdwgc.suspensionStep at hs
  cases l with
  | register _ | establish _ | deliver _ | handler _ _ => exact hnext s' hs
  | terminate _ | exit _ =>
    dsimp only at hs
    split at hs
    · exact hnext s' hs
    · cases hs
  | collector =>
    dsimp only at hs
    split at hs
    · split at hs
      · obtain ⟨s₁, hs₁, rfl⟩ := Option.map_eq_some_iff.mp hs
        exact (hnext s₁ hs₁).congr rfl fun _ => State.gcGoto_holder _
      · cases hs
    · exact hnext s' hs

theorem step {l : Label τ κ} (h : SuspendedFree s) (hc : SuspendsFree s l)
    (hs : Bdwgc.step cfg s l = some s') : SuspendedFree s' := by
  cases l with
  | suspension l => exact h.suspensionStep hc hs
  | call t op =>
    simp only [Bdwgc.step] at hs
    split at hs <;> cases hs
    exact h.congr rfl fun _ => State.goto_holder _
  | finalizerRan t =>
    simp only [Bdwgc.step] at hs
    split at hs
    · cases hs
    split at hs <;> cases hs
    exact h.congr rfl fun _ => State.modify_holder _
  | step t handTo =>
    simp only [Bdwgc.step] at hs
    split at hs
    · next hrun =>
      obtain ⟨s₁, hs₁, hs⟩ := Option.bind_eq_some_iff.mp hs
      have ha : Acts (.mutator t) s s₁ := .mutatorStep hs₁
      refine (h.acts ha ?_).handOff ?_ hs
      · rintro _ ⟨⟩
        exact hrun.not_suspended
      · rintro u rfl
        rw [Suspended, ha.suspension]
        exact hc
    · cases hs
  | work c reachable handTo =>
    simp only [Bdwgc.step] at hs
    split at hs
    · obtain ⟨s₁, hs₁, hs⟩ := Option.bind_eq_some_iff.mp hs
      have ha : Acts .collector s s₁ := .gcStep hs₁
      refine (h.acts ha nofun).handOff ?_ hs
      rintro u rfl
      rw [Suspended, ha.suspension]
      exact hc
    · cases hs

omit [DecidableEq τ] in
theorem new : SuspendedFree (State.new : State τ κ) := nofun

end SuspendedFree

/--
In every run in which each mutator holds no lock when it begins to wait in its handler and is
handed none there, the collection waits for no lock that a suspended mutator holds.
-/
theorem no_wait_for_suspended (h : (machine cfg).ReachableUnder SuspendsFree s) :
    ∀ k, s.waitsFor .collector = some k → ∀ t, s.holder k = some (.mutator t) →
      ¬ Suspended s t := by
  have hfree : SuspendedFree s := by
    refine h.invariant ?_ fun _ _ _ hi hc hs => hi.step hc hs
    rintro s rfl
    exact SuspendedFree.new
  exact fun k _ t hk hsusp => hfree t hsusp k hk

/-- Two mutators. -/
def Config.two : Config Bool where
  threads := ⟨fun _ => false, fun _ => false⟩
  ids := {
    slot := fun
      | .mutator b => if b then 3 else 2
      | .collector => 1
    slot_ne_zero := by rintro ((_ | _) | _) <;> decide
    slot_injective := by rintro ((_ | _) | _) ((_ | _) | _) <;> decide }
  dynamicLibrariesSections := ∅

/-- The collector suspends one mutator by a signal. -/
def suspendRun : List (Label Bool Unit) :=
  List.replicate 7 (.suspension .collector) ++ [.suspension (.deliver true)] ++
    List.replicate 3 (.suspension (.handler true 64)) ++
    List.replicate 4 (.suspension .collector)

/-- Work of a collection that reaches everything. -/
def Label.reaches : Label Bool Unit := .work ⟨fun _ => true, fun _ => none, fun _ => none, []⟩
  (fun _ => true) none

/-- One mutator is suspended, and another one that has come since takes the lock of the roots. -/
def registeredRun : List (Label Bool Unit) :=
  [.suspension (.register true), .suspension (.establish true)] ++ suspendRun ++
    [.suspension (.register false), .suspension (.establish false), .call false (.addRoots 0 8),
      .step false none, .reaches]

theorem no_wait_for_suspended_registered : ∃ s : State Bool Unit,
    (machine .two).checkedExec SuspendsFree .new registeredRun = some s ∧
    s.waitsFor .collector = some .roots ∧ s.holder .roots = some (.mutator false) ∧
    Suspended s true ∧ ¬ Suspended s false := by
  obtain ⟨s, hs, hwait, hhold, hsusp⟩ : ∃ s : State Bool Unit,
      (machine .two).checkedExec SuspendsFree .new registeredRun = some s ∧
      s.waitsFor .collector = some .roots ∧ s.holder .roots = some (.mutator false) ∧
      Suspended s true := ⟨_, rfl, rfl, rfl, rfl⟩
  exact ⟨s, hs, hwait, hhold, hsusp,
    no_wait_for_suspended (.checkedExec (.init rfl) hs) .roots hwait false hhold⟩

/-- A mutator is suspended inside `register_finalizer`, and `process` waits for its lock. -/
theorem waits_for_suspended : ∃ s : State Bool Unit,
    (machine .two).exec .new ([.suspension (.register true), .suspension (.establish true),
      .call true (.registerFinalizer ⟨8⟩ ()), .step true none, .step true none] ++ suspendRun ++
      List.replicate 7 .reaches) = some s ∧
    s.waitsFor .collector = some .registered ∧
    s.holder .registered = some (.mutator true) ∧ Suspended s true :=
  ⟨_, rfl, rfl, rfl, rfl⟩

end VmkitCore.Bdwgc
