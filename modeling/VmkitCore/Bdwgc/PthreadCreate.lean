import VmkitCore.Threading.InnerMonitor
import VmkitCore.Threading.Moves

/-! # Creating threads

`GC_pthread_create` and the thread that it creates meet at a barrier. The barrier is made for one
party, so neither of them ever waits there.
-/

namespace VmkitCore.PthreadCreate

open ThreadManager

/-- `std::sync::Barrier` -/
structure Barrier where
  numThreads : ℕ
  count : ℕ
  generationId : ℕ
  deriving DecidableEq, Repr

def Barrier.new (n : ℕ) : Barrier := ⟨n, 0, 0⟩

/-- A thread comes to `wait`: the generation that it waits for the end of, if it has to. -/
def Barrier.arrive (b : Barrier) : Barrier × Option ℕ :=
  if b.count + 1 < b.numThreads then ({ b with count := b.count + 1 }, some b.generationId)
  else ({ b with count := 0, generationId := b.generationId + 1 }, none)

/-- The next step of the caller of `GC_pthread_create`. -/
inductive CreatorPc
  | start | arrive
  | wait (generation : ℕ)
  /-- The call returns zero. -/
  | leave
  | returned
  deriving DecidableEq, Repr

/-- The next step of the new thread after `add_thread`. -/
inductive ChildPc
  | setHandle | arrive
  | wait (generation : ℕ)
  | store
  | startRoutine
  deriving DecidableEq, Repr

structure State (τ ι : Type*) where
  manager : ThreadManager.State τ ι
  barrier : Barrier
  creator : CreatorPc
  child : ChildPc
  platformHandle : ℕ
  /-- `*thread_ptr`, or `none` for what the caller had there. -/
  threadPtr : Option ℕ

inductive Label (τ ι : Type*)
  | creator
  | child
  | manager (l : ThreadManager.Label τ ι)

variable {τ ι : Type*} [DecidableEq τ] [DecidableEq ι]

section Source

variable (cfg : Config τ ι) (t : τ) (handle : ℕ)

/-- The call for the new thread `t`. -/
def creatorStep (s : State τ ι) : Option (State τ ι) :=
  match s.creator with
  -- `thread.start`
  | .start => (startup cfg s.manager t).map fun m => { s with manager := m, creator := .arrive }
  | .arrive =>
    match s.barrier.arrive with
    | (b, some generation) => some { s with barrier := b, creator := .wait generation }
    | (b, none) => some { s with barrier := b, creator := .leave }
  | .wait generation =>
    if s.barrier.generationId = generation then none else some { s with creator := .leave }
  | .leave => some { s with creator := .returned }
  | .returned => none

/-- What the new thread does up to its routine; `handle` is its `pthread_self()`. -/
def childStep (s : State τ ι) : Option (State τ ι) :=
  match s.child with
  | .setHandle =>
    if s.manager.phase t = .running then
      some { s with platformHandle := handle, child := .arrive }
    else none
  | .arrive =>
    match s.barrier.arrive with
    | (b, some generation) => some { s with barrier := b, child := .wait generation }
    | (b, none) => some { s with barrier := b, child := .store }
  | .wait generation =>
    if s.barrier.generationId = generation then none else some { s with child := .store }
  | .store => some { s with threadPtr := some s.platformHandle, child := .startRoutine }
  | .startRoutine => none

/-- Before `thread.start` and after `add_thread`, the new thread does what it does above. -/
def allowed (s : State τ ι) : ThreadManager.Label τ ι → Bool
  | .startup u => u ≠ t || s.creator ≠ .start
  | .call u _ | .step u => u ≠ t || s.child = .startRoutine
  | .collector => true

def step (s : State τ ι) : Label τ ι → Option (State τ ι)
  | .creator => creatorStep cfg t s
  | .child => childStep t handle s
  | .manager l =>
    if allowed t s l then (ThreadManager.step cfg s.manager l).map fun m => { s with manager := m }
    else none

/-- The call begins: the new thread is there but not started. -/
structure Init (s : State τ ι) : Prop where
  manager : (ThreadManager.machine cfg).Reachable s.manager
  phase : s.manager.phase t = .unstarted
  barrier : s.barrier = .new 1
  creator : s.creator = .start
  child : s.child = .setHandle
  platformHandle : s.platformHandle = 0
  threadPtr : s.threadPtr = none

def machine : Machine (State τ ι) (Label τ ι) where
  init := Init cfg t
  step := step cfg t handle

end Source

variable {cfg : Config τ ι} {t u : τ} {handle : ℕ} {s s' : State τ ι}
  {m m' : ThreadManager.State τ ι}

/-- When the call has returned, the thread is registered, and the caller knows its handle. -/
def Established (t : τ) (handle : ℕ) (s : State τ ι) : Prop :=
  s.creator = .returned →
    (s.manager.phase t).isRegistered = true ∧ s.threadPtr = some handle

/-- The call does not return before the new thread starts its routine. -/
def ReturnsLast (s : State τ ι) : Label τ ι → Prop
  | .creator => s.creator = .leave → s.child = .startRoutine
  | _ => True

instance : ∀ (s : State τ ι) (l : Label τ ι), Decidable (ReturnsLast s l)
  | _, .creator => inferInstanceAs (Decidable (_ → _))
  | _, .child | _, .manager _ => inferInstanceAs (Decidable True)

/-- How far the new thread is. -/
structure Inv (t : τ) (handle : ℕ) (s : State τ ι) : Prop where
  running : s.child ≠ .setHandle → s.manager.phase t = .running
  platformHandle : s.child ≠ .setHandle → s.platformHandle = handle
  threadPtr : s.threadPtr = if s.child = .startRoutine then some handle else none

theorem Init.inv (h : Init cfg t s) : Inv t handle s where
  running hne := absurd h.child hne
  platformHandle hne := absurd h.child hne
  threadPtr := by rw [h.threadPtr, h.child]; rfl

theorem Init.established (h : Init cfg t s) : Established t handle s := by
  intro hr
  rw [h.creator] at hr
  cases hr

/-- The caller leaves the cells of the new thread alone, and returns with its last step only. -/
structure CreatorStep (t : τ) (s s' : State τ ι) : Prop where
  child : s'.child = s.child
  platformHandle : s'.platformHandle = s.platformHandle
  threadPtr : s'.threadPtr = s.threadPtr
  running : s.manager.phase t = .running → s'.manager.phase t = .running
  returned : s'.creator = .returned ↔ s.creator = .leave

theorem creatorStep_result (hs : creatorStep cfg t s = some s') : CreatorStep t s s' := by
  unfold creatorStep at hs
  cases hpc : s.creator
  all_goals simp only [hpc] at hs
  case start =>
    obtain ⟨m, hm, rfl⟩ := Option.map_eq_some_iff.mp hs
    exact ⟨rfl, rfl, rfl, step_running (l := .startup t) hm, by simp [hpc]⟩
  case arrive => split at hs <;> cases hs <;> exact ⟨rfl, rfl, rfl, id, by simp [hpc]⟩
  case wait =>
    split at hs <;> cases hs
    exact ⟨rfl, rfl, rfl, id, by simp [hpc]⟩
  case leave => cases hs; exact ⟨rfl, rfl, rfl, id, by simp [hpc]⟩
  case returned => cases hs

omit [DecidableEq τ] [DecidableEq ι] in
theorem childStep_creator (hs : childStep t handle s = some s') :
    s'.creator = s.creator ∧ s'.manager = s.manager ∧ s.child ≠ .startRoutine := by
  unfold childStep at hs
  cases hpc : s.child
  all_goals simp only [hpc] at hs
  case setHandle =>
    split at hs <;> cases hs
    exact ⟨rfl, rfl, by rintro ⟨⟩⟩
  case arrive => split at hs <;> cases hs <;> exact ⟨rfl, rfl, by rintro ⟨⟩⟩
  case wait =>
    split at hs <;> cases hs
    exact ⟨rfl, rfl, by rintro ⟨⟩⟩
  case store => cases hs; exact ⟨rfl, rfl, by rintro ⟨⟩⟩
  case startRoutine => cases hs

namespace Inv

omit [DecidableEq τ] [DecidableEq ι] in
theorem child (h : Inv t handle s) (hs : childStep t handle s = some s') : Inv t handle s' := by
  obtain ⟨hrunning, hhandle, hptr⟩ := h
  unfold childStep at hs
  cases hpc : s.child
  all_goals simp only [hpc, reduceCtorEq, ne_eq, not_false_eq_true, not_true_eq_false,
    forall_const, false_implies, if_false] at hs hrunning hhandle hptr
  case setHandle =>
    split at hs <;> cases hs
    next hp => exact ⟨fun _ => hp, fun _ => rfl, hptr⟩
  case arrive =>
    split at hs <;> cases hs <;> exact ⟨fun _ => hrunning, fun _ => hhandle, hptr⟩
  case wait =>
    split at hs <;> cases hs
    exact ⟨fun _ => hrunning, fun _ => hhandle, hptr⟩
  case store =>
    cases hs
    exact ⟨fun _ => hrunning, fun _ => hhandle, congrArg some hhandle⟩

theorem step (h : Inv t handle s) {l : Label τ ι}
    (hs : PthreadCreate.step cfg t handle s l = some s') : Inv t handle s' := by
  cases l with
  | creator =>
    have hc := creatorStep_result hs
    refine ⟨fun hne => ?_, fun hne => ?_, by rw [hc.threadPtr, hc.child, h.threadPtr]⟩
    · exact hc.running (h.running (hc.child ▸ hne))
    · rw [hc.platformHandle, h.platformHandle (hc.child ▸ hne)]
  | child => exact h.child hs
  | manager l =>
    obtain ⟨-, hs⟩ := Option.ite_none_right_eq_some.mp hs
    obtain ⟨m, hm, rfl⟩ := Option.map_eq_some_iff.mp hs
    exact ⟨fun hne => step_running hm (h.running hne), h.platformHandle, h.threadPtr⟩

omit [DecidableEq τ] [DecidableEq ι] in
/-- Exactly with its routine, the new thread is registered and its handle known. -/
theorem established_iff (h : Inv t handle s) :
    (s.manager.phase t).isRegistered = true ∧ s.threadPtr = some handle ↔
      s.child = .startRoutine := by
  constructor
  · rintro ⟨-, hptr⟩
    by_contra hne
    rw [h.threadPtr, if_neg hne] at hptr
    cases hptr
  · intro hchild
    rw [h.running (by rw [hchild]; rintro ⟨⟩), h.threadPtr, if_pos hchild]
    exact ⟨rfl, rfl⟩

/-- Only the last step of the call can end what a caller may rely on. -/
theorem step_established_iff (h : Inv t handle s) (hp : Established t handle s) {l : Label τ ι}
    (hs : PthreadCreate.step cfg t handle s l = some s') :
    Established t handle s' ↔ ReturnsLast s l := by
  have h' : Inv t handle s' := h.step hs
  unfold Established at hp ⊢
  rw [h.established_iff] at hp
  rw [h'.established_iff]
  cases l with
  | creator =>
    have hc := creatorStep_result hs
    rw [hc.returned, hc.child]
    exact Iff.rfl
  | child =>
    obtain ⟨hcreator, -, hne⟩ := childStep_creator hs
    rw [hcreator]
    exact iff_of_true (fun hr => absurd (hp hr) hne) trivial
  | manager l =>
    obtain ⟨-, hs⟩ := Option.ite_none_right_eq_some.mp hs
    obtain ⟨m, -, rfl⟩ := Option.map_eq_some_iff.mp hs
    exact iff_of_true hp trivial

end Inv

/--
A call keeps its promise exactly in the runs in which the new thread is through before the call
returns. The barrier does not see to that.
-/
theorem pthread_create_established_iff (hinit : (machine cfg t handle).init s)
    (l : List (Label τ ι)) :
    (machine cfg t handle).Always (Established t handle) s l ↔
      (machine cfg t handle).Meets ReturnsLast s l :=
  Machine.always_iff_meets (fun _ _ _ h hs => Inv.step h hs)
    (fun _ _ _ h hp hs => h.step_established_iff hp hs) hinit.inv hinit.established

/-- The barrier is open, and nobody is in front of it. -/
structure Open (s : State τ ι) : Prop where
  numThreads : s.barrier.numThreads = 1
  creator : ∀ generation, s.creator ≠ .wait generation
  child : ∀ generation, s.child ≠ .wait generation

theorem Barrier.arrive_of_one {b : Barrier} (h : b.numThreads = 1) :
    b.arrive = (⟨1, 0, b.generationId + 1⟩, none) := by
  rw [arrive, h, if_neg (by omega), ← h]

theorem Open.step (h : Open s) {l : Label τ ι}
    (hs : PthreadCreate.step cfg t handle s l = some s') : Open s' := by
  obtain ⟨hn, hcreator, hchild⟩ := h
  cases l with
  | creator =>
    unfold PthreadCreate.step creatorStep at hs
    cases hpc : s.creator
    all_goals simp only [hpc, Barrier.arrive_of_one hn] at hs
    case start =>
      obtain ⟨m, -, rfl⟩ := Option.map_eq_some_iff.mp hs
      exact ⟨hn, by simp, hchild⟩
    case arrive => cases hs; exact ⟨rfl, by simp, hchild⟩
    case wait generation => exact absurd hpc (hcreator generation)
    case leave => cases hs; exact ⟨hn, by simp, hchild⟩
    case returned => cases hs
  | child =>
    unfold PthreadCreate.step childStep at hs
    cases hpc : s.child
    all_goals simp only [hpc, Barrier.arrive_of_one hn] at hs
    case setHandle =>
      split at hs <;> cases hs
      exact ⟨hn, hcreator, by simp⟩
    case arrive => cases hs; exact ⟨rfl, hcreator, by simp⟩
    case wait generation => exact absurd hpc (hchild generation)
    case store => cases hs; exact ⟨hn, hcreator, by simp⟩
    case startRoutine => cases hs
  | manager l =>
    obtain ⟨-, hs⟩ := Option.ite_none_right_eq_some.mp hs
    obtain ⟨m, -, rfl⟩ := Option.map_eq_some_iff.mp hs
    exact ⟨hn, hcreator, hchild⟩

/-- No thread has been created yet. -/
def State.new : State τ ι := ⟨.new, .new 1, .start, .setHandle, 0, none⟩

theorem Init.new : Init cfg t (State.new : State τ ι) :=
  ⟨.init rfl, rfl, rfl, rfl, rfl, rfl, rfl⟩

/-- The new thread comes to its routine while the caller has not come to the barrier. -/
def childFirst : List (Label Bool Unit) :=
  .creator :: List.replicate 12 (.manager (.startup true)) ++
    [.child, .child, .child, .creator, .creator]

theorem pthread_create_established_iff_childFirst : ∃ s,
    (machine .mutators true 7).exec State.new childFirst = some s ∧
    s.creator = .returned ∧ Established true 7 s := by
  have hrun : (machine .mutators true 7).exec State.new childFirst = some _ := rfl
  have hmeets : (machine .mutators true 7).Meets ReturnsLast State.new childFirst :=
    Machine.meets_of_checkedExec (rfl : _ = some _)
  exact ⟨_, hrun, rfl,
    ((pthread_create_established_iff Init.new childFirst).mpr hmeets).last hrun⟩

/-- The caller is through before the new thread does anything. -/
theorem pthread_create_not_established : ¬ ∀ (s : State Bool Unit) (l : List (Label Bool Unit)),
    (machine .mutators true 7).init s →
    (machine .mutators true 7).Always (Established true 7) s l := by
  intro h
  have halways := h State.new [.creator, .creator, .creator] Init.new
  have hend := ((halways.2 _ rfl).2 _ rfl).2 _ rfl
  exact absurd (hend rfl).2 (by simp [State.new])

end VmkitCore.PthreadCreate
