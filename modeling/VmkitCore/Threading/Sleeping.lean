import VmkitCore.Threading.Evolution

/-! # Sleeping on the monitor

A target sleeps while it is blocked, and its only requester while its request is
neither acknowledged nor void. Who ends either also wakes them, before it gives the
monitor up.
-/

namespace VmkitCore

variable {ι : Type*} {t u : Thread ι} {as : List (BlockAdapter ι)} {a : BlockAdapter ι}

theorem Thread.isBlocked_mono (h : ∀ i, t.isBlockedFor i = true → u.isBlockedFor i = true)
    (ht : t.isBlocked as = true) : u.isBlocked as = true := by
  rw [isBlocked_eq_any, List.any_eq_true] at *
  obtain ⟨a, ha, hb⟩ := ht
  refine ⟨a, ha, ?_⟩
  cases a with
  | unit => cases hb
  | flags i => exact h i hb

/-- Without a request of the list, acknowledging changes nothing. -/
theorem Thread.acknowledgeBlockRequests_eq_self [DecidableEq ι]
    (h : (t.acknowledgeBlockRequests as).2 = false) : (t.acknowledgeBlockRequests as).1 = t := by
  induction as with
  | nil => rfl
  | cons a as ih =>
    rw [acknowledgeBlockRequests] at h ⊢
    split at h
    · cases h
    · next ha =>
      rw [if_neg ha]
      exact ih h

namespace Blocking

/-- The requester waits: its request stands, and the target may still acknowledge it. -/
structure Awaits (a : BlockAdapter ι) (t : Thread ι) : Prop where
  request : a.hasBlockRequest t = true
  blocked : a.isBlocked t = false
  dying : t.isAboutToTerminate = false

/-- The target has acknowledged or is about to terminate, and calls `notify_all` next. -/
def Pc.notifies : Pc ι → Bool
  | .enterBlockedNotify | .checkNotify _ | .terminateFlagNotify => true
  | _ => false

theorem Pc.holds_of_notifies {pc : Pc ι} (h : pc.notifies = true) : pc.holds = true := by
  cases pc <;> first | rfl | cases h

/-- Who sleeps has a reason to, unless the other one is about to wake it. -/
structure Sleeps (as : List (BlockAdapter ι)) (s : State ι Unit) : Prop where
  target : ∀ f, s.pc = .asleep f →
    s.thread.isBlocked as = true ∨ (s.requesters ()).pc = .unblockNotify
  requester : ∀ a, (s.requesters ()).pc = .asleep a → Awaits a s.thread ∨ s.pc.notifies = true

theorem Awaits.of_eq (h : Awaits a t)
    (hr : ∀ i, t.shouldBlockFor i = true → u.shouldBlockFor i = true)
    (hb : u.isBlockedFor = t.isBlockedFor) (hd : u.isAboutToTerminate = t.isAboutToTerminate) :
    Awaits a u := by
  refine ⟨?_, ?_, hd.trans h.dying⟩
  · cases a with
    | unit => exact h.request
    | flags i => exact hr i h.request
  · cases a with
    | unit => rfl
    | flags i => exact (congrFun hb i).trans h.blocked

namespace Sleeps

variable {s s' : State ι Unit}

/-- The target goes on, and does nothing that its requester waits for. -/
theorem awake (h : Sleeps as s) (hn : s.pc.notifies = false) (hpc : ∀ f, s'.pc ≠ .asleep f)
    (hr : ∀ i, s.thread.shouldBlockFor i = true → s'.thread.shouldBlockFor i = true)
    (hb : s'.thread.isBlockedFor = s.thread.isBlockedFor)
    (hd : s'.thread.isAboutToTerminate = s.thread.isAboutToTerminate)
    (hq : s'.requesters = s.requesters) : Sleeps as s' := by
  refine ⟨fun f hf => absurd hf (hpc f), fun a ha => .inl ?_⟩
  exact ((h.requester a (hq ▸ ha)).resolve_right (by simp [hn])).of_eq hr hb hd

theorem of_thread_eq (h : Sleeps as s) (hn : s.pc.notifies = false) (hpc : ∀ f, s'.pc ≠ .asleep f)
    (ht : s'.thread = s.thread) (hq : s'.requesters = s.requesters) : Sleeps as s' :=
  h.awake hn hpc (fun _ hi => ht ▸ hi) (ht ▸ rfl) (ht ▸ rfl) hq

/-- The target does what its requester waits for, and notifies next. -/
theorem notifies (hpc : s'.pc.notifies = true) : Sleeps as s' := by
  refine ⟨fun f hf => ?_, fun _ _ => .inr hpc⟩
  rw [hf] at hpc
  cases hpc

/-- A step that notifies leaves nobody asleep. -/
theorem notified (hpc : ∀ f, s'.pc ≠ .asleep f) (hq : s'.requesters = s.notifyAll.requesters) :
    Sleeps as s' := by
  refine ⟨fun f hf => absurd hf (hpc f), fun a ha => ?_⟩
  rw [hq] at ha
  cases hp : (s.requesters ()).pc <;> simp [State.notifyAll, hp, RequesterPc.wake] at ha

theorem acquire (h : Sleeps as s) {pc : Pc ι} (hs : s.acquire pc = some s')
    (hn : s.pc.notifies = false) (hpc : ∀ f, pc ≠ .asleep f) : Sleeps as s' := by
  obtain ⟨-, rfl⟩ := State.acquire_eq_some.mp hs
  exact h.of_thread_eq hn hpc rfl rfl

theorem call (h : Sleeps as s) {op : Op ι} (hs : Blocking.call s op = some s') :
    Sleeps as s' := by
  unfold Blocking.call at hs
  split at hs <;> cases hs
  all_goals
    next hpc => exact h.awake (by rw [hpc]; rfl) nofun (fun _ => id) rfl rfl rfl

variable [DecidableEq ι]

/-- A target that has acknowledged a request notifies, and else nothing has changed. -/
theorem acknowledge (h : Sleeps as s) (hn : s.pc.notifies = false) {pc pc' : Pc ι}
    (hpc : pc.notifies = true) (hpc' : ∀ f, pc' ≠ .asleep f) :
    Sleeps as (s.setThread (s.thread.acknowledgeBlockRequests as).1
      (if (s.thread.acknowledgeBlockRequests as).2 then pc else pc')) := by
  split
  · exact notifies hpc
  · next hsome =>
    refine h.of_thread_eq hn hpc' ?_ rfl
    exact Thread.acknowledgeBlockRequests_eq_self (by simpa using hsome)

theorem targetStep (h : Sleeps as s) (hs : Blocking.targetStep as s = some s') :
    Sleeps as s' := by
  unfold Blocking.targetStep at hs
  cases hpc : s.pc
  all_goals simp only [hpc] at hs
  case managed | native | asleep | terminated => cases hs
  case terminateNotify | terminateFlagNotify | enterBlockedNotify | checkNotify =>
    cases hs
    exact notified nofun rfl
  all_goals have hn : s.pc.notifies = false := by rw [hpc]; rfl
  case yieldpointLock | enterBlockedLock | woken | blockLock | terminateLock =>
    exact h.acquire hs hn nofun
  case checkLock f =>
    cases f with
    | leaveNative => exact h.acquire hs hn nofun
    | yieldpoint | blockSelf => cases hs; exact h.of_thread_eq hn nofun rfl rfl
  case checkUnlock f => cases f <;> cases hs <;> exact h.awake hn nofun (fun _ => id) rfl rfl rfl
  case enterBlockedAcknowledge | checkAcknowledge =>
    cases hs
    exact h.acknowledge hn rfl nofun
  case checkBlocked f =>
    cases hs
    split
    · next hb =>
      exact ⟨fun _ _ => .inl hb, fun a ha => .inl ((h.requester a ha).resolve_right (by simp [hn]))⟩
    · exact h.of_thread_eq hn nofun rfl rfl
  case blockRequest a =>
    cases hs
    exact h.awake hn nofun (fun _ => a.shouldBlockFor_requestBlock) (by cases a <;> rfl)
      (by cases a <;> rfl) rfl
  case terminateFlag => cases hs; exact notifies rfl
  case yieldpointTake | enterCas | leaveCas =>
    cases hs
    split <;> exact h.awake hn nofun (fun _ => id) rfl rfl rfl
  case yieldpointEnabled | enterLoad | enableTest =>
    cases hs
    refine h.of_thread_eq hn ?_ rfl rfl
    dsimp only
    split <;> exact nofun
  case leaveLoad block =>
    cases hs
    refine h.of_thread_eq hn ?_ rfl rfl
    dsimp only
    split
    · exact nofun
    · split <;> exact nofun
  all_goals
    cases hs
    exact h.awake hn nofun (fun _ => id) rfl rfl rfl

omit [DecidableEq ι] in
/-- The requester goes on, and leaves the blocked flags, or sets one. -/
theorem setRequester (h : Sleeps as s) {t : Thread ι} {m : Option (Holder Unit)}
    {q : Requester ι} (hn : (s.requesters ()).pc ≠ .unblockNotify)
    (hb : ∀ i, s.thread.isBlockedFor i = true → t.isBlockedFor i = true)
    (hq : ∀ a, q.pc = .asleep a → Awaits a t ∨ s.pc.notifies = true) :
    Sleeps as ⟨t, m, s.pc, Function.update s.requesters () q⟩ :=
  ⟨fun f hf => .inl (Thread.isBlocked_mono hb ((h.target f hf).resolve_right hn)),
    fun a ha => hq a (by simpa using ha)⟩

omit [DecidableEq ι] in
theorem acquireFor (h : Sleeps as s) {q : Requester ι} (hs : s.acquireFor () q = some s')
    (hn : (s.requesters ()).pc ≠ .unblockNotify) (hq : ∀ a, q.pc ≠ .asleep a) :
    Sleeps as s' := by
  obtain ⟨-, rfl⟩ := State.acquireFor_eq_some.mp hs
  exact h.setRequester hn (fun _ => id) fun a ha => absurd ha (hq a)

theorem request (h : Sleeps as s) {op : RequesterOp ι} (hs : Blocking.request s () op = some s') :
    Sleeps as s' := by
  obtain ⟨hpc, hs⟩ := request_eq_some.mp hs
  have hn : (s.requesters ()).pc ≠ .unblockNotify := by
    rw [hpc]
    exact nofun
  cases op with
  | lock => rw [hs.2]; exact h.setRequester hn (fun _ => id) nofun
  | unlock =>
    rw [hs.2]
    exact h.setRequester hn (fun _ => id) fun a ha => by simp_all
  | blockUnchecked | unblock => rw [hs]; exact h.setRequester hn (fun _ => id) nofun

theorem requesterStep (h : Sleeps as s) (hs : Blocking.requesterStep s () = some s') :
    Sleeps as s' := by
  unfold Blocking.requesterStep at hs
  cases hpc : (s.requesters ()).pc
  case unblockNotify =>
    simp only [hpc] at hs
    cases hs
    refine ⟨fun f hf => ?_, fun a ha => ?_⟩
    · exact absurd hf (s.pc.wake_ne_asleep f)
    · simp [State.goto, State.setRequester] at ha
  case unblockMark a =>
    simp only [hpc] at hs
    cases hs
    refine ⟨fun f _ => .inr ?_, fun b hb => ?_⟩
    · simp [State.goto, State.setRequester]
    · simp [State.goto, State.setRequester] at hb
  all_goals
    have hn : (s.requesters ()).pc ≠ .unblockNotify := by rw [hpc]; simp
    simp only [hpc] at hs
    try cases hs
  case lock | woken => exact h.acquireFor hs hn (by rintro _ ⟨⟩)
  case blockLock | unblockLock =>
    split at hs
    · cases hs; exact h.setRequester hn (fun _ => id) (by rintro _ ⟨⟩)
    · exact h.acquireFor hs hn (by rintro _ ⟨⟩)
  case waitTest a =>
    split
    · next hw =>
      apply h.setRequester hn (fun _ => id)
      intro b hb
      cases hb
      simp only [Bool.and_eq_true, Bool.not_eq_true'] at hw
      exact .inl ⟨hw.1.1, hw.1.2, hw.2⟩
    · exact h.setRequester hn (fun _ => id) (by rintro _ ⟨⟩)
  case blockTerminate | statusCas =>
    split <;> exact h.setRequester hn (fun _ => id) (by rintro _ ⟨⟩)
  case blockNotify a async st =>
    refine ⟨fun f hf => absurd hf (s.pc.wake_ne_asleep f), fun b hb => ?_⟩
    rw [State.goto, State.setRequester] at hb
    revert hb
    simp only [Function.update_self]
    repeat' split
    all_goals simp
  case blockRequest a async | blockClear a | unblockClear a =>
    cases a <;> exact h.setRequester hn (fun _ => id) (by rintro _ ⟨⟩)
  case blockMark a =>
    exact h.setRequester hn (fun _ => a.isBlockedFor_setBlocked) (by rintro _ ⟨⟩)
  all_goals exact h.setRequester hn (fun _ => id) (by rintro _ ⟨⟩)

theorem step (h : Sleeps as s) {l : Label ι Unit} (hs : Blocking.step as s l = some s') :
    Sleeps as s' := by
  cases l with
  | call op => exact h.call hs
  | step => exact h.targetStep hs
  | request r op => exact h.request hs
  | requesterStep r => exact h.requesterStep hs

end Sleeps

section Flags

variable [DecidableEq ι] {s s' : State ι Unit} {i : ι}

/-- What the target may set: a flag it has requested itself, or one that is requested already. -/
structure TargetSets (i : ι) (s s' : State ι Unit) : Prop where
  should : s'.thread.shouldBlockFor i = true →
    s.thread.shouldBlockFor i = true ∨ s.pc = .blockRequest (.flags i)
  blocked : s'.thread.isBlockedFor i = true →
    s.thread.isBlockedFor i = true ∨ s.thread.shouldBlockFor i = true
  locks : ∀ a, s'.pc ≠ .blockLock a
  requests : ∀ a, s'.pc = .blockRequest a → s.pc = .blockLock a

omit [DecidableEq ι] in
theorem TargetSets.of_eq (hr : s'.thread.shouldBlockFor = s.thread.shouldBlockFor)
    (hb : s'.thread.isBlockedFor = s.thread.isBlockedFor) (hl : ∀ a, s'.pc ≠ .blockLock a)
    (hq : ∀ a, s'.pc ≠ .blockRequest a) : TargetSets i s s' :=
  ⟨fun h => .inl (hr ▸ h), fun h => .inl (hb ▸ h), hl, fun a ha => absurd ha (hq a)⟩

theorem TargetSets.acknowledge {pc : Pc ι} (hl : ∀ a, pc ≠ .blockLock a)
    (hq : ∀ a, pc ≠ .blockRequest a) :
    TargetSets i s (s.setThread (s.thread.acknowledgeBlockRequests as).1 pc) := by
  rw [Thread.acknowledgeBlockRequests_fst]
  refine ⟨fun h => .inl ?_, fun h => ?_, hl, fun a ha => absurd ha (hq a)⟩
  · simp [State.setThread] at h
    exact h.1
  · simp [State.setThread] at h
    exact h.imp_right And.left

theorem targetSets_of_targetStep (hs : targetStep as s = some s') : TargetSets i s s' := by
  have hacquire : ∀ {pc : Pc ι}, s.acquire pc = some s' → (∀ a, pc ≠ .blockLock a) →
      (∀ a, pc = .blockRequest a → s.pc = .blockLock a) → TargetSets i s s' := by
    intro pc hs hl hq
    obtain ⟨-, rfl⟩ := State.acquire_eq_some.mp hs
    exact ⟨.inl, .inl, hl, hq⟩
  unfold targetStep at hs
  cases hpc : s.pc
  all_goals simp only [hpc] at hs
  case managed | native | asleep | terminated => cases hs
  case yieldpointLock | enterBlockedLock | woken | terminateLock =>
    exact hacquire hs (by rintro _ ⟨⟩) (by rintro _ ⟨⟩)
  case blockLock a => exact hacquire hs (by rintro _ ⟨⟩) fun b hb => by cases hb; exact hpc
  case checkLock f =>
    cases f with
    | leaveNative => exact hacquire hs (by rintro _ ⟨⟩) (by rintro _ ⟨⟩)
    | yieldpoint | blockSelf => cases hs; exact .of_eq rfl rfl (by rintro _ ⟨⟩) (by rintro _ ⟨⟩)
  case checkUnlock f =>
    cases f <;> cases hs <;> exact .of_eq rfl rfl (by rintro _ ⟨⟩) (by rintro _ ⟨⟩)
  case enterBlockedAcknowledge | checkAcknowledge =>
    cases hs
    refine .acknowledge ?_ ?_ <;> split <;> rintro _ ⟨⟩
  case blockRequest a =>
    cases hs
    refine ⟨fun h => ?_, fun h => .inl ?_, by rintro _ ⟨⟩, by rintro _ ⟨⟩⟩
    · cases a with
      | unit => exact .inl h
      | flags j =>
        by_cases hij : i = j
        · exact .inr (hij.symm ▸ hpc)
        · exact .inl (by simpa [State.setThread, BlockAdapter.requestBlock, hij] using h)
    · cases a <;> exact h
  case yieldpointTake | enterCas | leaveCas | checkBlocked =>
    cases hs
    split <;> exact .of_eq rfl rfl (by rintro _ ⟨⟩) (by rintro _ ⟨⟩)
  case yieldpointEnabled | enterLoad | enableTest =>
    cases hs
    refine .of_eq rfl rfl ?_ ?_ <;> dsimp only <;> split <;> rintro _ ⟨⟩
  case leaveLoad block =>
    cases hs
    refine .of_eq rfl rfl ?_ ?_ <;> dsimp only <;> repeat' split
    all_goals rintro _ ⟨⟩
  all_goals
    cases hs
    exact .of_eq rfl rfl (by rintro _ ⟨⟩) (by rintro _ ⟨⟩)

end Flags

end Blocking

end VmkitCore
