import VmkitCore.Threading.BlockingSafety

/-! # What stays as it is

A thread that is about to terminate stays so, and a thread that is blocked stays
blocked until somebody unblocks it. A call of `block_unchecked` answers that the
thread is not running only when it is about to terminate.
-/

namespace VmkitCore.Blocking

variable {ι ρ : Type*}

def RequesterPc.isUnblock : RequesterPc ι → Bool
  | .unblockLock _ | .unblockClear _ | .unblockMark _ | .unblockNotify | .unblockUnlock => true
  | _ => false

theorem Pc.running_of_allows {pc : Pc ι} {st : ThreadState} (h : pc.allows st = true) :
    st.notRunning = false := by
  unfold Pc.allows at h
  split at h <;> cases st <;> simp_all [ThreadState.notRunning]

/-- From one state to a later one, without an `unblock` in between. -/
structure Evolves (s s' : State ι ρ) : Prop where
  aboutToTerminate : s.thread.isAboutToTerminate = true → s'.thread.isAboutToTerminate = true
  blocked : ∀ i, s.thread.isBlockedFor i = true → s'.thread.isBlockedFor i = true
  unblocks : ∀ r, (s'.requesters r).pc.isUnblock = true → (s.requesters r).pc.isUnblock = true
  result : ∀ r, (s'.requesters r).result.notRunning = true →
    (s.requesters r).result.notRunning = true ∨ s'.thread.isAboutToTerminate = true

namespace Evolves

variable {s s' s'' : State ι ρ}

theorem refl : Evolves s s := ⟨id, fun _ => id, fun _ => id, fun _ => .inl⟩

theorem of_eq (ha : s'.thread.isAboutToTerminate = s.thread.isAboutToTerminate)
    (hb : s'.thread.isBlockedFor = s.thread.isBlockedFor) (hr : s'.requesters = s.requesters) :
    Evolves s s' :=
  ⟨fun h => ha.trans h, fun _ h => hb ▸ h, fun _ h => hr ▸ h, fun _ h => .inl (hr ▸ h)⟩

theorem trans (h : Evolves s s') (h' : Evolves s' s'') : Evolves s s'' where
  aboutToTerminate ha := h'.aboutToTerminate (h.aboutToTerminate ha)
  blocked i hi := h'.blocked i (h.blocked i hi)
  unblocks r hr := h.unblocks r (h'.unblocks r hr)
  result r hr := by
    rcases h'.result r hr with hr | ha
    · exact (h.result r hr).imp_right h'.aboutToTerminate
    · exact .inr ha

theorem notifyAll : Evolves s s.notifyAll where
  aboutToTerminate := id
  blocked _ := id
  unblocks r h := by
    cases hpc : (s.requesters r).pc <;> simp_all [State.notifyAll, RequesterPc.wake,
      RequesterPc.isUnblock]
  result _ := .inl

theorem acquire {pc : Pc ι} (hs : s.acquire pc = some s') : Evolves s s' := by
  obtain ⟨-, rfl⟩ := State.acquire_eq_some.mp hs
  exact .of_eq rfl rfl rfl

theorem call {op : Op ι} (hs : Blocking.call s op = some s') : Evolves s s' :=
  .of_eq (call_agrees hs).isAboutToTerminate (call_agrees hs).isBlockedFor (call_requesters hs)

variable [DecidableEq ι] {as : List (BlockAdapter ι)}

theorem acknowledge {pc : Pc ι} :
    Evolves s (s.setThread (s.thread.acknowledgeBlockRequests as).1 pc) where
  aboutToTerminate := by simp [State.setThread, Thread.acknowledgeBlockRequests_fst]
  blocked i h := by simp [State.setThread, Thread.acknowledgeBlockRequests_fst, h]
  unblocks _ := id
  result _ := .inl

theorem targetStep (hs : Blocking.targetStep as s = some s') : Evolves s s' := by
  unfold Blocking.targetStep at hs
  cases hpc : s.pc
  all_goals
    simp only [hpc] at hs
    try cases hs
  case yieldpointLock | enterBlockedLock | woken | blockLock | terminateLock => exact acquire hs
  case enterBlockedAcknowledge | checkAcknowledge => exact acknowledge
  case checkLock f =>
    cases f with
    | leaveNative => exact acquire hs
    | yieldpoint | blockSelf => cases hs; exact .of_eq rfl rfl rfl
  case checkUnlock f => cases f <;> cases hs <;> exact .of_eq rfl rfl rfl
  case blockRequest a => cases a <;> exact .of_eq rfl rfl rfl
  case enterBlockedNotify | checkNotify | terminateNotify | terminateFlagNotify =>
    exact notifyAll.trans (.of_eq rfl rfl rfl)
  case terminateFlag => exact ⟨fun _ => rfl, fun _ => id, fun _ => id, fun _ => .inl⟩
  case yieldpointTake | enterCas | leaveCas | checkBlocked => split <;> exact .of_eq rfl rfl rfl
  all_goals exact .of_eq rfl rfl rfl

variable [DecidableEq ρ]

omit [DecidableEq ι] in
/-- Changing one requester, to a step that does not unblock. -/
theorem setRequester {r : ρ} {t : Thread ι} {m : Option (Holder ρ)} {q : Requester ι}
    (ht : t.isAboutToTerminate = s.thread.isAboutToTerminate)
    (hb : ∀ i, s.thread.isBlockedFor i = true → t.isBlockedFor i = true)
    (hq : q.pc.isUnblock = true → (s.requesters r).pc.isUnblock = true)
    (hres : q.result.notRunning = true →
      (s.requesters r).result.notRunning = true ∨ s.thread.isAboutToTerminate = true) :
    Evolves s ⟨t, m, s.pc, Function.update s.requesters r q⟩ where
  aboutToTerminate h := ht.trans h
  blocked := hb
  unblocks u h := by
    by_cases hu : u = r
    · subst hu; exact hq (by simpa using h)
    · simpa [hu] using h
  result u h := by
    by_cases hu : u = r
    · subst hu; exact (hres (by simpa using h)).imp_right ht.trans
    · exact .inl (by simpa [hu] using h)

omit [DecidableEq ι] in
theorem acquireFor {r : ρ} {q : Requester ι} (hs : s.acquireFor r q = some s')
    (hq : q.pc.isUnblock = true → (s.requesters r).pc.isUnblock = true)
    (hres : q.result = (s.requesters r).result) : Evolves s s' := by
  obtain ⟨-, rfl⟩ := State.acquireFor_eq_some.mp hs
  exact setRequester rfl (fun _ => id) hq fun h => .inl (hres ▸ h)

theorem request {r : ρ} {op : RequesterOp ι} (hs : Blocking.request s r op = some s')
    (hop : ∀ a, op ≠ .unblock a) : Evolves s s' := by
  obtain ⟨-, hs⟩ := request_eq_some.mp hs
  cases op with
  | lock => rw [hs.2]; exact setRequester rfl (fun _ => id) nofun .inl
  | unlock => rw [hs.2]; exact setRequester rfl (fun _ => id) id .inl
  | blockUnchecked a async => rw [hs]; exact setRequester rfl (fun _ => id) nofun .inl
  | unblock a => exact absurd rfl (hop a)

/-- A requester that is not unblocking, in a state the invariant holds in. -/
theorem requesterStep (h : Inv as s) {r : ρ} (hs : Blocking.requesterStep s r = some s')
    (hr : (s.requesters r).pc.isUnblock = false) : Evolves s s' := by
  have hst := Pc.running_of_allows h.status
  unfold Blocking.requesterStep at hs
  cases hpc : (s.requesters r).pc
  all_goals
    simp only [hpc] at hs hr
    try cases hs
    try cases hr
  case lock | woken => exact acquireFor hs (absurd · Bool.false_ne_true) rfl
  case blockLock a async =>
    split at hs
    · cases hs; exact setRequester rfl (fun _ => id) (absurd · Bool.false_ne_true) .inl
    · exact acquireFor hs (absurd · Bool.false_ne_true) rfl
  case blockRequest a async =>
    cases a <;> exact setRequester rfl (fun _ => id) (absurd · Bool.false_ne_true) .inl
  case blockTerminate a async =>
    split
    · next hab =>
      exact setRequester rfl (fun _ => id) (absurd · Bool.false_ne_true) fun _ => .inr hab
    · exact setRequester rfl (fun _ => id) (absurd · Bool.false_ne_true) .inl
  case statusCas a async old =>
    split
    · next he =>
      refine setRequester rfl (fun _ => id) (absurd · Bool.false_ne_true) fun hn => ?_
      subst he
      cases hold : s.thread.execStatus <;> simp_all [blockedStatus, ThreadState.notRunning]
    · exact setRequester rfl (fun _ => id) (absurd · Bool.false_ne_true) .inl
  case blockNotify a async st =>
    refine notifyAll.trans (setRequester rfl (fun _ => id) ?_ .inl)
    repeat' split
    all_goals exact (absurd · Bool.false_ne_true)
  case waitTest a =>
    split
    · exact setRequester rfl (fun _ => id) (absurd · Bool.false_ne_true) .inl
    · refine setRequester rfl (fun _ => id) (absurd · Bool.false_ne_true) fun hn => ?_
      split at hn
      · next hab => exact .inr hab
      · rw [hst] at hn; cases hn
  case blockClear a =>
    cases a <;> exact setRequester rfl (fun _ => id) (absurd · Bool.false_ne_true) .inl
  case blockMark a =>
    exact setRequester (by cases a <;> rfl) (fun _ => a.isBlockedFor_setBlocked)
      (absurd · Bool.false_ne_true) .inl
  all_goals exact setRequester rfl (fun _ => id) (absurd · Bool.false_ne_true) .inl

end Evolves

section Unblock

variable [DecidableEq ι] [DecidableEq ρ] {as : List (BlockAdapter ι)} {s s' : State ι ρ} {r : ρ}

omit [DecidableEq ι] in
theorem acquireFor_result {q : Requester ι} (hs : s.acquireFor r q = some s') :
    s'.thread = s.thread ∧ s'.requesters r = q := by
  obtain ⟨-, rfl⟩ := State.acquireFor_eq_some.mp hs
  simp [State.setRequester]

/-- `unblock` takes the lock before it touches the target. -/
theorem unblockLock_result {a : BlockAdapter ι} (hpc : (s.requesters r).pc = .unblockLock a)
    (hs : requesterStep s r = some s') :
    s'.thread = s.thread ∧ s'.pc = s.pc ∧
      s'.requesters r = { s.requesters r with pc := .unblockClear a } := by
  simp only [requesterStep, hpc] at hs
  split at hs
  · cases hs
    simp [State.goto, State.setRequester]
  · obtain ⟨ht, hq⟩ := acquireFor_result hs
    exact ⟨ht, acquireFor_pc hs, hq⟩

theorem unblockStep_result (hs : requesterStep s r = some s')
    (hr : (s.requesters r).pc.isUnblock = true) :
    s'.thread.isAboutToTerminate = s.thread.isAboutToTerminate ∧
      (s'.requesters r).result = (s.requesters r).result := by
  unfold requesterStep at hs
  cases hpc : (s.requesters r).pc
  all_goals
    simp only [hpc] at hs hr
    try cases hs
    try cases hr
  case unblockLock a =>
    split at hs
    · cases hs; simp [State.goto, State.setRequester]
    · obtain ⟨ht, hq⟩ := acquireFor_result hs
      rw [ht, hq]
      exact ⟨rfl, rfl⟩
  case unblockClear a | unblockMark a =>
    exact ⟨by cases a <;> rfl, by simp [State.goto, State.setRequester]⟩
  case unblockNotify =>
    exact ⟨rfl, by simp [State.goto, State.setRequester, State.notifyAll]⟩
  case unblockUnlock => exact ⟨rfl, by simp [State.finish, State.goto, State.setRequester]⟩

omit [DecidableEq ρ] in
/-- A blocked thread is not about to terminate. -/
theorem Inv.not_dying (h : Inv as s) {i : ι} (hi : .flags i ∈ as)
    (hb : s.thread.isBlockedFor i = true) : s.thread.isAboutToTerminate = false := by
  have hm := h.blocked i hi hb
  rw [h.dying]
  cases hpc : s.pc <;> rw [hpc] at hm <;> first | rfl | cases hm

end Unblock

section Requesters

variable {s s' : State ι ρ}

theorem RequesterPc.wake_eq_self {q : RequesterPc ι} (h : ∀ a, q ≠ .asleep a) : q.wake = q := by
  cases q with
  | asleep a => exact absurd rfl (h a)
  | _ => rfl

/-- Who is not asleep stays where it is if the requesters are left alone, or woken. -/
theorem requester_pc_eq {r : ρ}
    (hq : s'.requesters = s.requesters ∨ s'.requesters = s.notifyAll.requesters)
    (hr : ∀ a, (s.requesters r).pc ≠ .asleep a) : (s'.requesters r).pc = (s.requesters r).pc := by
  rcases hq with hq | hq
  · rw [hq]
  · rw [hq]
    exact RequesterPc.wake_eq_self hr

/-- The target leaves its requesters alone, or wakes them. -/
theorem targetStep_requesters [DecidableEq ι] {as : List (BlockAdapter ι)}
    (hs : targetStep as s = some s') :
    s'.requesters = s.requesters ∨ s'.requesters = s.notifyAll.requesters := by
  have hacquire : ∀ {pc : Pc ι}, s.acquire pc = some s' → s'.requesters = s.requesters := by
    intro pc hs
    obtain ⟨-, rfl⟩ := State.acquire_eq_some.mp hs
    rfl
  unfold targetStep at hs
  cases hpc : s.pc
  all_goals simp only [hpc] at hs
  case managed | native | asleep | terminated => cases hs
  case yieldpointLock | enterBlockedLock | woken | blockLock | terminateLock =>
    exact .inl (hacquire hs)
  case checkLock f =>
    cases f with
    | leaveNative => exact .inl (hacquire hs)
    | yieldpoint | blockSelf => cases hs; exact .inl rfl
  case checkUnlock f => cases f <;> cases hs <;> exact .inl rfl
  case yieldpointTake | enterCas | leaveCas | checkBlocked =>
    cases hs
    split <;> exact .inl rfl
  case enterBlockedNotify | checkNotify | terminateNotify | terminateFlagNotify =>
    cases hs
    exact .inr rfl
  all_goals cases hs; exact .inl rfl

end Requesters

end VmkitCore.Blocking
