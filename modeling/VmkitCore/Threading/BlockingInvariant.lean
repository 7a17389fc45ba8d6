import VmkitCore.Threading.Blocking

/-! # The blocking invariant

The next step of each party says who has the monitor, which states the target may
be in, and where a request may still be pending.
-/

namespace VmkitCore.Blocking

variable {ι ρ : Type*}

/-- The target has its monitor at this step. -/
def Pc.holds : Pc ι → Bool
  | .yieldpointTake | .yieldpointUnlock | .enterBlockedStatus | .enterBlockedAcknowledge
  | .enterBlockedNotify | .enterBlockedUnlock | .checkLock .yieldpoint | .checkLock .blockSelf
  | .checkBlocking _ | .checkAcknowledge _ | .checkNotify _ | .checkBlocked _ | .checkStatus _
  | .checkDone _ | .checkUnlock _ | .blockRequest _ | .blockUnlock | .terminateFlag
  | .terminateFlagNotify | .terminateUnlock => true
  | _ => false

/-- Executing managed code, a yieldpoint outside of `check_block` included. -/
def Pc.isManaged : Pc ι → Bool
  | .native | .enterBlockedLock | .enterBlockedStatus | .enterBlockedAcknowledge
  | .enterBlockedNotify | .enterBlockedUnlock | .leaveLoad _ | .leaveCas _ | .checkLock _
  | .checkBlocking _ | .checkAcknowledge _ | .checkNotify _ | .checkBlocked _ | .asleep _ | .woken _
  | .checkStatus _ | .checkDone _ | .checkUnlock _ => false
  | _ => true

def Pc.isNative : Pc ι → Bool
  | .native | .leaveLoad _ | .leaveCas _ => true
  | _ => false

/-- The states the target may be in at this step. -/
def Pc.allows (pc : Pc ι) (st : ThreadState) : Bool :=
  match pc with
  | .enterBlockedAcknowledge | .enterBlockedNotify | .enterBlockedUnlock | .checkLock .leaveNative
  | .checkBlocking .leaveNative | .checkAcknowledge .leaveNative | .checkNotify .leaveNative
  | .checkBlocked .leaveNative | .asleep .leaveNative | .woken .leaveNative
  | .checkStatus .leaveNative =>
    st = .blockedInNative
  | .native | .leaveLoad _ | .leaveCas _ => st = .inNative || st = .blockedInNative
  | _ => st = .inManaged || st = .inManagedToBlock

/-- The target may be blocked at this step. -/
def Pc.mayBlock (pc : Pc ι) (st : ThreadState) : Bool :=
  match pc with
  | .native | .leaveLoad _ | .leaveCas _ => st = .blockedInNative
  | .enterBlockedNotify | .enterBlockedUnlock | .checkLock _ | .checkBlocking _
  | .checkAcknowledge _ | .checkNotify _ | .checkBlocked _ | .asleep _ | .woken _ => true
  | _ => false

/-- The target acknowledges the pending requests before it gives the monitor up. -/
def Pc.willAcknowledge : Pc ι → Bool
  | .enterBlockedAcknowledge | .checkLock _ | .checkBlocking _ | .checkAcknowledge _ => true
  | _ => false

/-- The target has acknowledged and still has the monitor. -/
def Pc.acknowledged : Pc ι → Bool
  | .enterBlockedNotify | .enterBlockedUnlock | .checkNotify _ | .checkBlocked _ | .checkStatus _
  | .checkDone _ | .checkUnlock _ => true
  | _ => false

def Pc.dying : Pc ι → Bool
  | .terminateFlagNotify | .terminateUnlock | .terminateManager | .terminated => true
  | _ => false

/-- The target cannot leave native code without its monitor. -/
def Pc.stuck (pc : Pc ι) (st : ThreadState) : Bool :=
  match pc with
  | .native | .leaveLoad _ | .leaveCas _ => st = .blockedInNative
  | .checkLock .leaveNative | .asleep .leaveNative | .woken .leaveNative => true
  | _ => false

/-- A requester has the monitor at this step, whether or not it has a guard of its own. -/
def RequesterPc.inside : RequesterPc ι → Bool
  | .idle | .lock | .blockLock .. | .unblockLock _ | .asleep _ | .woken _ => false
  | _ => true

def Requester.holds (q : Requester ι) : Bool :=
  match q.pc with
  | .idle | .blockLock .. | .unblockLock _ => q.outer
  | .lock | .asleep _ | .woken _ => false
  | _ => true

variable [DecidableEq ι]

/-- Inside `block_unchecked`, with the request for this adapter made. -/
def RequesterPc.requests (i : ι) : RequesterPc ι → Bool
  | .blockTerminate a _ | .blockTake a _ | .statusLoad a _ | .statusCas a ..
  | .blockNotify a .. | .blockClear a => a = .flags i
  | _ => false

omit [DecidableEq ι] in
/-- What a requester that changed the state of the target relies on. -/
def RequesterPc.Sees (st : ThreadState) (stuck : Bool) : RequesterPc ι → Prop
  | .blockNotify _ _ st' => st = st' ∧ (st = .inManagedToBlock ∨ st = .blockedInNative ∧ stuck)
  | .blockClear _ | .blockMark _ => st = .blockedInNative ∧ stuck
  | _ => True

structure Inv (as : List (BlockAdapter ι)) (s : State ι ρ) : Prop where
  target : s.monitor = some .target ↔ s.pc.holds = true
  requester : ∀ r, s.monitor = some (.requester r) ↔ (s.requesters r).holds = true
  status : s.pc.allows s.thread.execStatus = true
  dying : s.thread.isAboutToTerminate = s.pc.dying
  blocked : ∀ i, .flags i ∈ as → s.thread.isBlockedFor i = true →
    s.pc.mayBlock s.thread.execStatus = true
  pending : ∀ i, .flags i ∈ as → s.thread.shouldBlockFor i = true →
    (∃ r, (s.requesters r).pc.requests i = true) ∨ s.pc.willAcknowledge = true ∨
      s.thread.execStatus = .inManagedToBlock ∨ s.pc.dying = true
  acknowledged : s.pc.acknowledged = true → ∀ i, .flags i ∈ as → s.thread.shouldBlockFor i = false
  sees : ∀ r, (s.requesters r).pc.Sees s.thread.execStatus (s.pc.stuck s.thread.execStatus)

/-- How a step of the target may change who has the monitor. -/
def TargetMonitor (s : State ι ρ) (m : Option (Holder ρ)) (pc : Pc ι) : Prop :=
  m = s.monitor ∧ pc.holds = s.pc.holds ∨
  s.monitor = none ∧ m = some .target ∧ pc.holds = true ∨
  s.pc.holds = true ∧ m = none ∧ pc.holds = false

/-- A step between these leaves the blocking of the target as it is. -/
structure Pc.Follows (pc pc' : Pc ι) (st : ThreadState) : Prop where
  allows : pc'.allows st = true
  dying : pc'.dying = pc.dying
  mayBlock : pc.mayBlock st = true → pc'.mayBlock st = true
  willAcknowledge : pc.willAcknowledge = true → pc'.willAcknowledge = true
  acknowledged : pc'.acknowledged = true → pc.acknowledged = true
  stuck : pc'.holds = false → pc.stuck st = true → pc'.stuck st = true

/-- Steps in managed code that neither acknowledge requests nor end the thread. -/
def Pc.plain : Pc ι → Bool
  | .managed | .yieldpointEnabled | .yieldpointDefer | .yieldpointReset | .yieldpointLock
  | .yieldpointTake | .yieldpointUnlock | .enterLoad | .enterCas | .enterBlockedLock
  | .enterBlockedStatus | .blockLock _ | .blockRequest _ | .blockUnlock | .enableTest
  | .enableTake | .enableClear | .terminateNotify | .terminateLock | .terminateFlag => true
  | _ => false

omit [DecidableEq ι] in
theorem Pc.plain_spec {pc : Pc ι} (h : pc.plain = true) (st : ThreadState) :
    pc.allows st = (decide (st = .inManaged) || decide (st = .inManagedToBlock)) ∧
      pc.dying = false ∧ pc.mayBlock st = false ∧ pc.willAcknowledge = false ∧
      pc.acknowledged = false ∧ pc.stuck st = false := by
  cases pc <;> first | exact ⟨rfl, rfl, rfl, rfl, rfl, rfl⟩ | cases h

omit [DecidableEq ι] in
theorem Pc.Follows.ofPlain {pc pc' : Pc ι} {st : ThreadState} (h : pc.plain = true)
    (h' : pc'.plain = true) (hst : pc.allows st = true) : pc.Follows pc' st := by
  obtain ⟨hall, hd, hb, hw, ha, hs⟩ := Pc.plain_spec h st
  obtain ⟨hall', hd', hb', hw', ha', hs'⟩ := Pc.plain_spec h' st
  exact ⟨by rw [hall', ← hall, hst], by rw [hd, hd'], by simp [hb], by simp [hw], by simp [ha'],
    fun _ => by simp [hs]⟩

/-- How a step of a requester may change who has the monitor. -/
def RequesterMonitor (s : State ι ρ) (r : ρ) (m : Option (Holder ρ)) (q : Requester ι) : Prop :=
  m = s.monitor ∧ q.holds = (s.requesters r).holds ∨
  s.monitor = none ∧ m = some (.requester r) ∧ q.holds = true ∨
  (s.requesters r).holds = true ∧ m = none ∧ q.holds = false

omit [DecidableEq ι] in
theorem Pc.holds_of_acknowledged {pc : Pc ι} (h : pc.acknowledged = true) : pc.holds = true := by
  cases pc <;> first | rfl | cases h

section BlockedStatus

variable {pc : Pc ι} {st : ThreadState}

omit [DecidableEq ι]

theorem Pc.allows_blockedStatus (h : pc.allows st = true) :
    pc.allows (blockedStatus st) = true := by
  unfold Pc.allows at h ⊢
  split <;> cases st <;> simp_all [blockedStatus]

theorem Pc.mayBlock_blockedStatus (h : pc.mayBlock st = true) :
    pc.mayBlock (blockedStatus st) = true := by
  unfold Pc.mayBlock at h ⊢
  split <;> cases st <;> simp_all [blockedStatus]

/-- Once its state is exchanged, a target without its monitor is due to block. -/
theorem Pc.stuck_blockedStatus (hh : pc.holds = false) (h : pc.allows st = true) :
    blockedStatus st = .inManagedToBlock ∨
      blockedStatus st = .blockedInNative ∧ pc.stuck (blockedStatus st) = true := by
  unfold Pc.allows at h
  split at h <;> cases st <;> simp_all [blockedStatus, Pc.stuck, Pc.holds]

theorem Pc.mayBlock_of_stuck (h : pc.stuck st = true) : pc.mayBlock st = true := by
  unfold Pc.stuck at h
  split at h <;> first | exact h | rfl | cases h

end BlockedStatus

section Wake

variable {pc : Pc ι} {q : RequesterPc ι} {st : ThreadState}

omit [DecidableEq ι]

@[simp] theorem wake_holds : pc.wake.holds = pc.holds := by cases pc <;> rfl

@[simp] theorem wake_allows : pc.wake.allows st = pc.allows st := by
  cases pc with
  | asleep f => cases f <;> rfl
  | _ => rfl

@[simp] theorem wake_mayBlock : pc.wake.mayBlock st = pc.mayBlock st := by cases pc <;> rfl

@[simp] theorem wake_willAcknowledge : pc.wake.willAcknowledge = pc.willAcknowledge := by
  cases pc <;> rfl

@[simp] theorem wake_acknowledged : pc.wake.acknowledged = pc.acknowledged := by cases pc <;> rfl

@[simp] theorem wake_dying : pc.wake.dying = pc.dying := by cases pc <;> rfl

@[simp] theorem wake_stuck : pc.wake.stuck st = pc.stuck st := by
  cases pc with
  | asleep f => cases f <;> rfl
  | _ => rfl

@[simp] theorem wake_sees {b : Bool} : q.wake.Sees st b ↔ q.Sees st b := by
  cases q <;> exact Iff.rfl

theorem RequesterPc.Sees.mono {b b' : Bool} (h : q.Sees st b) (hb : b = true → b' = true) :
    q.Sees st b' := by
  cases q with
  | blockNotify a async st' => exact ⟨h.1, h.2.imp_right (And.imp_right hb)⟩
  | blockClear a => exact ⟨h.1, hb h.2⟩
  | blockMark a => exact ⟨h.1, hb h.2⟩
  | _ => trivial

theorem RequesterPc.Sees.of_ne {st' : ThreadState} {b b' : Bool} (h : q.Sees st b)
    (hne : st ≠ .inManagedToBlock) (hne' : st ≠ .blockedInNative) : q.Sees st' b' := by
  cases q with
  | blockNotify a async st' => exact (h.2.elim hne fun he => hne' he.1).elim
  | blockClear a => exact absurd h.1 hne'
  | blockMark a => exact absurd h.1 hne'
  | _ => trivial

theorem wake_requester_holds {outer : Bool} {res : ThreadState} :
    Requester.holds ⟨q.wake, outer, res⟩ = Requester.holds ⟨q, outer, res⟩ := by cases q <;> rfl

end Wake

@[simp] theorem wake_requests {q : RequesterPc ι} {i : ι} : q.wake.requests i = q.requests i := by
  cases q <;> rfl

omit [DecidableEq ι] in
/-- A requester without the monitor relies on nothing. -/
theorem Requester.sees_of_not_holds {q : Requester ι} (h : q.holds = false) (st : ThreadState)
    (b : Bool) : q.pc.Sees st b := by
  unfold Requester.holds at h
  unfold RequesterPc.Sees
  split at h <;> simp_all

theorem Requester.holds_of_requests {q : Requester ι} {i : ι} (h : q.pc.requests i = true) :
    q.holds = true := by
  unfold RequesterPc.requests at h
  unfold Requester.holds
  split at h <;> simp_all

namespace Inv

variable {as : List (BlockAdapter ι)} {s : State ι ρ}

theorem not_holds_of_target (h : Inv as s) (ht : s.pc.holds = true) (r : ρ) :
    (s.requesters r).holds = false := by
  by_contra hr
  have hr := (h.requester r).mpr (by simpa using hr)
  rw [h.target.mpr ht] at hr
  cases hr

theorem not_holds_of_none (h : Inv as s) (hm : s.monitor = none) (r : ρ) :
    (s.requesters r).holds = false := by
  by_contra hr
  have hr := (h.requester r).mpr (by simpa using hr)
  rw [hm] at hr
  cases hr

theorem notifyAll (h : Inv as s) : Inv as s.notifyAll where
  target := by simpa [State.notifyAll] using h.target
  requester r := by simpa [State.notifyAll, wake_requester_holds] using h.requester r
  status := by simpa [State.notifyAll] using h.status
  dying := by simpa [State.notifyAll] using h.dying
  blocked := by simpa [State.notifyAll] using h.blocked
  pending := by simpa [State.notifyAll] using h.pending
  acknowledged := by simpa [State.notifyAll] using h.acknowledged
  sees r := by simpa [State.notifyAll] using h.sees r

/-- A step of the target, given what it leaves behind. -/
theorem target_step (h : Inv as s) {t : Thread ι} {m : Option (Holder ρ)} {pc : Pc ι}
    (hm : TargetMonitor s m pc) (hst : pc.allows t.execStatus = true)
    (hd : t.isAboutToTerminate = pc.dying)
    (hb : ∀ i, .flags i ∈ as → t.isBlockedFor i = true → pc.mayBlock t.execStatus = true)
    (hp : ∀ i, .flags i ∈ as → t.shouldBlockFor i = true →
      (∃ r, (s.requesters r).pc.requests i = true) ∨ pc.willAcknowledge = true ∨
        t.execStatus = .inManagedToBlock ∨ pc.dying = true)
    (ha : pc.acknowledged = true → ∀ i, .flags i ∈ as → t.shouldBlockFor i = false)
    (hs : s.pc.holds = false → pc.holds = false → ∀ r,
      (s.requesters r).pc.Sees t.execStatus (pc.stuck t.execStatus)) :
    Inv as ⟨t, m, pc, s.requesters⟩ := by
  refine ⟨?_, fun r => ?_, hst, hd, hb, hp, ha, fun r => ?_⟩
  · rcases hm with ⟨rfl, hh⟩ | ⟨-, rfl, hh⟩ | ⟨-, rfl, hh⟩
    · simp [h.target, hh]
    · simp [hh]
    · simp [hh]
  · rcases hm with ⟨rfl, -⟩ | ⟨hn, rfl, -⟩ | ⟨ht, rfl, -⟩
    · exact h.requester r
    · simp [h.not_holds_of_none hn r]
    · simp [h.not_holds_of_target ht r]
  · rcases hm with ⟨-, hh⟩ | ⟨hn, -, -⟩ | ⟨ht, -, -⟩
    · cases hpc : s.pc.holds with
      | false => exact hs hpc (hh.trans hpc) r
      | true => exact Requester.sees_of_not_holds (h.not_holds_of_target hpc r) _ _
    · exact Requester.sees_of_not_holds (h.not_holds_of_none hn r) _ _
    · exact Requester.sees_of_not_holds (h.not_holds_of_target ht r) _ _

/-- A step of the target that changes neither its state nor its flags. -/
theorem move (h : Inv as s) {t : Thread ι} {m : Option (Holder ρ)} {pc : Pc ι}
    (hm : TargetMonitor s m pc) (ht : t.Agrees s.thread)
    (hf : s.pc.allows s.thread.execStatus = true → s.pc.Follows pc s.thread.execStatus) :
    Inv as ⟨t, m, pc, s.requesters⟩ := by
  obtain ⟨he, hab, hbl, hsh⟩ := ht
  obtain ⟨hst, hd, hb, hw, ha, hstuck⟩ := hf h.status
  refine h.target_step hm (he ▸ hst) (by rw [hab, h.dying, hd]) (fun i hi hbi => ?_)
    (fun i hi hsi => ?_) (fun hp i hi => hsh ▸ h.acknowledged (ha hp) i hi) (fun _ hn r => ?_)
  · rw [he]
    exact hb (h.blocked i hi (hbl ▸ hbi))
  · rw [he, hd]
    exact (h.pending i hi (hsh ▸ hsi)).imp_right (Or.imp_left hw)
  · rw [he]
    exact (h.sees r).mono (hstuck hn)

/-- A plain step between two plain steps. -/
theorem plain (h : Inv as s) {t : Thread ι} {m : Option (Holder ρ)} {pc : Pc ι}
    (hm : TargetMonitor s m pc) (ht : t.Agrees s.thread) (hs : s.pc.plain = true)
    (hpc : pc.plain = true) : Inv as ⟨t, m, pc, s.requesters⟩ :=
  h.move hm ht (.ofPlain hs hpc)

theorem call (h : Inv as s) {op : Op ι} {s' : State ι ρ} (hs : Blocking.call s op = some s') :
    Inv as s' := by
  unfold Blocking.call at hs
  split at hs <;> try cases hs
  case h_3 hpc | h_4 hpc =>
    refine h.move (.inl ⟨rfl, by rw [hpc]; rfl⟩) ⟨rfl, rfl, rfl, rfl⟩ fun hst => ?_
    rw [hpc] at hst ⊢
    exact ⟨hst, rfl, id, nofun, nofun, fun _ => id⟩
  all_goals
    next hpc =>
    exact h.plain (.inl ⟨rfl, by simp [hpc, Pc.holds]⟩) ⟨rfl, rfl, rfl, rfl⟩ (by rw [hpc]; rfl) rfl

theorem acquire (h : Inv as s) {pc : Pc ι} {s' : State ι ρ} (hs : s.acquire pc = some s')
    (hpc : pc.holds = true)
    (hf : s.pc.allows s.thread.execStatus = true → s.pc.Follows pc s.thread.execStatus) :
    Inv as s' := by
  obtain ⟨hm, rfl⟩ := State.acquire_eq_some.mp hs
  exact h.move (.inr (.inl ⟨hm, rfl, hpc⟩)) ⟨rfl, rfl, rfl, rfl⟩ hf

/-- Acknowledging the pending requests, with the monitor held. -/
theorem acknowledge (h : Inv as s) {pc : Pc ι} (hpc : s.pc.holds = true) (hpc' : pc.holds = true)
    (hst : pc.allows s.thread.execStatus = true) (hd : pc.dying = s.pc.dying)
    (hb : pc.mayBlock s.thread.execStatus = true) :
    Inv as { s with thread := (s.thread.acknowledgeBlockRequests as).1, pc := pc } := by
  rw [Thread.acknowledgeBlockRequests_fst]
  refine h.target_step (.inl ⟨rfl, hpc'.trans hpc.symm⟩) hst (h.dying.trans hd.symm)
    (fun _ _ _ => hb) (fun i hi hsi => ?_) (fun _ i hi => ?_) (fun hn => ?_)
  · simp [hi] at hsi
  · simp [hi]
  · rw [hpc] at hn
    cases hn

/-- A step of the target that changes its state, with its monitor or by a successful exchange. -/
theorem setStatus (h : Inv as s) {st : ThreadState} {pc : Pc ι} (hh : pc.holds = s.pc.holds)
    (hst : pc.allows st = true) (hd : pc.dying = s.pc.dying)
    (hb : s.pc.mayBlock s.thread.execStatus = false)
    (hp : pc.willAcknowledge = true ∨ s.pc.acknowledged = true ∨
      s.pc.willAcknowledge = false ∧ s.pc.dying = false ∧ s.thread.execStatus ≠ .inManagedToBlock)
    (ha : pc.acknowledged = true → s.pc.acknowledged = true)
    (hs : s.pc.holds = true ∨
      s.thread.execStatus ≠ .inManagedToBlock ∧ s.thread.execStatus ≠ .blockedInNative) :
    Inv as { s with thread := { s.thread with execStatus := st }, pc := pc } := by
  refine h.target_step (.inl ⟨rfl, hh⟩) hst (h.dying.trans hd.symm) (fun i hi hbi => ?_)
    (fun i hi hsi => ?_) (fun hpa => h.acknowledged (ha hpa)) (fun hn _ r => ?_)
  · rw [h.blocked i hi hbi] at hb
    cases hb
  · rcases hp with hp | hp | ⟨hw, hdy, hne⟩
    · exact .inr (.inl hp)
    · rw [h.acknowledged hp i hi] at hsi
      cases hsi
    · rcases h.pending i hi hsi with hr | hw' | he | hd'
      · exact .inl hr
      · rw [hw] at hw'; cases hw'
      · exact absurd he hne
      · rw [hdy] at hd'; cases hd'
  · obtain ⟨hne, hne'⟩ : s.thread.execStatus ≠ .inManagedToBlock ∧
        s.thread.execStatus ≠ .blockedInNative := by
      rcases hs with hs | hs
      · rw [hn] at hs; cases hs
      · exact hs
    exact (h.sees r).of_ne hne hne'

/-- `notify_all`, and the target goes on to a step that blocks it no less. -/
theorem targetNotify (h : Inv as s) {pc : Pc ι} (hw : s.pc.wake = s.pc) (hpc : s.pc.holds = true)
    (hpc' : pc.holds = true)
    (hf : s.pc.allows s.thread.execStatus = true → s.pc.Follows pc s.thread.execStatus) :
    Inv as { s.notifyAll with pc := pc } := by
  have hpc₁ : s.notifyAll.pc = s.pc := hw
  exact h.notifyAll.move (.inl ⟨rfl, by rw [hpc₁, hpc, hpc']⟩) ⟨rfl, rfl, rfl, rfl⟩
    (by rw [hpc₁]; exact hf)

/-- The test of `check_block` that lets the target go on. -/
theorem notBlocked (h : Inv as s) {f : Frame} (hpc : s.pc = .checkBlocked f)
    (hb : s.thread.isBlocked as = false) : Inv as { s with pc := .checkStatus f } := by
  have hst := h.status
  have hd := h.dying
  have hack := h.acknowledged
  rw [hpc] at hst hd hack
  refine h.target_step (.inl ⟨rfl, by rw [hpc]; rfl⟩) ?_ hd (fun i hi hbi => ?_)
    (fun i hi hsi => ?_) (fun _ => hack rfl) (fun hn => ?_)
  · cases f <;> exact hst
  · rw [Thread.isBlocked_eq_false hi hb] at hbi
    cases hbi
  · rw [hack rfl i hi] at hsi
    cases hsi
  · rw [hpc] at hn
    cases hn

theorem requestSelf (h : Inv as s) {a : BlockAdapter ι} (hpc : s.pc = .blockRequest a) :
    Inv as (s.setThread (a.requestBlock s.thread) (.checkLock .blockSelf)) := by
  have hst := h.status
  have hd := h.dying
  have hb := h.blocked
  rw [hpc] at hst hd hb
  have hm : TargetMonitor s s.monitor (.checkLock .blockSelf) := .inl ⟨rfl, by rw [hpc]; rfl⟩
  refine h.target_step hm ?_ ?_ (fun _ _ _ => rfl) (fun _ _ _ => .inr (.inl rfl)) nofun
    (fun _ => nofun)
  · cases a <;> exact hst
  · cases a <;> exact hd

theorem dies (h : Inv as s) {t : Thread ι} (hpc : s.pc = .terminateFlag)
    (he : t.execStatus = s.thread.execStatus) (hab : t.isAboutToTerminate = true)
    (hbl : t.isBlockedFor = s.thread.isBlockedFor) :
    Inv as (s.setThread t .terminateFlagNotify) := by
  have hst := h.status
  have hb := h.blocked
  rw [hpc] at hst hb
  refine h.target_step (.inl ⟨rfl, by rw [hpc]; rfl⟩) (he ▸ hst) hab (fun i hi hbi => ?_)
    (fun _ _ _ => .inr (.inr (.inr rfl))) nofun (fun hn => ?_)
  · rw [hbl] at hbi
    exact absurd (hb i hi hbi) nofun
  · rw [hpc] at hn
    cases hn

theorem targetStep (h : Inv as s) {s' : State ι ρ} (hs : Blocking.targetStep as s = some s') :
    Inv as s' := by
  have hst := h.status
  unfold Blocking.targetStep at hs
  cases hpc : s.pc
  all_goals
    simp only [hpc] at hs hst
    try cases hs
  case yieldpointDefer | yieldpointReset | enableTake | enableClear =>
    exact h.plain (.inl ⟨rfl, by rw [hpc]; rfl⟩) ⟨rfl, rfl, rfl, rfl⟩ (by rw [hpc]; rfl) rfl
  case yieldpointEnabled | enterLoad | enableTest =>
    exact h.plain (.inl ⟨rfl, by rw [hpc]; split <;> rfl⟩) ⟨rfl, rfl, rfl, rfl⟩
      (by rw [hpc]; rfl) (by split <;> rfl)
  case yieldpointLock | enterBlockedLock | blockLock | terminateLock =>
    exact h.acquire hs rfl (.ofPlain (by rw [hpc]; rfl) rfl)
  case yieldpointUnlock | blockUnlock =>
    exact h.plain (.inr (.inr ⟨by rw [hpc]; rfl, rfl, rfl⟩)) ⟨rfl, rfl, rfl, rfl⟩
      (by rw [hpc]; rfl) rfl
  case terminateNotify =>
    have hpc' : s.notifyAll.pc = .terminateNotify := by rw [State.notifyAll, hpc]; rfl
    exact h.notifyAll.plain (.inl ⟨rfl, by rw [hpc']; rfl⟩) ⟨rfl, rfl, rfl, rfl⟩
      (by rw [hpc']; rfl) rfl
  case yieldpointTake =>
    split
    · refine h.move (.inl ⟨rfl, by rw [hpc]; rfl⟩) ⟨rfl, rfl, rfl, rfl⟩ fun _ => ?_
      rw [hpc]
      exact ⟨hst, rfl, nofun, nofun, nofun, nofun⟩
    · exact h.plain (.inl ⟨rfl, by rw [hpc]; rfl⟩) ⟨rfl, rfl, rfl, rfl⟩ (by rw [hpc]; rfl) rfl
  case enterCas =>
    split
    · next he =>
      refine h.setStatus (by rw [hpc]; rfl) rfl (by rw [hpc]; rfl) (by rw [hpc]; rfl)
        (.inr (.inr ?_)) nofun (.inr ?_)
      · simp [hpc, he, Pc.willAcknowledge, Pc.dying]
      · simp [he]
    · exact h.plain (.inl ⟨rfl, by rw [hpc]; rfl⟩) ⟨rfl, rfl, rfl, rfl⟩ (by rw [hpc]; rfl) rfl
  case enterBlockedStatus =>
    exact h.setStatus (by rw [hpc]; rfl) rfl (by rw [hpc]; rfl) (by rw [hpc]; rfl) (.inl rfl)
      nofun (.inl (by rw [hpc]; rfl))
  case enterBlockedAcknowledge =>
    exact h.acknowledge (by rw [hpc]; rfl) (by split <;> rfl) (by split <;> exact hst)
      (by rw [hpc]; split <;> rfl) (by split <;> rfl)
  case enterBlockedNotify =>
    apply h.targetNotify (by rw [hpc]; rfl) (by rw [hpc]; rfl) rfl
    intro _
    rw [hpc]
    exact ⟨hst, rfl, fun _ => rfl, nofun, fun _ => rfl, nofun⟩
  case enterBlockedUnlock =>
    refine h.move (.inr (.inr ⟨by rw [hpc]; rfl, rfl, rfl⟩)) ⟨rfl, rfl, rfl, rfl⟩ fun _ => ?_
    rw [hpc]
    exact ⟨Bool.or_eq_true_iff.mpr (.inr hst), rfl, fun _ => hst, nofun, nofun, fun _ => nofun⟩
  case leaveLoad block =>
    have hmove : ∀ pc : Pc ι, pc.holds = false → (Pc.leaveLoad block).Follows pc
        s.thread.execStatus → Inv as { s with pc := pc } := fun pc hn hf =>
      h.move (.inl ⟨rfl, by rw [hpc, hn]; rfl⟩) ⟨rfl, rfl, rfl, rfl⟩ fun _ => hpc ▸ hf
    split
    · exact hmove _ rfl ⟨hst, rfl, id, nofun, nofun, fun _ => id⟩
    · next he =>
      split
      · have hb : s.thread.execStatus = .blockedInNative := by simpa [Pc.allows, he] using hst
        exact hmove _ rfl ⟨decide_eq_true hb, rfl, fun _ => rfl, nofun, nofun, fun _ _ => rfl⟩
      · exact hmove _ rfl ⟨hst, rfl, id, nofun, nofun, fun _ => id⟩
  case leaveCas block =>
    split
    · next he =>
      refine h.setStatus (by rw [hpc]; rfl) rfl (by rw [hpc]; rfl) (by rw [hpc, he]; rfl)
        (.inr (.inr ?_)) nofun (.inr ?_)
      · simp [hpc, he, Pc.willAcknowledge, Pc.dying]
      · simp [he]
    · refine h.move (.inl ⟨rfl, by rw [hpc]; rfl⟩) ⟨rfl, rfl, rfl, rfl⟩ fun _ => ?_
      rw [hpc]
      exact ⟨hst, rfl, id, nofun, nofun, fun _ => id⟩
  case checkLock f =>
    cases f with
    | leaveNative =>
      apply h.acquire hs rfl
      intro _
      rw [hpc]
      exact ⟨hst, rfl, fun _ => rfl, fun _ => rfl, nofun, nofun⟩
    | yieldpoint | blockSelf =>
      cases hs
      refine h.move (.inl ⟨rfl, by rw [hpc]; rfl⟩) ⟨rfl, rfl, rfl, rfl⟩ fun _ => ?_
      rw [hpc]
      exact ⟨hst, rfl, fun _ => rfl, fun _ => rfl, nofun, nofun⟩
  case checkBlocking f =>
    refine h.move (.inl ⟨rfl, by rw [hpc]; rfl⟩) ⟨rfl, rfl, rfl, rfl⟩ fun _ => ?_
    rw [hpc]
    exact ⟨by cases f <;> exact hst, rfl, fun _ => rfl, fun _ => rfl, nofun, nofun⟩
  case checkAcknowledge f =>
    exact h.acknowledge (by rw [hpc]; rfl) (by split <;> rfl)
      (by split <;> cases f <;> exact hst) (by rw [hpc]; split <;> rfl) (by split <;> rfl)
  case checkNotify f =>
    apply h.targetNotify (by rw [hpc]; rfl) (by rw [hpc]; rfl) rfl
    intro _
    rw [hpc]
    exact ⟨by cases f <;> exact hst, rfl, fun _ => rfl, nofun, fun _ => rfl, nofun⟩
  case checkBlocked f =>
    split
    · refine h.move (.inr (.inr ⟨by rw [hpc]; rfl, rfl, rfl⟩)) ⟨rfl, rfl, rfl, rfl⟩ fun _ => ?_
      rw [hpc]
      exact ⟨by cases f <;> exact hst, rfl, fun _ => rfl, nofun, nofun, nofun⟩
    · next hb => exact h.notBlocked hpc (by simpa using hb)
  case woken f =>
    apply h.acquire hs rfl
    intro _
    rw [hpc]
    exact ⟨by cases f <;> exact hst, rfl, fun _ => rfl, nofun, nofun, nofun⟩
  case checkStatus f =>
    exact h.setStatus (by rw [hpc]; rfl) (by cases f <;> rfl) (by rw [hpc]; rfl) (by rw [hpc]; rfl)
      (.inr (.inl (by rw [hpc]; rfl))) (fun _ => by rw [hpc]; rfl) (.inl (by rw [hpc]; rfl))
  case checkDone f =>
    refine h.move (.inl ⟨rfl, by rw [hpc]; rfl⟩) ⟨rfl, rfl, rfl, rfl⟩ fun _ => ?_
    rw [hpc]
    exact ⟨hst, rfl, nofun, nofun, fun _ => rfl, nofun⟩
  case checkUnlock f =>
    cases f with
    | leaveNative =>
      cases hs
      refine h.move (.inr (.inr ⟨by rw [hpc]; rfl, rfl, rfl⟩)) ⟨rfl, rfl, rfl, rfl⟩ fun _ => ?_
      rw [hpc]
      exact ⟨hst, rfl, nofun, nofun, nofun, nofun⟩
    | yieldpoint | blockSelf =>
      cases hs
      refine h.move (.inl ⟨rfl, by rw [hpc]; rfl⟩) ⟨rfl, rfl, rfl, rfl⟩ fun _ => ?_
      rw [hpc]
      exact ⟨hst, rfl, nofun, nofun, nofun, nofun⟩
  case blockRequest a => exact h.requestSelf hpc
  case terminateFlag => exact h.dies hpc (by rfl) (by rfl) (by rfl)
  case terminateFlagNotify =>
    apply h.targetNotify (by rw [hpc]; rfl) (by rw [hpc]; rfl) rfl
    intro _
    rw [hpc]
    exact ⟨hst, rfl, nofun, nofun, nofun, nofun⟩
  case terminateUnlock =>
    refine h.move (.inr (.inr ⟨by rw [hpc]; rfl, rfl, rfl⟩)) ⟨rfl, rfl, rfl, rfl⟩ fun _ => ?_
    rw [hpc]
    exact ⟨hst, rfl, nofun, nofun, nofun, nofun⟩
  case terminateManager =>
    refine h.move (.inl ⟨rfl, by rw [hpc]; rfl⟩) ⟨rfl, rfl, rfl, rfl⟩ fun _ => ?_
    rw [hpc]
    exact ⟨hst, rfl, nofun, nofun, nofun, nofun⟩

theorem started (as : List (BlockAdapter ι)) : Inv as (State.started : State ι ρ) where
  target := ⟨nofun, nofun⟩
  requester _ := ⟨nofun, nofun⟩
  status := rfl
  dying := rfl
  blocked _ _ := nofun
  pending _ _ := nofun
  acknowledged := nofun
  sees _ := trivial

end Inv

end VmkitCore.Blocking
