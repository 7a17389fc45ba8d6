import VmkitCore.Lib.Machine
import VmkitCore.Threading.Thread

/-! # Blocking a thread at yieldpoints

One target thread and any number of requesters, each split into its single
accesses to the cells of the target. The monitor of the target is a reentrant
lock: it is held by one of them, and `notify_all` wakes who sleeps on it.
-/

namespace VmkitCore.Blocking

/-- Who calls `check_block`; all but `leave_native` hold the monitor already. -/
inductive Frame
  | yieldpoint | blockSelf | leaveNative
  deriving DecidableEq, Repr

/-- The next step of the target. -/
inductive Pc (ι : Type*)
  | managed | native
  -- `yieldpoint`
  | yieldpointEnabled | yieldpointDefer | yieldpointReset
  | yieldpointLock | yieldpointTake | yieldpointUnlock
  -- `enter_native`
  | enterLoad | enterCas
  | enterBlockedLock | enterBlockedStatus | enterBlockedAcknowledge | enterBlockedNotify
  | enterBlockedUnlock
  -- `attempt_leave_native_no_block`, called by `leave_native` or not
  | leaveLoad (block : Bool) | leaveCas (block : Bool)
  -- `check_block_no_save_context`
  | checkLock (f : Frame) | checkBlocking (f : Frame) | checkAcknowledge (f : Frame)
  | checkNotify (f : Frame) | checkBlocked (f : Frame) | asleep (f : Frame) | woken (f : Frame)
  | checkStatus (f : Frame) | checkDone (f : Frame) | checkUnlock (f : Frame)
  -- `block_unchecked` of the current thread
  | blockLock (a : BlockAdapter ι) | blockRequest (a : BlockAdapter ι) | blockUnlock
  -- `enable_yieldpoints`
  | enableTest | enableTake | enableClear
  -- `terminate`
  | terminateNotify | terminateLock | terminateFlag | terminateFlagNotify | terminateUnlock
  | terminateManager | terminated
  deriving DecidableEq, Repr

/-- The next step of a requester, with the arguments of its call. -/
inductive RequesterPc (ι : Type*)
  | idle | lock
  -- `block_unchecked` of another thread
  | blockLock (a : BlockAdapter ι) (asynchronous : Bool)
  | blockRequest (a : BlockAdapter ι) (asynchronous : Bool)
  | blockTerminate (a : BlockAdapter ι) (asynchronous : Bool)
  | blockTake (a : BlockAdapter ι) (asynchronous : Bool)
  | statusLoad (a : BlockAdapter ι) (asynchronous : Bool)
  | statusCas (a : BlockAdapter ι) (asynchronous : Bool) (old : ThreadState)
  | blockNotify (a : BlockAdapter ι) (asynchronous : Bool) (st : ThreadState)
  | waitTest (a : BlockAdapter ι) | asleep (a : BlockAdapter ι) | woken (a : BlockAdapter ι)
  | blockClear (a : BlockAdapter ι) | blockMark (a : BlockAdapter ι) | blockUnlock
  -- `unblock`
  | unblockLock (a : BlockAdapter ι) | unblockClear (a : BlockAdapter ι)
  | unblockMark (a : BlockAdapter ι) | unblockNotify | unblockUnlock
  deriving DecidableEq, Repr

/-- Another thread that blocks the target, maybe under a guard of its own for the monitor. -/
structure Requester (ι : Type*) where
  pc : RequesterPc ι
  outer : Bool
  result : ThreadState
  deriving DecidableEq, Repr

inductive Holder (ρ : Type*)
  | target
  | requester (r : ρ)
  deriving DecidableEq, Repr

structure State (ι ρ : Type*) where
  thread : Thread ι
  monitor : Option (Holder ρ)
  pc : Pc ι
  requesters : ρ → Requester ι

/-- What managed or native code of the target may do next. -/
inductive Op (ι : Type*)
  | yieldpoint | enterNative | leaveNative | attemptLeaveNativeNoBlock
  | blockSelf (a : BlockAdapter ι) | enableYieldpoints | disableYieldpoints | terminate
  deriving DecidableEq, Repr

inductive RequesterOp (ι : Type*)
  | lock | unlock
  | blockUnchecked (a : BlockAdapter ι) (asynchronous : Bool)
  | unblock (a : BlockAdapter ι)
  deriving DecidableEq, Repr

inductive Label (ι ρ : Type*)
  | call (op : Op ι)
  | step
  | request (r : ρ) (op : RequesterOp ι)
  | requesterStep (r : ρ)
  deriving DecidableEq, Repr

variable {ι ρ : Type*} [DecidableEq ι] [DecidableEq ρ]

def Pc.wake : Pc ι → Pc ι
  | .asleep f => .woken f
  | pc => pc

def RequesterPc.wake : RequesterPc ι → RequesterPc ι
  | .asleep a => .woken a
  | pc => pc

namespace State

def setThread (s : State ι ρ) (t : Thread ι) (pc : Pc ι) : State ι ρ :=
  { s with thread := t, pc := pc }

def notifyAll (s : State ι ρ) : State ι ρ :=
  { s with
    pc := s.pc.wake
    requesters := fun r => { s.requesters r with pc := (s.requesters r).pc.wake } }

/-- The target locks its free monitor. -/
def acquire (s : State ι ρ) (pc : Pc ι) : Option (State ι ρ) :=
  if s.monitor = none then some { s with monitor := some .target, pc := pc } else none

def setRequester (s : State ι ρ) (r : ρ) (q : Requester ι) : State ι ρ :=
  { s with requesters := Function.update s.requesters r q }

def goto (s : State ι ρ) (r : ρ) (pc : RequesterPc ι) : State ι ρ :=
  s.setRequester r { s.requesters r with pc := pc }

/-- A requester locks the free monitor. -/
def acquireFor (s : State ι ρ) (r : ρ) (q : Requester ι) : Option (State ι ρ) :=
  if s.monitor = none then some ({ s with monitor := some (.requester r) }.setRequester r q)
  else none

section Acquire

variable {s s' : State ι ρ}

omit [DecidableEq ι] [DecidableEq ρ] in
theorem acquire_eq_some {pc : Pc ι} : s.acquire pc = some s' ↔
    s.monitor = none ∧ s' = { s with monitor := some .target, pc := pc } := by
  rw [acquire, Option.ite_none_right_eq_some, Option.some.injEq, eq_comm (b := s')]

omit [DecidableEq ι] in
theorem acquireFor_eq_some {r : ρ} {q : Requester ι} : s.acquireFor r q = some s' ↔
    s.monitor = none ∧ s' = { s with monitor := some (.requester r) }.setRequester r q := by
  rw [acquireFor, Option.ite_none_right_eq_some, Option.some.injEq, eq_comm (b := s')]

end Acquire

/-- A requester drops the guard its call took, and returns. -/
def finish (s : State ι ρ) (r : ρ) : State ι ρ :=
  { s with monitor := if (s.requesters r).outer then s.monitor else none }.goto r .idle

end State

/-- Start an operation from managed code, or from native code. -/
def call (s : State ι ρ) (op : Op ι) : Option (State ι ρ) :=
  match s.pc, op with
  | .managed, .yieldpoint =>
    some (s.setThread { s.thread with atYieldpoint := true } .yieldpointEnabled)
  | .managed, .enterNative => some { s with pc := .enterLoad }
  | .native, .leaveNative => some { s with pc := .leaveLoad true }
  | .native, .attemptLeaveNativeNoBlock => some { s with pc := .leaveLoad false }
  | .managed, .blockSelf a => some { s with pc := .blockLock a }
  | .managed, .enableYieldpoints =>
    some (s.setThread { s.thread with
      yieldpointsEnabledCount := s.thread.yieldpointsEnabledCount + 1 } .enableTest)
  | .managed, .disableYieldpoints =>
    some (s.setThread { s.thread with
      yieldpointsEnabledCount := s.thread.yieldpointsEnabledCount - 1 } .managed)
  | .managed, .terminate => some (s.setThread { s.thread with isJoinable := true } .terminateNotify)
  | _, _ => none

omit [DecidableEq ι] [DecidableEq ρ] in
theorem call_agrees {s s' : State ι ρ} {op : Op ι} (hs : call s op = some s') :
    s'.thread.Agrees s.thread := by
  unfold call at hs
  split at hs <;> cases hs <;> exact ⟨rfl, rfl, rfl, rfl⟩

omit [DecidableEq ι] [DecidableEq ρ] in
theorem call_requesters {s s' : State ι ρ} {op : Op ι} (hs : call s op = some s') :
    s'.requesters = s.requesters := by
  unfold call at hs
  split at hs <;> cases hs <;> rfl

/-- The next access of the target inside an operation. -/
def targetStep (as : List (BlockAdapter ι)) (s : State ι ρ) : Option (State ι ρ) :=
  let t := s.thread
  match s.pc with
  | .managed | .native | .asleep _ | .terminated => none
  | .yieldpointEnabled =>
    some { s with pc := if t.yieldpointsEnabled then .yieldpointLock else .yieldpointDefer }
  | .yieldpointDefer =>
    some (s.setThread { t with yieldpointRequestPending := true } .yieldpointReset)
  | .yieldpointReset =>
    some (s.setThread { t with takeYieldpoint := 0, atYieldpoint := false } .managed)
  | .yieldpointLock => s.acquire .yieldpointTake
  | .yieldpointTake =>
    some (if t.takeYieldpoint ≠ 0 then
      s.setThread { t with takeYieldpoint := 0 } (.checkLock .yieldpoint)
    else { s with pc := .yieldpointUnlock })
  | .yieldpointUnlock =>
    some ({ s with monitor := none }.setThread { t with atYieldpoint := false } .managed)
  | .enterLoad =>
    some { s with pc := if t.execStatus = .inManaged then .enterCas else .enterBlockedLock }
  | .enterCas =>
    some (if t.execStatus = .inManaged then s.setThread { t with execStatus := .inNative } .native
    else { s with pc := .enterLoad })
  | .enterBlockedLock => s.acquire .enterBlockedStatus
  | .enterBlockedStatus =>
    some (s.setThread { t with execStatus := .blockedInNative } .enterBlockedAcknowledge)
  | .enterBlockedAcknowledge =>
    let (t', hadSome) := t.acknowledgeBlockRequests as
    some (s.setThread t' (if hadSome then .enterBlockedNotify else .enterBlockedUnlock))
  | .enterBlockedNotify => some { s.notifyAll with pc := .enterBlockedUnlock }
  | .enterBlockedUnlock => some { s with monitor := none, pc := .native }
  | .leaveLoad block =>
    some { s with pc :=
      if t.execStatus = .inNative then .leaveCas block
      else if block then .checkLock .leaveNative else .native }
  | .leaveCas block =>
    some (if t.execStatus = .inNative then s.setThread { t with execStatus := .inManaged } .managed
    else { s with pc := .leaveLoad block })
  | .checkLock .leaveNative => s.acquire (.checkBlocking .leaveNative)
  | .checkLock f => some { s with pc := .checkBlocking f }
  | .checkBlocking f => some (s.setThread { t with isBlocking := true } (.checkAcknowledge f))
  | .checkAcknowledge f =>
    let (t', hadSome) := t.acknowledgeBlockRequests as
    some (s.setThread t' (if hadSome then .checkNotify f else .checkBlocked f))
  | .checkNotify f => some { s.notifyAll with pc := .checkBlocked f }
  | .checkBlocked f =>
    -- the wait gives up every level of the monitor
    some (if t.isBlocked as then { s with monitor := none, pc := .asleep f }
    else { s with pc := .checkStatus f })
  | .woken f => s.acquire (.checkAcknowledge f)
  | .checkStatus f => some (s.setThread { t with execStatus := .inManaged } (.checkDone f))
  | .checkDone f => some (s.setThread { t with isBlocking := false } (.checkUnlock f))
  | .checkUnlock .yieldpoint => some { s with pc := .yieldpointUnlock }
  | .checkUnlock .blockSelf => some { s with pc := .blockUnlock }
  | .checkUnlock .leaveNative => some { s with monitor := none, pc := .managed }
  | .blockLock a => s.acquire (.blockRequest a)
  | .blockRequest a => some (s.setThread (a.requestBlock t) (.checkLock .blockSelf))
  | .blockUnlock => some { s with monitor := none, pc := .managed }
  | .enableTest =>
    some { s with pc :=
      if t.yieldpointsEnabled && t.yieldpointRequestPending then .enableTake else .managed }
  | .enableTake => some (s.setThread { t with takeYieldpoint := 1 } .enableClear)
  | .enableClear => some (s.setThread { t with yieldpointRequestPending := false } .managed)
  | .terminateNotify => some { s.notifyAll with pc := .terminateLock }
  | .terminateLock => s.acquire .terminateFlag
  | .terminateFlag =>
    some (s.setThread { t with isAboutToTerminate := true, activeMutatorContext := false }
      .terminateFlagNotify)
  | .terminateFlagNotify => some { s.notifyAll with pc := .terminateUnlock }
  | .terminateUnlock => some { s with monitor := none, pc := .terminateManager }
  | .terminateManager => some { s with pc := .terminated }

/-- The target state of `set_blocked_exec_status`. -/
def blockedStatus : ThreadState → ThreadState
  | .inManaged => .inManagedToBlock
  | .inNative => .blockedInNative
  | st => st

def request (s : State ι ρ) (r : ρ) (op : RequesterOp ι) : Option (State ι ρ) :=
  let q := s.requesters r
  if q.pc ≠ .idle then none else
  match op with
  | .lock => if q.outer then none else some (s.goto r .lock)
  | .unlock =>
    if q.outer then some ({ s with monitor := none }.setRequester r { q with outer := false })
    else none
  | .blockUnchecked a async => some (s.goto r (.blockLock a async))
  | .unblock a => some (s.goto r (.unblockLock a))

/-- A requester starts a method only when it is in none; the outer guard is taken at most once. -/
theorem request_eq_some {s s' : State ι ρ} {r : ρ} {op : RequesterOp ι} :
    request s r op = some s' ↔ (s.requesters r).pc = .idle ∧
      match op with
      | .lock => (s.requesters r).outer = false ∧ s' = s.goto r .lock
      | .unlock => (s.requesters r).outer = true ∧
          s' = { s with monitor := none }.setRequester r { s.requesters r with outer := false }
      | .blockUnchecked a async => s' = s.goto r (.blockLock a async)
      | .unblock a => s' = s.goto r (.unblockLock a) := by
  unfold request
  by_cases hpc : (s.requesters r).pc = .idle
  case neg => simp [hpc]
  simp only [hpc, ne_eq, not_true_eq_false, if_false, true_and]
  cases op with
  | lock | unlock => cases (s.requesters r).outer <;> simp [eq_comm]
  | blockUnchecked | unblock => exact Option.some_inj.trans eq_comm

/-- The next access of a requester; a lock it has an outer guard for is entered again. -/
def requesterStep (s : State ι ρ) (r : ρ) : Option (State ι ρ) :=
  let t := s.thread
  let q := s.requesters r
  match q.pc with
  | .idle | .asleep _ => none
  | .lock => s.acquireFor r { q with pc := .idle, outer := true }
  | .blockLock a async =>
    if q.outer then some (s.goto r (.blockRequest a async))
    else s.acquireFor r { q with pc := .blockRequest a async }
  | .blockRequest a async =>
    some ({ s with thread := a.requestBlock t }.goto r (.blockTerminate a async))
  | .blockTerminate a async =>
    some (if t.isAboutToTerminate then
      s.setRequester r { q with pc := .blockUnlock, result := .terminated }
    else s.goto r (.blockTake a async))
  | .blockTake a async =>
    some ({ s with thread := { t with takeYieldpoint := 1 } }.goto r (.statusLoad a async))
  | .statusLoad a async => some (s.goto r (.statusCas a async t.execStatus))
  | .statusCas a async old =>
    some (if t.execStatus = old then
      { s with thread := { t with execStatus := blockedStatus old } }.setRequester r
        { q with pc := .blockNotify a async (blockedStatus old), result := blockedStatus old }
    else s.goto r (.statusLoad a async))
  | .blockNotify a async st =>
    some (s.notifyAll.goto r
      (if st = .inManagedToBlock then if async then .blockUnlock else .waitTest a
      else if st = .blockedInNative then .blockClear a else .blockUnlock))
  | .waitTest a =>
    some (if a.hasBlockRequest t && !a.isBlocked t && !t.isAboutToTerminate then
      { s with monitor := none }.goto r (.asleep a)
    else s.setRequester r { q with
      pc := .blockUnlock
      result := if t.isAboutToTerminate then .terminated else t.execStatus })
  | .woken a => s.acquireFor r { q with pc := .waitTest a }
  | .blockClear a => some ({ s with thread := a.clearBlockRequest t }.goto r (.blockMark a))
  | .blockMark a => some ({ s with thread := a.setBlocked true t }.goto r .blockUnlock)
  | .blockUnlock => some (s.finish r)
  | .unblockLock a =>
    if q.outer then some (s.goto r (.unblockClear a))
    else s.acquireFor r { q with pc := .unblockClear a }
  | .unblockClear a => some ({ s with thread := a.clearBlockRequest t }.goto r (.unblockMark a))
  | .unblockMark a => some ({ s with thread := a.setBlocked false t }.goto r .unblockNotify)
  | .unblockNotify => some (s.notifyAll.goto r .unblockUnlock)
  | .unblockUnlock => some (s.finish r)

def step (as : List (BlockAdapter ι)) (s : State ι ρ) : Label ι ρ → Option (State ι ρ)
  | .call op => call s op
  | .step => targetStep as s
  | .request r op => request s r op
  | .requesterStep r => requesterStep s r

/-- A started thread in managed code, with every requester outside of its calls. -/
def State.started : State ι ρ where
  thread := { Thread.forMutator with execStatus := .inManaged }
  monitor := none
  pc := .managed
  requesters _ := ⟨.idle, false, .inManaged⟩

/-- A target with any list of adapters and any requesters. -/
def machine (as : List (BlockAdapter ι)) : Machine (State ι ρ) (Label ι ρ) where
  init s := s = State.started
  step := step as

end VmkitCore.Blocking
