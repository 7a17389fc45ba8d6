import Mathlib.Algebra.Group.Nat.Defs
import Mathlib.Data.Finset.Card
import VmkitCore.Threading.Blocking

/-! # Soft handshakes

Callers of `soft_handshake` each take a snapshot of the threads they include, and
signal them one after the other. The snapshots go through one vector, to which
every call appends and from whose front every call drains. The threads take their
own steps meanwhile, and those that a caller signals are to acknowledge.
-/

namespace VmkitCore.SoftHandshake

/-- The next step of a call of `soft_handshake`. -/
inductive Pc (τ : Type*)
  | idle
  /-- `snapshot_handshake_threads` has returned this number. -/
  | drainLock (numToHandshake : ℕ)
  | loop
  -- the body of the loop
  | threadLock (t : τ) | threadTest (t : τ) | checkAndSignal (t : τ) | blockedStatus (t : τ)
  | isInManaged (t : τ) | request (t : τ) | takeYieldpoint (t : τ) | notifyStuck (t : τ)
  | threadUnlock (t : τ) (waitForThisThread : Bool)
  | countLock | count | countUnlock
  -- the wait, maybe with the monitor of the thread still locked
  | waitLock (guard : Option τ) | waitTest (guard : Option τ) | asleep (guard : Option τ)
  | waitUnlock (guard : Option τ) | dropGuard (t : τ)
  deriving DecidableEq, Repr

/-- The call has begun to drain, and has not returned. -/
def Pc.inLoop {τ : Type*} : Pc τ → Bool
  | .idle | .drainLock _ => false
  | _ => true

/-- A caller, with the threads that its visitor has included and those it has been asked about. -/
structure Call (τ ρ : Type*) where
  pc : Pc τ
  snapshot : List τ
  /-- What `drain` has still to yield; each entry is marked with who has pushed it. -/
  slice : List (ρ × τ)
  /-- Not in the source: the entry that the loop is at, before `check_and_signal`. -/
  current : Option (ρ × τ)
  /-- Not in the source: the entries that `check_and_signal` has been called for. -/
  processed : List (ρ × τ)
  deriving DecidableEq, Repr

structure State (ι τ ρ : Type*) where
  threads : τ → Blocking.State ι ρ
  softHandshakeRequested : τ → Bool
  softHandshakeLeft : ℕ
  softHandshakeDataLock : Option ρ
  handshakeThreads : List (ρ × τ)
  handshakeLock : Option ρ
  calls : ρ → Call τ ρ
  /-- Not in the source: the calls that have included threads but not begun to drain. -/
  undrained : List ρ
  /-- Not in the source: the threads that have been signalled and not acknowledged it. -/
  unacknowledged : Finset τ

inductive Label (ι τ ρ : Type*)
  /-- Any step of a thread, or of those who block it. -/
  | thread (t : τ) (l : Blocking.Label ι ρ)
  | snapshot (r : ρ) (threads : List (Option τ)) (isCollectorThread includeThread : τ → Bool)
  /-- The answer of the visitor's `check_and_signal`. -/
  | checkAndSignal (r : ρ) (signalled : Bool)
  | step (r : ρ)

/-- The threads that `snapshot_handshake_threads` pushes. -/
def snapshotHandshakeThreads {τ : Type*} (threads : List (Option τ))
    (isCollectorThread includeThread : τ → Bool) : List τ :=
  (threads.filterMap id).filter fun t => !isCollectorThread t && includeThread t

variable {ι τ ρ : Type*} [DecidableEq ι] [DecidableEq τ] [DecidableEq ρ]

namespace State

def setThread (s : State ι τ ρ) (t : τ) (c : Blocking.State ι ρ) : State ι τ ρ :=
  { s with threads := Function.update s.threads t c }

def setCall (s : State ι τ ρ) (r : ρ) (c : Call τ ρ) : State ι τ ρ :=
  { s with calls := Function.update s.calls r c }

def goto (s : State ι τ ρ) (r : ρ) (pc : Pc τ) : State ι τ ρ :=
  s.setCall r { s.calls r with pc }

/-- The caller locks the monitor of a thread, maybe under a guard it has already. -/
def lockThread (s : State ι τ ρ) (r : ρ) (t : τ) : Option (State ι τ ρ) :=
  let c := s.threads t
  if (c.requesters r).outer then some s
  else (c.acquireFor r (c.requesters r)).map (s.setThread t)

def unlockThread (s : State ι τ ρ) (r : ρ) (t : τ) : State ι τ ρ :=
  let c := s.threads t
  s.setThread t { c with monitor := if (c.requesters r).outer then c.monitor else none }

def lockData (s : State ι τ ρ) (r : ρ) : Option (State ι τ ρ) :=
  if s.softHandshakeDataLock = none then some { s with softHandshakeDataLock := some r } else none

end State

/-- `is_in_managed` -/
def isInManaged (t : Thread ι) : Bool :=
  !t.isBlocking && !t.isAboutToTerminate &&
    (t.execStatus = .inManaged || t.execStatus = .inManagedToBlock)

/--
The step completes a yieldpoint, enters native code, blocks, or begins to terminate. At each of
these the thread ought to acknowledge.
-/
def Acknowledges (as : List (BlockAdapter ι)) (c : Blocking.State ι ρ) :
    Blocking.Label ι ρ → Bool
  | .step =>
    match c.pc with
    | .yieldpointUnlock | .enterBlockedStatus | .terminateFlag => true
    | .enterCas => c.thread.execStatus = .inManaged
    | .checkBlocked _ => c.thread.isBlocked as
    | _ => false
  | _ => false

/-- Who takes the step, if it is not the thread itself. -/
def requesterOf : Blocking.Label ι ρ → Option ρ
  | .call _ | .step => none
  | .request r _ | .requesterStep r => some r

def threadStep (as : List (BlockAdapter ι)) (s : State ι τ ρ) (t : τ) (l : Blocking.Label ι ρ) :
    Option (State ι τ ρ) :=
  if ∀ r ∈ requesterOf l, (s.calls r).pc = .idle then
    (Blocking.step as (s.threads t) l).map fun c =>
      { s.setThread t c with
        unacknowledged :=
          if Acknowledges as (s.threads t) l then s.unacknowledged.erase t
          else s.unacknowledged }
  else none

def snapshot (s : State ι τ ρ) (r : ρ) (accepted : List τ) : Option (State ι τ ρ) :=
  if (s.calls r).pc = .idle ∧ s.handshakeLock = none then
    some ({ s with
      handshakeThreads := s.handshakeThreads ++ accepted.map (r, ·)
      undrained := if accepted = [] then s.undrained else s.undrained ++ [r] }.setCall r
        ⟨.drainLock accepted.length, accepted, [], none, []⟩)
  else none

/-- The next step of a call after the snapshot. -/
def callStep (s : State ι τ ρ) (r : ρ) : Option (State ι τ ρ) :=
  let c := s.calls r
  match c.pc with
  | .idle | .checkAndSignal _ => none
  | .drainLock n =>
    if s.handshakeLock = none ∧ n ≤ s.handshakeThreads.length then
      some ({ s with
        handshakeLock := some r
        handshakeThreads := s.handshakeThreads.drop n
        undrained := s.undrained.erase r }.setCall r
          { c with pc := .loop, slice := s.handshakeThreads.take n })
    else none
  | .loop =>
    match c.slice with
    | [] => some ({ s with handshakeLock := none }.goto r .idle)
    | e :: slice => some (s.setCall r { c with pc := .threadLock e.2, slice, current := some e })
  | .threadLock t => (s.lockThread r t).map fun s' => s'.goto r (.threadTest t)
  | .threadTest t =>
    some (if (s.threads t).thread.isAboutToTerminate then
      s.setCall r { c with pc := .waitLock (some t), current := none }
    else s.goto r (.checkAndSignal t))
  | .blockedStatus t =>
    let b := s.threads t
    some ((s.setThread t { b with thread := { b.thread with
      execStatus := Blocking.blockedStatus b.thread.execStatus } }).goto r (.isInManaged t))
  | .isInManaged t =>
    some (s.goto r (if isInManaged (s.threads t).thread then .request t else .notifyStuck t))
  | .request t =>
    some ({ s with
      softHandshakeRequested := Function.update s.softHandshakeRequested t true
      unacknowledged := insert t s.unacknowledged }.goto r (.takeYieldpoint t))
  | .takeYieldpoint t =>
    let b := s.threads t
    some ((s.setThread t { b with thread := { b.thread with takeYieldpoint := 1 } }).goto r
      (.threadUnlock t true))
  | .notifyStuck t => some (s.goto r (.threadUnlock t false))
  | .threadUnlock t wait =>
    some ((s.unlockThread r t).goto r (if wait then .countLock else .waitLock none))
  | .countLock => (s.lockData r).map fun s' => s'.goto r .count
  | .count =>
    some ({ s with softHandshakeLeft := (s.softHandshakeLeft + 1) % 2 ^ 64 }.goto r .countUnlock)
  | .countUnlock => some ({ s with softHandshakeDataLock := none }.goto r (.waitLock none))
  -- a guard of a thread that has not been signalled lives to the end of the iteration
  | .waitLock g => (s.lockData r).map fun s' => s'.goto r (.waitTest g)
  | .waitTest g =>
    some (if 0 < s.softHandshakeLeft then
      { s with softHandshakeDataLock := none }.goto r (.asleep g)
    else s.goto r (.waitUnlock g))
  -- nothing notifies this lock
  | .asleep _ => none
  | .waitUnlock g =>
    some ({ s with softHandshakeDataLock := none }.goto r (g.elim .loop .dropGuard))
  | .dropGuard t => some ((s.unlockThread r t).goto r .loop)

def step (as : List (BlockAdapter ι)) (s : State ι τ ρ) : Label ι τ ρ → Option (State ι τ ρ)
  | .thread t l => threadStep as s t l
  | .snapshot r threads isCollectorThread includeThread =>
    snapshot s r (snapshotHandshakeThreads threads isCollectorThread includeThread)
  | .checkAndSignal r signalled =>
    match (s.calls r).pc with
    | .checkAndSignal t =>
      let c := s.calls r
      some (s.setCall r { c with
        pc := if signalled then .blockedStatus t else .waitLock (some t)
        current := none
        processed := c.processed ++ c.current.toList })
    | _ => none
  | .step r => callStep s r

/-- No call has begun, whatever the threads are doing. -/
def State.new (threads : τ → Blocking.State ι ρ) : State ι τ ρ where
  threads
  softHandshakeRequested _ := false
  softHandshakeLeft := 0
  softHandshakeDataLock := none
  handshakeThreads := []
  handshakeLock := none
  calls _ := ⟨.idle, [], [], none, []⟩
  undrained := []
  unacknowledged := ∅

def machine (ι τ ρ : Type*) [DecidableEq ι] [DecidableEq τ] [DecidableEq ρ]
    (as : List (BlockAdapter ι)) : Machine (State ι τ ρ) (Label ι τ ρ) where
  init s := ∃ threads, s = .new threads
  step := step as

end VmkitCore.SoftHandshake
