import Mathlib.Algebra.Group.Nat.Defs
import VmkitCore.Lib.Machine

/-! # Suspending threads by signals

The collector suspends and resumes threads one after the other: it sends a signal,
and waits on a semaphore that the signal handler posts. Threads register, run and
end meanwhile, and handle a signal at any later point. Ended threads keep their
slots in the table.
-/

namespace VmkitCore.Suspension

/-- The next step of `signal_handler_suspend_resume`, in the innermost frame. -/
inductive HandlerPc (τ : Type*)
  | outside
  | entry | save (thread : τ)
  -- the answer from an alternative signal stack
  | retry
  -- `parked` is `sigsuspend`
  | post | parked | woken | resumePost
  deriving DecidableEq, Repr

structure Thread (τ : Type*) where
  platformHandle : Bool
  isAboutToTerminate : Bool
  exited : Bool
  suspendCount : ℕ
  stackPointer : ℕ
  /-- A signal has been sent and not delivered. -/
  signal : Bool
  handler : HandlerPc τ
  /-- How many outer frames of the handler wait in `sigsuspend`. -/
  frames : ℕ
  /-- Not in the source: the calls of `suspend` and `resume` that have counted. -/
  suspends : ℕ
  resumes : ℕ
  deriving DecidableEq, Repr

/-- The next step of `Thread::suspend`. -/
inductive SuspendPc
  | load | handle | target | kill | wait | test | add
  deriving DecidableEq, Repr

/-- The next step of `Thread::resume`. -/
inductive ResumePc
  | load | target | kill | wait | sub
  deriving DecidableEq, Repr

/-- The next step of the collector, with the threads it still has to look at. -/
inductive CollectorPc (τ : Type*)
  | idle
  -- `block_all_mutators_for_gc`
  | scan | block (todo handshakeThreads : List τ)
  | suspending (pc : SuspendPc) (t : τ) (todo handshakeThreads : List τ)
  | returned (handshakeThreads : List τ)
  -- `unblock_all_mutators_for_gc`
  | unblock (todo : List τ) | resuming (pc : ResumePc) (t : τ) (todo : List τ)
  deriving DecidableEq, Repr

structure State (τ : Type*) where
  threads : τ → Thread τ
  table : List τ
  /-- `TARGET_THREAD` -/
  target : Option τ
  /-- `GLOBAL_SEMAPHORE_FOR_SUSPEND_RESUME` -/
  semaphore : ℕ
  collector : CollectorPc τ

inductive Label (τ : Type*)
  -- `add_thread`, and the platform handle that `startoff` sets after it
  | register (t : τ) | establish (t : τ)
  | terminate (t : τ) | exit (t : τ)
  | deliver (t : τ) | handler (t : τ) (sp : ℕ)
  | collector
  deriving DecidableEq, Repr

/-- The fixed attributes of the threads. -/
structure Config (τ : Type*) where
  isCollectorThread : τ → Bool
  ignoreHandshakesAndGc : τ → Bool

def Config.isMutator {τ : Type*} (cfg : Config τ) (t : τ) : Bool :=
  !cfg.isCollectorThread t && !cfg.ignoreHandshakesAndGc t

/-- `AtomicUsize::fetch_add` of one -/
def fetchAdd (n : ℕ) : ℕ := (n + 1) % 2 ^ 64

/-- `AtomicUsize::fetch_sub` of one -/
def fetchSub (n : ℕ) : ℕ := (n + 2 ^ 64 - 1) % 2 ^ 64

/-- Leave the innermost frame of the handler; the signal also ends an outer `sigsuspend`. -/
def Thread.leaveHandler {τ : Type*} (c : Thread τ) : Thread τ :=
  match c.frames with
  | 0 => { c with handler := .outside }
  | n + 1 => { c with handler := .woken, frames := n }

variable {τ : Type*} [DecidableEq τ]

namespace State

def modify (s : State τ) (t : τ) (f : Thread τ → Thread τ) : State τ :=
  { s with threads := Function.update s.threads t (f (s.threads t)) }

def goto (s : State τ) (pc : CollectorPc τ) : State τ := { s with collector := pc }

def post (s : State τ) : State τ := { s with semaphore := s.semaphore + 1 }

/-- The collector waits on the semaphore. -/
def wait (s : State τ) (pc : CollectorPc τ) : Option (State τ) :=
  if 0 < s.semaphore then some { s with semaphore := s.semaphore - 1, collector := pc } else none

end State

def handlerStep (s : State τ) (t : τ) (sp : ℕ) : Option (State τ) :=
  match (s.threads t).handler with
  | .outside | .parked => none
  | .entry => s.target.map fun thread =>
    if (s.threads thread).suspendCount ≠ 0 then s.modify t Thread.leaveHandler
    else s.modify t fun c => { c with handler := .save thread }
  | .save thread =>
    -- no stack pointer stands for the answer from an alternative signal stack
    some ((s.modify thread fun c => { c with stackPointer := sp }).modify t fun c =>
      { c with handler := if sp = 0 then .retry else .post })
  | .retry => some (s.post.modify t Thread.leaveHandler)
  | .post => some (s.post.modify t fun c => { c with handler := .parked })
  | .woken => s.target.map fun thread =>
    (s.modify thread fun c => { c with stackPointer := 0 }).modify t fun c =>
      { c with handler := .resumePost }
  | .resumePost => some (s.post.modify t Thread.leaveHandler)

/-- `Thread::suspend`; `done` is where it returns to. -/
def suspendStep (s : State τ) (t : τ) (pc : SuspendPc) (goto : SuspendPc → CollectorPc τ)
    (done : CollectorPc τ) : Option (State τ) :=
  let c := s.threads t
  match pc with
  | .load => some (s.goto (goto (if c.suspendCount = 0 then .handle else .add)))
  | .handle => if c.platformHandle then some (s.goto (goto .target)) else none
  | .target => some { s with target := some t, collector := goto .kill }
  | .kill =>
    if c.exited then some (s.goto done)
    else some ((s.modify t fun c => { c with signal := true }).goto (goto .wait))
  | .wait => s.wait (goto .test)
  | .test => some (s.goto (goto (if c.stackPointer ≠ 0 then .add else .kill)))
  | .add => some ((s.modify t fun c => { c with
      suspendCount := fetchAdd c.suspendCount
      suspends := c.suspends + 1 }).goto done)

/-- `Thread::resume` -/
def resumeStep (s : State τ) (t : τ) (pc : ResumePc) (goto : ResumePc → CollectorPc τ)
    (done : CollectorPc τ) : Option (State τ) :=
  let c := s.threads t
  match pc with
  | .load => some (s.goto (goto (if c.suspendCount = 1 then .target else .sub)))
  | .target => some { s with target := some t, collector := goto .kill }
  | .kill =>
    if c.exited then some (s.goto done)
    else some ((s.modify t fun c => { c with signal := true }).goto (goto .wait))
  | .wait => s.wait (goto .sub)
  | .sub => some ((s.modify t fun c => { c with
      suspendCount := fetchSub c.suspendCount
      resumes := c.resumes + 1 }).goto done)

/-- `block_all_mutators_for_gc` and `unblock_all_mutators_for_gc` -/
def collectorStep (cfg : Config τ) (s : State τ) : Option (State τ) :=
  match s.collector with
  | .idle => some (s.goto .scan)
  | .scan => some (s.goto (.block s.table []))
  | .block [] handshakeThreads => some (s.goto (.returned handshakeThreads))
  | .block (t :: todo) handshakeThreads =>
    some (s.goto (if cfg.isMutator t && !(s.threads t).isAboutToTerminate then
      .suspending .load t todo handshakeThreads
    else .block todo handshakeThreads))
  | .suspending pc t todo handshakeThreads =>
    -- the thread is pushed whatever `suspend` answers
    suspendStep s t pc (fun pc => .suspending pc t todo handshakeThreads)
      (.block todo (handshakeThreads ++ [t]))
  | .returned _ => some (s.goto (.unblock s.table))
  | .unblock [] => some (s.goto .idle)
  | .unblock (t :: todo) =>
    some (s.goto (if cfg.isMutator t then .resuming .load t todo else .unblock todo))
  | .resuming pc t todo => resumeStep s t pc (fun pc => .resuming pc t todo) (.unblock todo)

def step (cfg : Config τ) (s : State τ) : Label τ → Option (State τ)
  | .register t => if t ∈ s.table then none else some { s with table := s.table ++ [t] }
  | .establish t =>
    if t ∈ s.table then some (s.modify t fun c => { c with platformHandle := true }) else none
  | .terminate t =>
    if (s.threads t).platformHandle ∧ (s.threads t).handler = .outside then
      some (s.modify t fun c => { c with isAboutToTerminate := true })
    else none
  | .exit t =>
    if (s.threads t).isAboutToTerminate ∧ (s.threads t).handler = .outside ∧
        (s.threads t).signal = false then
      some (s.modify t fun c => { c with exited := true })
    else none
  | .deliver t =>
    if (s.threads t).signal = false then none
    else match (s.threads t).handler with
    | .outside => some (s.modify t fun c => { c with signal := false, handler := .entry })
    | .parked => some (s.modify t fun c =>
      { c with signal := false, handler := .entry, frames := c.frames + 1 })
    -- the signal is masked in the handler
    | _ => none
  | .handler t sp => handlerStep s t sp
  | .collector => collectorStep cfg s

def Thread.new : Thread τ := ⟨false, false, false, 0, 0, false, .outside, 0, 0, 0⟩

def State.new : State τ := ⟨fun _ => .new, [], none, 0, .idle⟩

def machine (cfg : Config τ) : Machine (State τ) (Label τ) where
  init s := s = State.new
  step := step cfg

end VmkitCore.Suspension
