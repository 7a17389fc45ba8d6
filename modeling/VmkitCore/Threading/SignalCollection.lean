import VmkitCore.Threading.Blocking

/-! # Collections with signals

Mutators post a request for a collection and then block themselves, while a signal
may stop them between any two steps. The collector stops all mutators once there is
a request, and at the end resumes them one by one, and unblocks those it finds
blocked at that time.
-/

namespace VmkitCore.SignalCollection

/-- The mutators, which are registered all the time, and the adapters. -/
structure Config (τ ι : Type*) where
  adapters : List (BlockAdapter ι)
  /-- The index of `GCBlockAdapter`. -/
  gc : ι
  gc_mem : .flags gc ∈ adapters
  mutators : List τ
  nodup : mutators.Nodup

/-- What the suspend signal makes of a thread; `acknowledging` has posted the semaphore. -/
inductive Suspension
  | running | acknowledging | parked
  deriving DecidableEq, Repr

/-- The next step of the collector, with the threads it still has to look at. -/
inductive CollectorPc (τ : Type*)
  | idle
  -- `stop_all_mutators`
  | stop (todo : List τ) | stopped
  -- `resume_mutators`
  | resume (todo : List τ) | check (t : τ) (todo : List τ) | unblockRun (t : τ) (todo : List τ)
  deriving DecidableEq, Repr

structure State (τ ι : Type*) where
  threads : τ → Blocking.State ι Unit
  suspension : τ → Suspension
  /-- The mutator has posted a request, and calls `block_for_gc` next. -/
  posted : τ → Bool
  requested : Bool
  collector : CollectorPc τ

inductive Label (τ ι : Type*)
  | post (t : τ)
  | call (t : τ) (op : Blocking.Op ι)
  | step (t : τ)
  | handler (t : τ)
  -- the request is taken back once the collection has started
  | clearRequest
  | collector
  deriving DecidableEq, Repr

variable {τ ι : Type*} [DecidableEq τ] [DecidableEq ι]

namespace State

def setThread (s : State τ ι) (t : τ) (c : Blocking.State ι Unit) : State τ ι :=
  { s with threads := Function.update s.threads t c }

def setPosted (s : State τ ι) (t : τ) (b : Bool) : State τ ι :=
  { s with posted := Function.update s.posted t b }

def setSuspension (s : State τ ι) (t : τ) (x : Suspension) : State τ ι :=
  { s with suspension := Function.update s.suspension t x }

def goto (s : State τ ι) (pc : CollectorPc τ) : State τ ι := { s with collector := pc }

end State

/-- A mutator that has posted a request calls `block_for_gc`, and nobody else does. -/
def call (cfg : Config τ ι) (s : State τ ι) (t : τ) (op : Blocking.Op ι) : Option (State τ ι) :=
  if s.suspension t = .running ∧ (s.posted t = true ↔ op = .blockSelf (.flags cfg.gc)) then
    (Blocking.call (s.threads t) op).map fun c => (s.setThread t c).setPosted t false
  else none

omit [DecidableEq τ] in
/-- `Thread::acknowledge_block_requests` -/
def acknowledgeBlockRequests (cfg : Config τ ι) (c : Blocking.State ι Unit) :
    Blocking.State ι Unit :=
  let (u, hadSome) := c.thread.acknowledgeBlockRequests cfg.adapters
  if hadSome then { c with thread := u }.notifyAll else { c with thread := u }

/-- The handler acknowledges block requests, and waits for the signal to go on. -/
def handlerStep (cfg : Config τ ι) (s : State τ ι) (t : τ) : Option (State τ ι) :=
  if s.suspension t = .acknowledging then
    some ((s.setThread t (acknowledgeBlockRequests cfg (s.threads t))).setSuspension t .parked)
  else none

def collectorStep (cfg : Config τ ι) (s : State τ ι) : Option (State τ ι) :=
  match s.collector with
  | .idle => if s.requested then some (s.goto (.stop cfg.mutators)) else none
  | .stop [] => some (s.goto .stopped)
  | .stop (t :: todo) =>
    if (s.threads t).thread.isAboutToTerminate then some (s.goto (.stop todo))
    else some ((s.setSuspension t .acknowledging).goto (.stop todo))
  | .stopped => some (s.goto (.resume cfg.mutators))
  | .resume [] => some (s.goto .idle)
  | .resume (t :: todo) =>
    match s.suspension t with
    | .running => some (s.goto (.check t todo))
    | .acknowledging => none
    | .parked => some ((s.setSuspension t .running).goto (.check t todo))
  | .check t todo =>
    if (s.threads t).thread.isBlockedFor cfg.gc then
      (Blocking.request (s.threads t) () (.unblock (.flags cfg.gc))).map fun c =>
        (s.setThread t c).goto (.unblockRun t todo)
    else some (s.goto (.resume todo))
  | .unblockRun t todo =>
    if ((s.threads t).requesters ()).pc = .idle then some (s.goto (.resume todo))
    else (Blocking.requesterStep (s.threads t) ()).map (s.setThread t)

def step (cfg : Config τ ι) (s : State τ ι) : Label τ ι → Option (State τ ι)
  | .post t =>
    if s.suspension t = .running ∧ (s.threads t).pc = .managed then
      some { s.setPosted t true with requested := true }
    else none
  | .call t op => call cfg s t op
  | .step t =>
    if s.suspension t = .running then
      (Blocking.targetStep cfg.adapters (s.threads t)).map (s.setThread t)
    else none
  | .handler t => handlerStep cfg s t
  | .clearRequest => match s.collector with
    | .stop _ | .stopped => some { s with requested := false }
    | _ => none
  | .collector => collectorStep cfg s

/-- All mutators run managed code. -/
def State.new : State τ ι := ⟨fun _ => .started, fun _ => .running, fun _ => false, false, .idle⟩

def machine (cfg : Config τ ι) : Machine (State τ ι) (Label τ ι) where
  init s := s = State.new
  step := step cfg

end VmkitCore.SignalCollection
