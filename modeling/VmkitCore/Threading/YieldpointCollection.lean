import VmkitCore.Threading.StopTheWorld

/-! # Collections at yieldpoints

Mutators that are all registered post a request for a collection and then block
themselves, with no yieldpoint in between. The collector stops all mutators once there
is a request, and unblocks every one of them at the end.
-/

namespace VmkitCore.YieldpointCollection

open ThreadManager (Config)

structure State (τ ι : Type*) where
  manager : ThreadManager.State τ ι
  /-- The mutator has posted a request, and calls `block_for_gc` next. -/
  posted : τ → Bool
  requested : Bool

inductive Label (τ ι : Type*)
  | post (t : τ)
  | call (t : τ) (op : Blocking.Op ι)
  | step (t : τ)
  -- the request is taken back before the mutators are resumed
  | clearRequest
  | collector
  deriving DecidableEq, Repr

variable {τ ι : Type*} [DecidableEq τ] [DecidableEq ι]

/-- A mutator that has posted a request calls `block_for_gc`, and nobody else does. -/
def call (cfg : Config τ ι) (s : State τ ι) (t : τ) (op : Blocking.Op ι) : Option (State τ ι) :=
  if s.posted t = true ↔ op = .blockSelf (.flags cfg.gc) then
    (ThreadManager.call s.manager t op).map fun m =>
      { s with manager := m, posted := Function.update s.posted t false }
  else none

def step (cfg : Config τ ι) (s : State τ ι) : Label τ ι → Option (State τ ι)
  | .post t =>
    if s.manager.phase t = .running ∧ (s.manager.threads t).pc = .managed ∧
        cfg.isMutator t = true then
      some { s with posted := Function.update s.posted t true, requested := true }
    else none
  | .call t op => call cfg s t op
  | .step t => (ThreadManager.threadStep cfg s.manager t).map fun m => { s with manager := m }
  | .clearRequest => match s.manager.collector with
    | .returned _ => some { s with requested := false }
    | pc => if pc.inBlockAll then some { s with requested := false } else none
  | .collector =>
    if s.manager.collector = .idle ∧ s.requested = false then none
    else (ThreadManager.collectorStep cfg s.manager).map fun m => { s with manager := m }

/-- The step is one of `Thread::start`. -/
def Starts (_ : ThreadManager.State τ ι) : ThreadManager.Label τ ι → Prop
  | .startup _ => True
  | _ => False

instance : ∀ (m : ThreadManager.State τ ι) (l : ThreadManager.Label τ ι), Decidable (Starts m l)
  | _, .startup _ => inferInstanceAs (Decidable True)
  | _, .call .. | _, .step _ | _, .collector => inferInstanceAs (Decidable False)

/-- Some threads have been started, and run their code. -/
def machine (cfg : Config τ ι) : Machine (State τ ι) (Label τ ι) where
  init s := (ThreadManager.machine cfg).ReachableUnder Starts s.manager ∧
    (∀ t, s.manager.phase t = .unstarted ∨ s.manager.phase t = .running) ∧
    (∀ t, s.posted t = false) ∧ s.requested = false
  step := step cfg

end VmkitCore.YieldpointCollection
