import VmkitCore.Lib.Machine
import VmkitCore.ObjectModel.Object

/-! # Finalizers

Registered finalizers wait until their object is not reachable, and pending ones
until a mutator runs them. The heap says which object is at a reference. What a
collection reaches, and where it copies objects, is up to the collector.
-/

namespace VmkitCore

namespace Finalization

inductive FinalizerKind (κ : Type*)
  | finalized
  | unordered (callback : κ)
  | drop (callback : κ)
  deriving DecidableEq, Repr

structure Finalizer (κ : Type*) where
  object : VMKitObject
  finalizer : FinalizerKind κ
  /-- Not in the source: the object itself, wherever it is. -/
  subject : Option ℕ
  deriving DecidableEq, Repr

/-- The call of a callback, with its argument. -/
inductive Callback (κ : Type*)
  | unordered (callback : κ) (object : VMKitObject)
  | drop (callback : κ)
  deriving DecidableEq, Repr

variable {κ : Type*}

/-- `Finalizer::run`, with what it calls. -/
def Finalizer.run (f : Finalizer κ) : Finalizer κ × Option (Callback κ) :=
  ({ f with finalizer := .finalized },
    match f.finalizer with
    | .finalized => none
    | .unordered callback => some (.unordered callback f.object)
    | .drop callback => some (.drop callback))

/-- What the collector decides, by the references before the collection. -/
structure Collection where
  /-- Reached from the roots, before the first call of `process`. -/
  isReachable : VMKitObject → Bool
  getForwardedObject : VMKitObject → Option VMKitObject
  /-- Which object was copied to a reference. -/
  origin : VMKitObject → Option VMKitObject
  /-- What is reached before each further call of `process`. -/
  closures : List (VMKitObject → Bool)

namespace Collection

/-- The reference of a traced object; also what `trace_object` returns. -/
def forward (c : Collection) (o : VMKitObject) : VMKitObject := (c.getForwardedObject o).getD o

/-- `trace_object` reaches an object and its copy. -/
def traceObject (c : Collection) (reachable : VMKitObject → Bool) (o : VMKitObject) :
    VMKitObject → Bool :=
  fun x => reachable x || x = o || x = c.forward o

/-- The `retain_mut` of `process`: what stays registered, what is queued, what is reachable. -/
def retain (c : Collection) (reachable : VMKitObject → Bool) :
    List (Finalizer κ) → List (Finalizer κ) × List (Finalizer κ) × (VMKitObject → Bool)
  | [] => ([], [], reachable)
  | f :: fs =>
    if f.object = .null then c.retain reachable fs
    else if reachable f.object then
      let (registered, queued, reachable') := c.retain reachable fs
      ({ f with object := c.forward f.object } :: registered, queued, reachable')
    else
      let (registered, queued, reachable') := c.retain (c.traceObject reachable f.object) fs
      (registered, { f with object := c.forward f.object } :: queued, reachable')

/-- Which objects there are after the collection. -/
def survivors (c : Collection) (reachable : VMKitObject → Bool)
    (objectAt : VMKitObject → Option ℕ) : VMKitObject → Option ℕ :=
  fun x => match c.origin x with
    | some o => if reachable o then objectAt o else none
    | none => if reachable x && (c.getForwardedObject x).isNone then objectAt x else none

end Collection

structure State (κ : Type*) where
  objectAt : VMKitObject → Option ℕ
  /-- How many objects have been allocated. -/
  objects : ℕ
  registered : List (Finalizer κ)
  pending : List (Finalizer κ)
  /-- What callers of `get_finalized_object` have got. -/
  held : List (Finalizer κ)

inductive Label (κ : Type*)
  | allocate (o : VMKitObject)
  | registerFinalizer (o : VMKitObject) (callback : κ)
  | collect (c : Collection)
  | getFinalizedObject
  | run (i : ℕ)

namespace State

/-- `FinalizerProcessing::process`, with the closure it requires. -/
def process (s : State κ) (c : Collection) (reachable : VMKitObject → Bool) :
    State κ × (VMKitObject → Bool) × Bool :=
  let (registered, queued, reachable') := c.retain reachable s.registered
  ({ s with registered := registered, pending := s.pending ++ queued }, reachable',
    !queued.isEmpty)

/-- The calls of `process` in one collection, after the first one. -/
def processRounds (c : Collection) (s : State κ) (reachable : VMKitObject → Bool) :
    List (VMKitObject → Bool) → State κ × (VMKitObject → Bool)
  | [] => (s, reachable)
  | closure :: closures =>
    let (s', reachable', _) := s.process c fun x => reachable x || closure x
    s'.processRounds c reachable' closures

def collect (s : State κ) (c : Collection) : State κ :=
  let (s', reachable, _) := s.process c c.isReachable
  let (s', reachable) := s'.processRounds c reachable c.closures
  { s' with objectAt := c.survivors reachable s'.objectAt }

end State

/-- A round of `run_finalizers` is `getFinalizedObject` and `run`. -/
def step (s : State κ) : Label κ → Option (State κ)
  | .allocate o =>
    if o = .null ∨ (s.objectAt o).isSome then none
    else some { s with
      objectAt := Function.update s.objectAt o (some s.objects)
      objects := s.objects + 1 }
  | .registerFinalizer o callback =>
    -- a mutator has references to objects of the heap only
    if o = .null ∨ (s.objectAt o).isSome then
      some { s with registered := s.registered ++ [⟨o, .unordered callback, s.objectAt o⟩] }
    else none
  | .collect c => some (s.collect c)
  | .getFinalizedObject =>
    s.pending.getLast?.map fun f => { s with pending := s.pending.dropLast, held := s.held ++ [f] }
  | .run i => s.held[i]?.map fun f => { s with held := s.held.set i f.run.1 }

def State.new : State κ := ⟨fun _ => none, 0, [], [], []⟩

def machine (κ : Type*) : Machine (State κ) (Label κ) where
  init s := s = State.new
  step := step

/-- What collectors promise, given which objects there are. -/
structure Collection.Valid (c : Collection) (objectAt : VMKitObject → Option ℕ) : Prop where
  forwarded_iff : ∀ o x, c.getForwardedObject o = some x ↔ c.origin x = some o
  /-- Only objects are copied, and only to free space. -/
  objectAt_forwarded : ∀ o x, c.getForwardedObject o = some x →
    (objectAt o).isSome ∧ objectAt x = none ∧ x ≠ .null
  /-- The copy of a reached object counts as reached. -/
  reachable_forward : ∀ o, c.isReachable o = true → c.isReachable (c.forward o) = true
  closure_forward : ∀ r ∈ c.closures, ∀ o, r o = true → r (c.forward o) = true

end Finalization

end VmkitCore
