import VmkitCore.ObjectModel.Finalization
import VmkitCore.Sync.Monitor
import VmkitCore.Threading.Suspension
import Mathlib.Data.Finset.Image

/-! # Locks that mutators and collections share

The tables of roots, disappearing links and finalizers each have a lock. Mutators
take one for a single access, and a collection takes them all once it has suspended
the mutators by signals. An unlock may hand the lock over to a thread that waits.
-/

namespace VmkitCore.Bdwgc

open Finalization (Finalizer Callback Collection)

/-- Whoever takes locks: the packets of one collection run one after the other. -/
inductive Party (τ : Type*)
  | mutator (t : τ)
  | collector
  deriving DecidableEq, Repr

inductive Lock
  | roots | disappearingLinks | registered | pending
  deriving DecidableEq, Repr

structure DLink where
  object : VMKitObject
  link : ℕ
  deriving DecidableEq, Repr

/-- The calls of mutators; `base` is the answer of `GC_base`. -/
inductive Op (κ : Type*)
  | registerFinalizer (object : VMKitObject) (callback : κ)
  | getFinalizedObject
  /-- The loop of `run_finalizers`, after this many rounds. -/
  | runFinalizers (count : ℕ)
  | registerDisappearingLink (link base : ℕ)
  | unregisterDisappearingLink (link base : ℕ)
  | generalRegisterDisappearingLink (link obj : ℕ)
  | addRoots (low high : ℕ)
  | removeRoots (low high : ℕ)
  | clearRoots
  deriving DecidableEq, Repr

namespace Op

variable {κ : Type*}

def lock : Op κ → Lock
  | registerFinalizer .. => .registered
  | getFinalizedObject | runFinalizers _ => .pending
  | registerDisappearingLink .. | unregisterDisappearingLink ..
  | generalRegisterDisappearingLink .. => .disappearingLinks
  | addRoots .. | removeRoots .. | clearRoots => .roots

/-- What user code may call. -/
def starts : Op κ → Bool
  | runFinalizers count => count = 0
  | _ => true

end Op

inductive Value (κ : Type*)
  | unit
  | finalizer (f : Option (Finalizer κ))
  | count (n : ℕ)
  | duplicate (b : Bool)
  deriving DecidableEq, Repr

/-- The next step of a mutator, once it has left the methods of the monitors. -/
inductive MutatorPc (κ : Type*)
  | user
  | lock (op : Op κ) | body (op : Op κ) | unlock (op : Op κ) (value : Value κ)
  deriving DecidableEq, Repr

def MutatorPc.isUser {κ : Type*} : MutatorPc κ → Bool
  | .user => true
  | _ => false

structure Mutator (κ : Type*) where
  pc : MutatorPc κ
  /-- The rounds of each call of `run_finalizers` whose finalizer runs the current code. -/
  loops : List ℕ
  returned : Value κ
  calls : List (Callback κ)
  deriving DecidableEq, Repr

/-- The next step of a collection, once it has left the methods of the monitors. -/
inductive GcPc
  | idle
  -- `scan_vm_specific_roots`
  | rootsLock | rootsScan | rootsUnlock
  -- `process_weak_refs`
  | linksLock | linksRetain
  -- `FinalizerProcessing::process`
  | registeredLock | pendingLock | finalizersRetain
  | pendingUnlock (closureRequired : Bool) | registeredUnlock (closureRequired : Bool)
  | linksUnlock (closureRequired : Bool)
  | done
  deriving DecidableEq, Repr

structure State (τ κ : Type*) where
  suspension : Suspension.State τ
  rootsLock : Option (Party τ)
  roots : Finset (ℕ × ℕ)
  linksLock : Option (Party τ)
  disappearingLinks : Finset DLink
  /-- `REGISTERED_FINALIZERS` -/
  registeredLock : Monitor.State (Party τ)
  registered : List (Finalizer κ)
  /-- `PENDING_FINALIZERS` -/
  pendingLock : Monitor.State (Party τ)
  pending : List (Finalizer κ)
  memory : ℕ → ℕ
  /-- The spans that `scan_vm_specific_roots` has added. -/
  croots : Finset (ℕ × ℕ)
  mutators : τ → Mutator κ
  gc : GcPc

inductive Label (τ κ : Type*)
  /-- Threads come and go, and the collector suspends and resumes them. -/
  | suspension (l : Suspension.Label τ)
  | call (t : τ) (op : Op κ)
  /-- A finalizer that `run_finalizers` runs returns or panics. -/
  | finalizerRan (t : τ)
  | step (t : τ) (handTo : Option τ)
  /-- The collection works, and decides what is reachable. -/
  | work (c : Collection) (reachable : VMKitObject → Bool) (handTo : Option τ)

structure Config (τ : Type*) where
  threads : Suspension.Config τ
  ids : ThreadIds (Party τ)
  dynamicLibrariesSections : Finset (ℕ × ℕ)

variable {τ κ : Type*} [DecidableEq τ]

namespace State

def modify (s : State τ κ) (t : τ) (f : Mutator κ → Mutator κ) : State τ κ :=
  { s with mutators := Function.update s.mutators t (f (s.mutators t)) }

def goto (s : State τ κ) (t : τ) (pc : MutatorPc κ) : State τ κ :=
  s.modify t fun c => { c with pc := pc }

def gcGoto (s : State τ κ) (pc : GcPc) : State τ κ := { s with gc := pc }

def holder (s : State τ κ) : Lock → Option (Party τ)
  | .roots => s.rootsLock
  | .disappearingLinks => s.linksLock
  | .registered => s.registeredLock.mutex
  | .pending => s.pendingLock.mutex

/-- Take a mutex, or call `lock_no_handshake` of a monitor. -/
def lock (ids : ThreadIds (Party τ)) (s : State τ κ) (p : Party τ) : Lock → Option (State τ κ)
  | .roots => if s.rootsLock = none then some { s with rootsLock := some p } else none
  | .disappearingLinks => if s.linksLock = none then some { s with linksLock := some p } else none
  | .registered => (Monitor.startOp ids s.registeredLock p .lockNoHandshake).map
    fun m => { s with registeredLock := m }
  | .pending => (Monitor.startOp ids s.pendingLock p .lockNoHandshake).map
    fun m => { s with pendingLock := m }

/-- Release a mutex, or drop the guard of a monitor. -/
def unlock (ids : ThreadIds (Party τ)) (s : State τ κ) (p : Party τ) : Lock → Option (State τ κ)
  | .roots => some { s with rootsLock := none }
  | .disappearingLinks => some { s with linksLock := none }
  | .registered => (Monitor.startOp ids s.registeredLock p .drop).map
    fun m => { s with registeredLock := m }
  | .pending => (Monitor.startOp ids s.pendingLock p .drop).map
    fun m => { s with pendingLock := m }

/-- Outside of the methods of the monitors. -/
def Settled (s : State τ κ) (p : Party τ) : Prop :=
  (s.registeredLock.threads p).pc = .idle ∧ (s.pendingLock.threads p).pc = .idle

instance (s : State τ κ) (p : Party τ) : Decidable (s.Settled p) :=
  inferInstanceAs (Decidable (_ ∧ _))

/-- A step inside a method of a monitor. -/
def advance (ids : ThreadIds (Party τ)) (s : State τ κ) (p : Party τ) : Option (State τ κ) :=
  if (s.registeredLock.threads p).pc ≠ .idle then
    (Monitor.threadStep ids s.registeredLock p).map fun m => { s with registeredLock := m }
  else (Monitor.threadStep ids s.pendingLock p).map fun m => { s with pendingLock := m }

/-- The lock that is to be taken next. -/
def waitsFor (s : State τ κ) (p : Party τ) : Option Lock :=
  if (s.registeredLock.threads p).pc = .lockMutex then some .registered
  else if (s.pendingLock.threads p).pc = .lockMutex then some .pending
  else match p with
  | .mutator t => match (s.mutators t).pc with
    | .lock op => if op.lock = .roots ∨ op.lock = .disappearingLinks then some op.lock else none
    | _ => none
  | .collector => match s.gc with
    | .rootsLock => some .roots
    | .linksLock => some .disappearingLinks
    | _ => none

/-- What a call does under its lock, and what it returns. -/
def body (s : State τ κ) : Op κ → State τ κ × Value κ
  | .registerFinalizer object callback =>
    ({ s with registered := s.registered ++ [⟨object, .unordered callback, none⟩] }, .unit)
  | .getFinalizedObject | .runFinalizers _ =>
    ({ s with pending := s.pending.dropLast }, .finalizer s.pending.getLast?)
  | .registerDisappearingLink link base =>
    ({ s with disappearingLinks := insert ⟨⟨base⟩, link⟩ s.disappearingLinks }, .unit)
  | .unregisterDisappearingLink link base =>
    ({ s with disappearingLinks := s.disappearingLinks.erase ⟨⟨base⟩, link⟩ }, .unit)
  | .generalRegisterDisappearingLink link obj =>
    ({ s with disappearingLinks := insert ⟨⟨obj⟩, link⟩ s.disappearingLinks },
      .duplicate (decide (⟨⟨obj⟩, link⟩ ∈ s.disappearingLinks)))
  | .addRoots low high => ({ s with roots := insert (low, high) s.roots }, .unit)
  | .removeRoots low high => ({ s with roots := s.roots.erase (low, high) }, .unit)
  | .clearRoots => ({ s with roots := ∅ }, .unit)

/-- After the unlock: `run_finalizers` runs what it has got, and other calls return. -/
def finish (s : State τ κ) (t : τ) : Op κ → Value κ → State τ κ
  | .runFinalizers count, .finalizer (some f) => s.modify t fun c => { c with
    pc := .user
    loops := count :: c.loops
    calls := c.calls ++ f.run.2.toList }
  | .runFinalizers count, _ => s.modify t fun c => { c with pc := .user, returned := .count count }
  | _, value => s.modify t fun c => { c with pc := .user, returned := value }

/-- The thread runs code of its own. -/
def Running (s : State τ κ) (t : τ) : Prop :=
  (s.suspension.threads t).handler = .outside ∧ (s.suspension.threads t).exited = false

instance (s : State τ κ) (t : τ) : Decidable (s.Running t) :=
  inferInstanceAs (Decidable (_ ∧ _))

/-- In user code, and not inside of a finalizer. -/
def Outside (s : State τ κ) (t : τ) : Prop :=
  s.Settled (.mutator t) ∧ (s.mutators t).pc.isUser ∧ (s.mutators t).loops = []

instance (s : State τ κ) (t : τ) : Decidable (s.Outside t) :=
  inferInstanceAs (Decidable (_ ∧ _ ∧ _))

end State

def mutatorStep (cfg : Config τ) (s : State τ κ) (t : τ) : Option (State τ κ) :=
  if ¬ s.Settled (.mutator t) then s.advance cfg.ids (.mutator t) else
  match (s.mutators t).pc with
  | .user => none
  | .lock op => (s.lock cfg.ids (.mutator t) op.lock).map fun s' => s'.goto t (.body op)
  | .body op => some ((s.body op).1.goto t (.unlock op (s.body op).2))
  | .unlock op value =>
    (s.unlock cfg.ids (.mutator t) op.lock).map fun s' => s'.finish t op value

/-- Where `link.store(Address::ZERO)` has cleared the links. -/
def clear (memory : ℕ → ℕ) (links : Finset DLink) : ℕ → ℕ :=
  fun a => if a ∈ links.image DLink.link then 0 else memory a

def gcStep (cfg : Config τ) (s : State τ κ) (c : Collection) (reachable : VMKitObject → Bool) :
    Option (State τ κ) :=
  if ¬ s.Settled .collector then s.advance cfg.ids .collector else
  match s.gc with
  | .idle => some { s with croots := cfg.dynamicLibrariesSections, gc := .rootsLock }
  | .rootsLock => (s.lock cfg.ids .collector .roots).map fun s' => s'.gcGoto .rootsScan
  | .rootsScan => some { s with croots := s.croots ∪ s.roots, gc := .rootsUnlock }
  | .rootsUnlock => (s.unlock cfg.ids .collector .roots).map fun s' => s'.gcGoto .linksLock
  | .linksLock =>
    (s.lock cfg.ids .collector .disappearingLinks).map fun s' => s'.gcGoto .linksRetain
  | .linksRetain => some { s with
      disappearingLinks := s.disappearingLinks.filter fun l => reachable l.object
      memory := clear s.memory (s.disappearingLinks.filter fun l => !reachable l.object)
      gc := .registeredLock }
  | .registeredLock =>
    (s.lock cfg.ids .collector .registered).map fun s' => s'.gcGoto .pendingLock
  | .pendingLock =>
    (s.lock cfg.ids .collector .pending).map fun s' => s'.gcGoto .finalizersRetain
  | .finalizersRetain =>
    let (registered, queued, _) := c.retain reachable s.registered
    some { s with
      registered := registered
      pending := s.pending ++ queued
      gc := .pendingUnlock !queued.isEmpty }
  | .pendingUnlock closureRequired =>
    (s.unlock cfg.ids .collector .pending).map fun s' =>
      s'.gcGoto (.registeredUnlock closureRequired)
  | .registeredUnlock closureRequired =>
    (s.unlock cfg.ids .collector .registered).map fun s' => s'.gcGoto (.linksUnlock closureRequired)
  | .linksUnlock closureRequired =>
    (s.unlock cfg.ids .collector .disappearingLinks).map fun s' =>
      s'.gcGoto (if closureRequired then .linksLock else .done)
  | .done => none

/-- The lock that a step has released goes to a mutator that waits for it, even a suspended one. -/
def handOff (cfg : Config τ) (s s' : State τ κ) : Option τ → Option (State τ κ)
  | none => some s'
  | some u =>
    match s'.waitsFor (.mutator u) with
    | none => none
    | some k =>
      if (s.holder k).isSome ∧ s'.holder k = none then mutatorStep cfg s' u else none

def suspensionStep (cfg : Config τ) (s : State τ κ) (l : Suspension.Label τ) :
    Option (State τ κ) :=
  let next := (Suspension.step cfg.threads s.suspension l).map fun u => { s with suspension := u }
  match l with
  | .terminate t | .exit t => if s.Outside t then next else none
  | .collector =>
    match s.suspension.collector with
    | .returned _ => if s.gc = .done then next.map fun s' => s'.gcGoto .idle else none
    | _ => next
  | _ => next

def step (cfg : Config τ) (s : State τ κ) : Label τ κ → Option (State τ κ)
  | .suspension l => suspensionStep cfg s l
  | .call t op =>
    if s.Running t ∧ s.Settled (.mutator t) ∧ (s.mutators t).pc.isUser ∧ op.starts then
      some (s.goto t (.lock op))
    else none
  | .finalizerRan t =>
    match (s.mutators t).loops with
    | [] => none
    | count :: loops =>
      if s.Running t ∧ s.Settled (.mutator t) ∧ (s.mutators t).pc.isUser then
        some (s.modify t fun c =>
          { c with pc := .lock (.runFinalizers (count + 1)), loops := loops })
      else none
  | .step t handTo =>
    if s.Running t then (mutatorStep cfg s t).bind fun s' => handOff cfg s s' handTo else none
  | .work c reachable handTo =>
    match s.suspension.collector with
    | .returned _ => (gcStep cfg s c reachable).bind fun s' => handOff cfg s s' handTo
    | _ => none

def State.new : State τ κ where
  suspension := .new
  rootsLock := none
  roots := ∅
  linksLock := none
  disappearingLinks := ∅
  registeredLock := .new
  registered := []
  pendingLock := .new
  pending := []
  memory _ := 0
  croots := ∅
  mutators _ := ⟨.user, [], .unit, []⟩
  gc := .idle

def machine (cfg : Config τ) : Machine (State τ κ) (Label τ κ) where
  init s := s = State.new
  step := step cfg

end VmkitCore.Bdwgc
