import Mathlib.Algebra.Group.Nat.Defs
import VmkitCore.Lib.Machine

/-! # Disabling collections

Threads count in `gc_disabled_depth` how often they have disabled collections. MMTk
asks the binding whether it may start one, and the binding does not look at the count.
-/

namespace VmkitCore.CollectionSwitch

structure State where
  /-- A `usize`. -/
  gcDisabledDepth : ℕ
  /-- Not in the source: the calls of `disable_gc` without their `enable_gc`. -/
  unmatched : ℕ
  /-- Not in the source: how many there were when each of the collections was started. -/
  started : List ℕ
  deriving DecidableEq, Repr

/-- Calls of any threads; MMTk decides whether it wants a collection. -/
inductive Label
  | disableGc
  | enableGc
  | allocate (wanted : Bool)
  | requestGc (wanted : Bool)
  deriving DecidableEq, Repr

def disableGc (s : State) : State :=
  { s with
    gcDisabledDepth := (s.gcDisabledDepth + 1) % 2 ^ 64
    unmatched := s.unmatched + 1 }

/-- Not called more often than `disable_gc`. -/
def enableGc (s : State) : Option State :=
  if s.unmatched = 0 then none else
  some { s with
    gcDisabledDepth := (s.gcDisabledDepth + (2 ^ 64 - 1)) % 2 ^ 64
    unmatched := s.unmatched - 1 }

def isGcEnabled (s : State) : Bool := s.gcDisabledDepth == 0

/-- What `VMKitCollection` tells MMTk. -/
def isCollectionEnabled (_ : State) : Bool := true

/-- MMTk starts a collection that it wants if the binding says that it may. -/
def poll (s : State) (wanted : Bool) : State :=
  if wanted && isCollectionEnabled s then { s with started := s.unmatched :: s.started } else s

def step (s : State) : Label → Option State
  | .disableGc => some (disableGc s)
  | .enableGc => enableGc s
  | .allocate wanted | .requestGc wanted => some (poll s wanted)

def State.new : State := ⟨0, 0, []⟩

def machine : Machine State Label where
  init s := s = State.new
  step := step

/-- MMTk wants a collection at this call. -/
def Label.wants : Label → Bool
  | .disableGc | .enableGc => false
  | .allocate wanted | .requestGc wanted => wanted

def NoneWhileDisabled (s : State) : Prop := ∀ n ∈ s.started, n = 0

/-- MMTk wants no collection while one is disabled. -/
def NotWantedWhileDisabled (s : State) (l : Label) : Prop := l.wants = true → s.unmatched = 0

variable {s s' : State} {l : Label}

theorem enableGc_eq_some : enableGc s = some s' ↔ s.unmatched ≠ 0 ∧ s' = { s with
    gcDisabledDepth := (s.gcDisabledDepth + (2 ^ 64 - 1)) % 2 ^ 64
    unmatched := s.unmatched - 1 } := by
  rw [enableGc, Option.ite_none_left_eq_some, Option.some.injEq, eq_comm (b := s')]

theorem noneWhileDisabled_step (hp : NoneWhileDisabled s) (hs : machine.step s l = some s') :
    NoneWhileDisabled s' ↔ NotWantedWhileDisabled s l := by
  have hpoll : ∀ wanted, NoneWhileDisabled (poll s wanted) ↔ (wanted = true → s.unmatched = 0) := by
    rintro (_ | _)
    · simpa [poll] using hp
    · simpa [poll, isCollectionEnabled, NoneWhileDisabled] using fun _ => hp
  cases l with
  | disableGc =>
    obtain rfl := Option.some.inj hs
    exact iff_of_true hp nofun
  | enableGc =>
    obtain ⟨-, rfl⟩ := enableGc_eq_some.mp hs
    exact iff_of_true (fun n hn => hp n hn) nofun
  | allocate wanted | requestGc wanted =>
    obtain rfl := Option.some.inj hs
    exact hpoll wanted

/--
In every run, no collection is started while a `disable_gc` is without its `enable_gc` exactly
if MMTk never wants one then: nothing but the wishes of MMTk keeps it from starting one.
-/
theorem none_while_disabled_iff (ls : List Label) :
    machine.Always NoneWhileDisabled .new ls ↔ machine.Meets NotWantedWhileDisabled .new ls :=
  Machine.always_iff_meets (J := fun _ => True) (fun _ _ _ _ _ => trivial)
    (fun _ _ _ _ hp hs => noneWhileDisabled_step hp hs) trivial nofun

/-- A collection is requested between the two calls. -/
theorem started_while_disabled : ∃ s, machine.exec .new [.disableGc, .requestGc true] = some s ∧
    isGcEnabled s = false ∧ ¬ NoneWhileDisabled s :=
  ⟨_, rfl, rfl, fun h => absurd (h 1 List.mem_cons_self) (by decide)⟩

end VmkitCore.CollectionSwitch
