import VmkitCore.Mm.Allocation
import VmkitCore.ObjectModel.Tracing

/-! # Internal pointers

A pointer into an object is traced through the object that it points into. MMTk finds that
object by its reference, which it looks for less than a given number of bytes below the pointer.
-/

namespace VmkitCore

open Allocation (Region)

/-- An object of the heap, with its bytes from the header or the stored hash on. -/
structure LiveObject where
  reference : ObjectReference
  region : Region
  deriving DecidableEq

namespace LiveObject

def address (o : LiveObject) : ℕ := o.reference.object.address

/--
The pointer is inside the object, and the search for the reference gets that far: the limit
itself is out of reach where `within` is `<`, and in reach where it is `≤`.
-/
def InReach (within : ℕ → ℕ → Prop) (o : LiveObject) (pointer limit : ℕ) : Prop :=
  o.region.Has pointer ∧ o.address ≤ pointer ∧ within pointer (o.address + limit)

instance (within : ℕ → ℕ → Prop) [DecidableRel within] (o : LiveObject) (pointer limit : ℕ) :
    Decidable (o.InReach within pointer limit) :=
  inferInstanceAs (Decidable ((_ ∧ _) ∧ _ ∧ _))

end LiveObject

/-- The objects of a heap, and the search for them. MMTk's own limit is exclusive, that is `<`. -/
structure ObjectHeap (within : ℕ → ℕ → Prop) where
  live : LiveObject → Prop
  disjoint : ∀ {o o' pointer}, live o → live o' → o.region.Has pointer → o'.region.Has pointer →
    o = o'
  findObjectFromInternalPointer : (pointer limit : ℕ) → Option ObjectReference
  find_eq_some_iff : ∀ {pointer limit r}, findObjectFromInternalPointer pointer limit = some r ↔
    ∃ o, live o ∧ o.reference = r ∧ o.InReach within pointer limit

namespace ObjectHeap

variable {within : ℕ → ℕ → Prop} [DecidableRel within]

/-- The heap with a single object. -/
def single (o : LiveObject) : ObjectHeap within where
  live := (· = o)
  disjoint := by rintro _ _ _ rfl rfl _ _; rfl
  findObjectFromInternalPointer pointer limit :=
    if o.InReach within pointer limit then some o.reference else none
  find_eq_some_iff := by
    intro pointer limit r
    rw [Option.ite_none_right_eq_some, Option.some.injEq]
    constructor
    · rintro ⟨h, rfl⟩
      exact ⟨o, rfl, rfl, h⟩
    · rintro ⟨_, rfl, rfl, h⟩
      exact ⟨h, rfl⟩

variable {heap : ObjectHeap within} {o : LiveObject} {pointer limit : ℕ}

/-- Inside an object, the search finds that object or nothing. -/
theorem find_of_has (ho : heap.live o) (hp : o.region.Has pointer) :
    heap.findObjectFromInternalPointer pointer limit =
      if o.InReach within pointer limit then some o.reference else none := by
  split
  · next h => exact heap.find_eq_some_iff.mpr ⟨o, ho, rfl, h⟩
  · next h =>
    rw [Option.eq_none_iff_forall_ne_some]
    intro r hr
    obtain ⟨o', ho', -, hreach⟩ := heap.find_eq_some_iff.mp hr
    obtain rfl := heap.disjoint ho ho' hp hreach.1
    exact h hreach

end ObjectHeap

/-- The feature `cooperative`, and the constant `CONSERVATIVE_TRACING` of the virtual machine. -/
structure TracingFeatures where
  cooperative : Bool
  conservativeTracing : Bool
  deriving DecidableEq, Repr

structure InternalPointer where
  address : ℕ
  deriving DecidableEq, Repr

namespace InternalPointer

section Source

variable {within : ℕ → ℕ → Prop} (features : TracingFeatures) (heap : ObjectHeap within)

def new (address : ℕ) : Option InternalPointer :=
  if features.cooperative && features.conservativeTracing then some ⟨address⟩ else none

variable (p : InternalPointer)

/-- The `unwrap` panics where nothing is found. -/
def object : Option VMKitObject :=
  (heap.findObjectFromInternalPointer p.address 128).map (·.object)

def offset : Option ℕ := (p.object heap).map fun o => p.address - o.address

/-- The pointer afterwards, and every reference that the tracer was called on. -/
def trace (f : ObjectReference → ObjectReference) :
    Option (InternalPointer × List ObjectReference) :=
  -- `NEED_VO_BITS_DURING_TRACING` is the constant of the virtual machine
  if features.cooperative && features.conservativeTracing then
    match heap.findObjectFromInternalPointer p.address 128 with
    | some start =>
      let offset := p.address - start.object.address
      (new features ((f start).object.address + offset)).map fun p' => (p', [start])
    | none => some (p, [])
  else none

end Source

variable {within : ℕ → ℕ → Prop}

/-- The object is traced once, and the pointer is at the same place in its new location. -/
structure Follows (heap : ObjectHeap within) (f : ObjectReference → ObjectReference)
    (o : LiveObject) (p : InternalPointer) : Prop where
  trace : p.trace ⟨true, true⟩ heap f =
    some (⟨(f o.reference).object.address + (p.address - o.address)⟩, [o.reference])
  object : p.object heap = some o.reference.object
  offset : p.offset heap = some (p.address - o.address)

/-- Tracing passes the object by, and the queries panic. -/
structure Misses (heap : ObjectHeap within) (f : ObjectReference → ObjectReference)
    (p : InternalPointer) : Prop where
  trace : p.trace ⟨true, true⟩ heap f = some (p, [])
  object : p.object heap = none
  offset : p.offset heap = none

variable {heap : ObjectHeap within} {f : ObjectReference → ObjectReference} {o : LiveObject}
  {p : InternalPointer}

theorem follows_of_find
    (h : heap.findObjectFromInternalPointer p.address 128 = some o.reference) :
    Follows heap f o p where
  trace := by
    simp only [InternalPointer.trace, h]
    rfl
  object := by rw [InternalPointer.object, h]; rfl
  offset := by rw [InternalPointer.offset, InternalPointer.object, h]; rfl

theorem misses_of_find (h : heap.findObjectFromInternalPointer p.address 128 = none) :
    Misses heap f p where
  trace := by simp only [InternalPointer.trace, h]; rfl
  object := by rw [InternalPointer.object, h]; rfl
  offset := by rw [InternalPointer.offset, InternalPointer.object, h]; rfl

/--
A pointer less than 128 bytes above the reference follows the object. From there on, and in the
header, the object is neither traced nor found.
-/
theorem traced_within_limit {heap : ObjectHeap (· < ·)} (ho : heap.live o)
    (hp : o.region.Has p.address) :
    (o.address ≤ p.address ∧ p.address < o.address + 128 → Follows heap f o p) ∧
    (¬ (o.address ≤ p.address ∧ p.address < o.address + 128) → Misses heap f p) := by
  have hfind : heap.findObjectFromInternalPointer p.address 128 = _ :=
    ObjectHeap.find_of_has ho hp
  constructor
  · intro h
    rw [if_pos ⟨hp, h⟩] at hfind
    exact follows_of_find hfind
  · intro h
    rw [if_neg fun hreach => h hreach.2] at hfind
    exact misses_of_find hfind

/-- An object of 512 bytes after its header. -/
def largeObject : LiveObject := ⟨⟨⟨4104⟩, by decide⟩, ⟨4096, 4616⟩⟩

def largeHeap : ObjectHeap (· < ·) := .single largeObject

theorem traced_within_limit_last :
    Follows largeHeap Traceable.slide largeObject ⟨4104 + 127⟩ ∧
    Misses largeHeap Traceable.slide ⟨4104 + 128⟩ :=
  ⟨(traced_within_limit (show largeHeap.live largeObject from rfl) ⟨by decide, by decide⟩).1
      ⟨by decide, by decide⟩,
    (traced_within_limit (show largeHeap.live largeObject from rfl) ⟨by decide, by decide⟩).2
      (by decide)⟩

/-- Further up, the pointer is left behind, also by a search that its limit would include. -/
theorem pointer_missed : ¬ ∀ (heap : ObjectHeap (· ≤ ·)) (f : ObjectReference → ObjectReference)
    (o : LiveObject) (p : InternalPointer), heap.live o → o.region.Has p.address →
    o.address ≤ p.address → Follows heap f o p := by
  intro h
  have hfollows := h (.single largeObject) Traceable.slide largeObject ⟨4104 + 200⟩ rfl
    ⟨by decide, by decide⟩ (by decide)
  have hobject := hfollows.object
  revert hobject
  decide

end InternalPointer

end VmkitCore
