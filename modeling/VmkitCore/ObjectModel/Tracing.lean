import Mathlib.Data.Vector.Basic
import VmkitCore.ObjectModel.Compression

/-! # Tracing values

Values that the collector traces are built from references to objects by options,
sequences and boxes. Tracing a value calls the tracer on its references, and puts
the new references where the old ones were.
-/

namespace VmkitCore

/-- A reference of MMTk, which is never null. -/
structure ObjectReference where
  object : VMKitObject
  ne_null : object ≠ .null
  deriving DecidableEq

/-- A compressed reference. -/
structure VMKitNarrow where
  raw : ℕ
  deriving DecidableEq, Repr

structure FatInternalPointer where
  offset : ℕ
  object : VMKitObject
  deriving DecidableEq, Repr

/-- The address of a value in the heap, which is never null. -/
structure GcPtr where
  ptr : ℕ
  ne_zero : ptr ≠ 0
  deriving DecidableEq

namespace VMKitObject

/-- `try_into` -/
def toObjectReference (o : VMKitObject) : Option ObjectReference :=
  if h : o = .null then none else some ⟨o, h⟩

/-- Every reference the tracer was called on, next to the value afterwards. -/
def trace (f : ObjectReference → ObjectReference) (o : VMKitObject) :
    VMKitObject × List ObjectReference :=
  match o.toObjectReference with
  | none => (o, [])
  | some r => (if (f r).object ≠ o then (f r).object else o, [r])

end VMKitObject

namespace VMKitNarrow

variable (ops : CompressedOps)

def encode (o : VMKitObject) : VMKitNarrow := ⟨ops.encode o⟩

def toObject (n : VMKitNarrow) : VMKitObject := ops.decode n.raw

def trace (f : ObjectReference → ObjectReference) (n : VMKitNarrow) :
    VMKitNarrow × List ObjectReference :=
  let (o, calls) := (n.toObject ops).trace f
  (encode ops o, calls)

end VMKitNarrow

/-- `object()` returns a copy of the reference, and the copy is what is traced. -/
def FatInternalPointer.trace (f : ObjectReference → ObjectReference) (p : FatInternalPointer) :
    FatInternalPointer × List ObjectReference :=
  (p, (p.object.trace f).2)

namespace GcPtr

def asObject (p : GcPtr) : ObjectReference := ⟨⟨p.ptr⟩, fun h => p.ne_zero (congrArg (·.address) h)⟩

def ofObject (r : ObjectReference) : GcPtr :=
  ⟨r.object.address, fun h => r.ne_null (congrArg VMKitObject.mk h)⟩

def trace (f : ObjectReference → ObjectReference) (p : GcPtr) : GcPtr × List ObjectReference :=
  (if f p.asObject ≠ p.asObject then ofObject (f p.asObject) else p, [p.asObject])

end GcPtr

/-- The types that are traced. -/
inductive Traceable
  | object | narrow | fatInternalPointer | gcPtr
  | option (t : Traceable) | vec (t : Traceable) | array (t : Traceable) (n : ℕ)
  | slice (t : Traceable) | box (t : Traceable)
  deriving DecidableEq, Repr

/-- Trace the elements of a sequence from the first to the last one. -/
def traceElements {α : Type} (trace : α → α × List ObjectReference) :
    List α → List α × List ObjectReference
  | [] => ([], [])
  | x :: xs =>
    let (x', calls) := trace x
    let (xs', calls') := traceElements trace xs
    (x' :: xs', calls ++ calls')

theorem length_traceElements {α : Type} (trace : α → α × List ObjectReference) (l : List α) :
    (traceElements trace l).1.length = l.length := by
  induction l with
  | nil => rfl
  | cons x xs ih => simp [traceElements, ih]

namespace Traceable

def Value : Traceable → Type
  | object => VMKitObject
  | narrow => VMKitNarrow
  | fatInternalPointer => FatInternalPointer
  | gcPtr => GcPtr
  | option t => Option t.Value
  | vec t | slice t => List t.Value
  | array t n => List.Vector t.Value n
  | box t => t.Value

/-- `Trace::trace` -/
def trace (ops : CompressedOps) (f : ObjectReference → ObjectReference) :
    (t : Traceable) → t.Value → t.Value × List ObjectReference
  | object, o => VMKitObject.trace f o
  | narrow, n => VMKitNarrow.trace ops f n
  | fatInternalPointer, p => FatInternalPointer.trace f p
  | gcPtr, p => GcPtr.trace f p
  | option _, none => (none, [])
  | option t, some v => (some (t.trace ops f v).1, (t.trace ops f v).2)
  | vec t, l | slice t, l => traceElements (t.trace ops f) l
  | array t _, ⟨l, h⟩ =>
    (⟨(traceElements (t.trace ops f) l).1, (length_traceElements _ l).trans h⟩,
      (traceElements (t.trace ops f) l).2)
  | box t, v => t.trace ops f v

end Traceable

/-- The reference in the place of a traced one; null stays null. -/
def moved (f : ObjectReference → ObjectReference) (o : VMKitObject) : VMKitObject :=
  match o.toObjectReference with
  | none => o
  | some r => (f r).object

/-- A single pointer inside a value. -/
inductive Pointer
  | object (o : VMKitObject)
  | narrow (n : VMKitNarrow)
  | fatInternalPointer (p : FatInternalPointer)
  | gcPtr (p : GcPtr)
  deriving DecidableEq

/-- The object a pointer is about. -/
def Pointer.target (ops : CompressedOps) : Pointer → VMKitObject
  | object o => o
  | narrow n => n.toObject ops
  | fatInternalPointer p => p.object
  | gcPtr p => p.asObject.object

namespace Traceable

def pointers : (t : Traceable) → t.Value → List Pointer
  | object, o => [.object o]
  | narrow, n => [.narrow n]
  | fatInternalPointer, p => [.fatInternalPointer p]
  | gcPtr, p => [.gcPtr p]
  | option _, none => []
  | option t, some v => t.pointers v
  | vec t, l | slice t, l => l.flatMap t.pointers
  | array t _, v => v.toList.flatMap t.pointers
  | box t, v => t.pointers v

/-- The value with the new reference in every place and everything else unchanged. -/
def replace (ops : CompressedOps) (f : ObjectReference → ObjectReference) :
    (t : Traceable) → t.Value → t.Value
  | object, o => moved f o
  | narrow, n => .encode ops (moved f (n.toObject ops))
  | fatInternalPointer, p => { p with object := moved f p.object }
  | gcPtr, p => .ofObject (f p.asObject)
  | option _, none => none
  | option t, some v => some (t.replace ops f v)
  | vec t, l | slice t, l => l.map (t.replace ops f)
  | array t _, v => v.map (t.replace ops f)
  | box t, v => t.replace ops f v

def targets (ops : CompressedOps) (t : Traceable) (v : t.Value) : List VMKitObject :=
  (t.pointers v).map (Pointer.target ops)

/--
The tracer is called once on every reference that is not null, and the new references are in
the places of the old ones, with nothing else changed.
-/
structure Traced (ops : CompressedOps) (f : ObjectReference → ObjectReference) (t : Traceable)
    (v : t.Value) : Prop where
  calls : (t.trace ops f v).2 = (t.targets ops v).filterMap VMKitObject.toObjectReference
  value : (t.trace ops f v).1 = t.replace ops f v
  targets : t.targets ops (t.trace ops f v).1 = (t.targets ops v).map (moved f)

end Traceable

variable {ops : CompressedOps} {f : ObjectReference → ObjectReference}

namespace VMKitObject

variable {o : VMKitObject}

theorem trace_fst : (o.trace f).1 = moved f o := by
  unfold trace moved
  cases o.toObjectReference with
  | none => rfl
  | some r =>
    dsimp only
    split
    · rfl
    · next h => exact (not_not.mp h).symm

theorem trace_snd : (o.trace f).2 = [o].filterMap toObjectReference := by
  unfold trace
  cases h : o.toObjectReference <;> simp [h]

end VMKitObject

namespace GcPtr

theorem trace_fst (p : GcPtr) : (p.trace f).1 = ofObject (f p.asObject) := by
  unfold trace
  split
  · rfl
  · next h => rw [not_not.mp h]; rfl

theorem trace_snd (p : GcPtr) :
    (p.trace f).2 = [p.asObject.object].filterMap VMKitObject.toObjectReference := by
  simp [trace, VMKitObject.toObjectReference, p.asObject.ne_null]

theorem moved_asObject (p : GcPtr) : moved f p.asObject.object = (f p.asObject).object := by
  simp [moved, VMKitObject.toObjectReference, p.asObject.ne_null]

end GcPtr

section Elements

variable {α : Type} {trace : α → α × List ObjectReference} {l : List α}

theorem traceElements_fst_iff {g : α → α} :
    (traceElements trace l).1 = l.map g ↔ ∀ x ∈ l, (trace x).1 = g x := by
  induction l with
  | nil => simp [traceElements]
  | cons x xs ih => simp [traceElements, ih]

theorem traceElements_snd : (traceElements trace l).2 = l.flatMap fun x => (trace x).2 := by
  induction l with
  | nil => rfl
  | cons x xs ih => simp [traceElements, ih]

end Elements

namespace Traceable

variable {t : Traceable} {v : t.Value}

/-- The tracer is called on every reference that is not null, once for each place. -/
theorem trace_snd (v : t.Value) :
    (t.trace ops f v).2 = (t.targets ops v).filterMap VMKitObject.toObjectReference := by
  have hlist : ∀ {t : Traceable} (l : List t.Value), (∀ v, (t.trace ops f v).2 =
      (t.targets ops v).filterMap VMKitObject.toObjectReference) →
      (traceElements (t.trace ops f) l).2 =
        ((l.flatMap t.pointers).map (Pointer.target ops)).filterMap
          VMKitObject.toObjectReference := by
    intro t l ih
    rw [traceElements_snd, List.map_flatMap, List.filterMap_flatMap]
    exact List.flatMap_congr fun x _ => ih x
  induction t with
  | object | narrow | fatInternalPointer => exact VMKitObject.trace_snd
  | gcPtr => exact GcPtr.trace_snd v
  | option t ih =>
    cases v with
    | none => rfl
    | some v => exact ih v
  | vec t ih | slice t ih => exact hlist v ih
  | array t n ih => exact hlist v.1 ih
  | box t ih => exact ih v

/-- Every place is written but those in fat internal pointers. -/
theorem trace_fst_iff (v : t.Value) : (t.trace ops f v).1 = t.replace ops f v ↔
    ∀ p, .fatInternalPointer p ∈ t.pointers v → moved f p.object = p.object := by
  have hlist : ∀ {t : Traceable} (l : List t.Value), (∀ v, (t.trace ops f v).1 =
      t.replace ops f v ↔
        ∀ p, .fatInternalPointer p ∈ t.pointers v → moved f p.object = p.object) →
      ((traceElements (t.trace ops f) l).1 = l.map (t.replace ops f) ↔
        ∀ p, .fatInternalPointer p ∈ l.flatMap t.pointers → moved f p.object = p.object) := by
    intro t l ih
    rw [traceElements_fst_iff]
    constructor
    · intro h p hp
      obtain ⟨x, hx, hp⟩ := List.mem_flatMap.mp hp
      exact (ih x).mp (h x hx) p hp
    · intro h x hx
      exact (ih x).mpr fun p hp => h p (List.mem_flatMap.mpr ⟨x, hx, hp⟩)
  induction t with
  | object => exact iff_of_true VMKitObject.trace_fst (by simp [pointers])
  | narrow =>
    refine iff_of_true ?_ (by simp [pointers])
    exact congrArg (VMKitNarrow.encode ops) VMKitObject.trace_fst
  | fatInternalPointer =>
    constructor
    · intro h p hp
      cases List.mem_singleton.mp hp
      exact (congrArg FatInternalPointer.object h).symm
    · intro h
      have hv := h v (List.mem_singleton.mpr rfl)
      change v = { v with object := moved f v.object }
      rw [hv]
      rfl
  | gcPtr => exact iff_of_true (GcPtr.trace_fst v) (by simp [pointers])
  | option t ih =>
    cases v with
    | none => exact iff_of_true rfl (by simp [pointers])
    | some v => exact (Option.some_inj).trans (ih v)
  | vec t ih | slice t ih => exact hlist v ih
  | array t n ih => exact Subtype.ext_iff.trans (hlist v.1 ih)
  | box t ih => exact ih v

/-- A replaced value refers to the new places, if its narrow pointers can express them. -/
theorem targets_replace (v : t.Value) (hnarrow : ∀ n, .narrow n ∈ t.pointers v →
      ops.decode (ops.encode (moved f (n.toObject ops))) = moved f (n.toObject ops)) :
    t.targets ops (t.replace ops f v) = (t.targets ops v).map (moved f) := by
  have hlist : ∀ {t : Traceable} (l : List t.Value), (∀ v, (∀ n, .narrow n ∈ t.pointers v →
      ops.decode (ops.encode (moved f (n.toObject ops))) = moved f (n.toObject ops)) →
      t.targets ops (t.replace ops f v) = (t.targets ops v).map (moved f)) →
      (∀ n, .narrow n ∈ l.flatMap t.pointers →
        ops.decode (ops.encode (moved f (n.toObject ops))) = moved f (n.toObject ops)) →
      ((l.map (t.replace ops f)).flatMap t.pointers).map (Pointer.target ops) =
        ((l.flatMap t.pointers).map (Pointer.target ops)).map (moved f) := by
    intro t l ih hn
    rw [List.flatMap_map, List.map_flatMap, List.map_flatMap, List.map_flatMap]
    exact List.flatMap_congr fun x hx => ih x fun n hm => hn n (List.mem_flatMap.mpr ⟨x, hx, hm⟩)
  induction t with
  | object | fatInternalPointer => rfl
  | narrow => exact congrArg (fun o => [o]) (hnarrow v (List.mem_singleton.mpr rfl))
  | gcPtr => exact congrArg (fun o => [o]) (GcPtr.moved_asObject v).symm
  | option t ih =>
    cases v with
    | none => rfl
    | some v => exact ih v hnarrow
  | vec t ih | slice t ih => exact hlist v ih hnarrow
  | array t n ih => exact hlist v.1 ih hnarrow
  | box t ih => exact ih v hnarrow

/--
Where the narrow pointers of a value survive encoding, it is traced correctly exactly when the
tracer leaves every object where it is that a fat internal pointer of the value points into.
-/
theorem traced_iff (v : t.Value) (hnarrow : ∀ n, .narrow n ∈ t.pointers v →
      ops.decode (ops.encode (moved f (n.toObject ops))) = moved f (n.toObject ops)) :
    Traced ops f t v ↔
      ∀ p, .fatInternalPointer p ∈ t.pointers v → moved f p.object = p.object := by
  constructor
  · intro h
    exact (trace_fst_iff v).mp h.value
  · intro h
    have hv : (t.trace ops f v).1 = t.replace ops f v := (trace_fst_iff v).mpr h
    exact ⟨trace_snd v, hv, by rw [hv]; exact targets_replace v hnarrow⟩

/-- A heap of one chunk. -/
def oneChunk : CompressedOps :=
  .init false 3 ⟨2 ^ 22, 2 ^ 23, by decide, by decide, by decide, ⟨1, rfl⟩, ⟨2, rfl⟩⟩

/-- Every object moves by a page. -/
def slide (r : ObjectReference) : ObjectReference :=
  ⟨⟨r.object.address + 4096⟩, fun h => by cases congrArg VMKitObject.address h⟩

theorem traced_narrow : Traced oneChunk slide (.vec .narrow) [⟨2 ^ 22⟩, ⟨0⟩] := by
  refine (traced_iff (t := .vec .narrow) _ fun n hn => ?_).mpr (by simp [pointers])
  replace hn : Pointer.narrow n ∈ [.narrow ⟨2 ^ 22⟩, .narrow ⟨0⟩] := hn
  simp only [List.mem_cons, Pointer.narrow.injEq, List.not_mem_nil, or_false] at hn
  rcases hn with rfl | rfl <;> decide

/-- The object moves, and the pointer into it still refers to the old place. -/
theorem fat_pointer_stale :
    ¬ Traced oneChunk slide .fatInternalPointer (⟨8, ⟨2 ^ 22⟩⟩ : FatInternalPointer) := by
  intro h
  have hm := congrArg FatInternalPointer.object h.value
  exact absurd hm (by decide)

end Traceable

end VmkitCore
