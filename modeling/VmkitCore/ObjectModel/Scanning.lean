import VmkitCore.ObjectModel.Tracing

/-! # Scanning objects

The collector visits the slots of an object now and loads, traces and stores each of
them later, or it scans the object and traces its references at once. Which way it
goes depends on the metadata of the object, which may be an object itself.
-/

namespace VmkitCore

namespace Scanning

/-- Where a reference is. -/
inductive Slot
  /-- In the copy of the metadata that `scan_object` has on its stack. -/
  | metadataCopy
  | field (address : ℕ)
  deriving DecidableEq, Repr

/-- References, and the metadata fields of the headers. -/
structure Heap where
  /-- What the stack has where the copy of the metadata is, or was. -/
  metadataCopy : Option ObjectReference
  field : ℕ → Option ObjectReference
  metadata : VMKitObject → ℕ

abbrev Tracer := ObjectReference → ObjectReference

/-- The callbacks of a virtual machine; which fields one visits depends on the object only. -/
inductive TraceCallback
  | scanSlots (fields : VMKitObject → List ℕ)
  | traceObject (trace : VMKitObject → Tracer → Heap → Heap × List ObjectReference)
  | none

/-- The `Metadata` of a virtual machine, with its `ALWAYS_TRACE`. -/
structure Metadata (μ : Type*) where
  alwaysTrace : Bool
  toBitfield : μ → ℕ
  fromBitfield : ℕ → μ
  trace : μ → TraceCallback
  isObject : μ → Bool
  toSlot : μ → Option Slot
  toObjectReference : μ → Option ObjectReference
  /-- A virtual machine need not be able to do this. -/
  fromObjectReference : ObjectReference → Option μ
  toObjectReference_from : ∀ r m, fromObjectReference r = some m →
    toObjectReference (fromBitfield (toBitfield m)) = some r

namespace Heap

def load (h : Heap) : Slot → Option ObjectReference
  | .metadataCopy => h.metadataCopy
  | .field a => h.field a

def store (h : Heap) (s : Slot) (r : ObjectReference) : Heap :=
  match s with
  | .metadataCopy => { h with metadataCopy := some r }
  | .field a => { h with field := Function.update h.field a (some r) }

/-- `TraceSlotVisitor::visit_slot`, and what MMTk does with an enqueued slot. -/
def visitSlot (f : Tracer) (h : Heap) (s : Slot) : Heap × List ObjectReference :=
  match h.load s with
  | none => (h, [])
  | some r => (h.store s (f r), [r])

/-- Visit slots in their order, with every reference the tracer is called on. -/
def visitSlots (f : Tracer) (h : Heap) : List Slot → Heap × List ObjectReference
  | [] => (h, [])
  | s :: slots =>
    let (h', traced) := h.visitSlot f s
    let (h'', traced') := h'.visitSlots f slots
    (h'', traced ++ traced')

end Heap

namespace Metadata

variable {μ : Type*} (vm : Metadata μ)

/-- `header().metadata()` -/
def ofObject (h : Heap) (o : VMKitObject) : μ := vm.fromBitfield (h.metadata o)

/-- The slots that are enqueued; `none` is a panic. -/
def scanObject (h : Heap) (o : VMKitObject) : Option (List Slot) :=
  let metadata := vm.ofObject h o
  (if vm.isObject metadata then (vm.toSlot metadata).map ([·]) else some []).bind fun slots =>
    match vm.trace metadata with
    | .scanSlots fields => some (slots ++ (fields o).map .field)
    | .none => some slots
    | .traceObject _ => none

/-- Trace the metadata if it is an object. -/
def traceMetadata (f : Tracer) (h : Heap) (o : VMKitObject) :
    Option (Heap × List ObjectReference) :=
  let metadata := vm.ofObject h o
  match if vm.isObject metadata then vm.toObjectReference metadata else none with
  | none => some (h, [])
  | some metaObject =>
    if f metaObject ≠ metaObject then
      (vm.fromObjectReference (f metaObject)).map fun m =>
        ({ h with metadata := Function.update h.metadata o (vm.toBitfield m) }, [metaObject])
    else some (h, [metaObject])

def scanObjectAndTraceEdges (f : Tracer) (h : Heap) (o : VMKitObject) :
    Option (Heap × List ObjectReference) :=
  (vm.traceMetadata f h o).map fun (h', traced) =>
    let (h'', traced') := match vm.trace (vm.ofObject h o) with
      | .scanSlots fields => h'.visitSlots f ((fields o).map .field)
      | .none => (h', [])
      | .traceObject trace => trace o f h'
    (h'', traced ++ traced')

def supportSlotEnqueuing (h : Heap) (o : VMKitObject) : Bool :=
  let metadata := vm.ofObject h o
  !vm.alwaysTrace &&
    (match vm.trace metadata with | .scanSlots _ => true | _ => false) &&
    (!vm.isObject metadata || (vm.toSlot metadata).isSome)

/-- The fields that the callback of an object visits. -/
def fields (h : Heap) (o : VMKitObject) : List ℕ :=
  match vm.trace (vm.ofObject h o) with
  | .scanSlots fields => fields o
  | _ => []

/--
Enqueuing the slots of an object has the effect of tracing its edges: on its fields, on the
metadata in its header, and on what is traced.
-/
def SameEffect (f : Tracer) (h : Heap) (o : VMKitObject) : Prop :=
  ∃ slots h' traced, vm.scanObject h o = some slots ∧
    vm.scanObjectAndTraceEdges f h o = some (h', traced) ∧
    (∀ a ∈ vm.fields h o, (h.visitSlots f slots).1.field a = h'.field a) ∧
    (h.visitSlots f slots).1.metadata o = h'.metadata o ∧ (h.visitSlots f slots).2 = traced

/-- The slot of the metadata still has its reference, and the tracer does not move the object. -/
def MetadataStays (f : Tracer) (h : Heap) (o : VMKitObject) : Prop :=
  let metadata := vm.ofObject h o
  vm.isObject metadata = true → ∀ s, vm.toSlot metadata = some s →
    h.load s = vm.toObjectReference metadata ∧
    ∀ r, vm.toObjectReference metadata = some r → f r = r

end Metadata

variable {f : Tracer} {h h' : Heap} {s : Slot} {slots : List Slot}

namespace Heap

theorem load_store (h : Heap) (s t : Slot) (r : ObjectReference) :
    (h.store s r).load t = if t = s then some r else h.load t := by
  cases s <;> cases t <;> simp [store, load, Function.update_apply]

theorem store_load {r : ObjectReference} (hr : h.load s = some r) : h.store s r = h := by
  cases s with
  | metadataCopy => simp only [store, ← show h.metadataCopy = some r from hr]
  | field a => simp only [store, ← show h.field a = some r from hr, Function.update_eq_self]

/-- Visits change neither the headers nor which slots are null. -/
structure SameShape (h h' : Heap) : Prop where
  metadata : h'.metadata = h.metadata
  isSome : ∀ s, (h'.load s).isSome = (h.load s).isSome

theorem visitSlot_shape (f : Tracer) (h : Heap) (s : Slot) : SameShape h (h.visitSlot f s).1 := by
  unfold visitSlot
  split
  · exact ⟨rfl, fun _ => rfl⟩
  · next r hr =>
    refine ⟨by cases s <;> rfl, fun t => ?_⟩
    rw [load_store]
    split
    · next ht => rw [ht, hr]; rfl
    · rfl

theorem visitSlot_snd (f : Tracer) (h : Heap) (s : Slot) :
    (h.visitSlot f s).2 = (h.load s).toList := by
  unfold visitSlot
  cases h.load s <;> rfl

/-- Visiting the slot of an object that stays where it is changes nothing. -/
theorem visitSlot_fst (hf : ∀ r, h.load s = some r → f r = r) : (h.visitSlot f s).1 = h := by
  unfold visitSlot
  cases hr : h.load s with
  | none => rfl
  | some r =>
    dsimp only
    rw [hf r hr, store_load hr]

theorem visitSlots_metadata (f : Tracer) (h : Heap) (slots : List Slot) :
    (h.visitSlots f slots).1.metadata = h.metadata := by
  induction slots generalizing h with
  | nil => rfl
  | cons s slots ih => exact (ih _).trans (h.visitSlot_shape f s).metadata

/-- How often the tracer is called depends only on which slots are null. -/
theorem visitSlots_length (f : Tracer) (slots : List Slot)
    (hs : ∀ s, (h'.load s).isSome = (h.load s).isSome) :
    (h'.visitSlots f slots).2.length = (h.visitSlots f slots).2.length := by
  induction slots generalizing h h' with
  | nil => rfl
  | cons s slots ih =>
    have hrest := ih fun t => ((h'.visitSlot_shape f s).isSome t).trans
      ((hs t).trans ((h.visitSlot_shape f s).isSome t).symm)
    have hfirst : (h'.visitSlot f s).2.length = (h.visitSlot f s).2.length := by
      have hsome := hs s
      unfold visitSlot
      cases hl : h.load s <;> cases hl' : h'.load s <;> simp_all
    simp only [visitSlots, List.length_append, hrest, hfirst]

end Heap

namespace Metadata

variable {μ : Type*} {vm : Metadata μ} {o : VMKitObject}

/-- An object whose slots are to be enqueued has some callback for them, and a metadata slot. -/
theorem of_supportSlotEnqueuing (hs : vm.supportSlotEnqueuing h o = true) :
    (∃ fields, vm.trace (vm.ofObject h o) = .scanSlots fields) ∧
      (vm.isObject (vm.ofObject h o) = true → ∃ s, vm.toSlot (vm.ofObject h o) = some s) := by
  simp only [supportSlotEnqueuing, Bool.and_eq_true, Bool.or_eq_true, Bool.not_eq_true'] at hs
  obtain ⟨⟨-, htrace⟩, hslot⟩ := hs
  constructor
  · split at htrace
    · next fields h => exact ⟨fields, h⟩
    · cases htrace
  · intro ho
    rw [ho] at hslot
    exact Option.isSome_iff_exists.mp (hslot.resolve_left Bool.noConfusion)

variable {fields : VMKitObject → List ℕ} (htrace : vm.trace (vm.ofObject h o) = .scanSlots fields)
include htrace

theorem scanObject_of_not_isObject (ho : vm.isObject (vm.ofObject h o) = false) :
    vm.scanObject h o = some ((fields o).map .field) := by
  simp [scanObject, ho, htrace]

theorem scanObject_of_isObject (ho : vm.isObject (vm.ofObject h o) = true)
    (hslot : vm.toSlot (vm.ofObject h o) = some s) :
    vm.scanObject h o = some (s :: (fields o).map .field) := by
  simp [scanObject, ho, htrace, hslot]

theorem scanObjectAndTraceEdges_eq {traced : List ObjectReference}
    (hm : vm.traceMetadata f h o = some (h', traced)) :
    vm.scanObjectAndTraceEdges f h o =
      some ((h'.visitSlots f ((fields o).map .field)).1,
        traced ++ (h'.visitSlots f ((fields o).map .field)).2) := by
  simp [scanObjectAndTraceEdges, hm, htrace]

omit htrace in
/-- The metadata object is traced, and the header refers to wherever it is then. -/
theorem traceMetadata_spec (ho : vm.isObject (vm.ofObject h o) = true)
    {traced : List ObjectReference} (hm : vm.traceMetadata f h o = some (h', traced)) :
    traced = (vm.toObjectReference (vm.ofObject h o)).toList ∧ h'.load = h.load ∧
      ∀ r, vm.toObjectReference (vm.ofObject h o) = some r →
        vm.toObjectReference (vm.ofObject h' o) = some (f r) := by
  rw [traceMetadata, if_pos ho] at hm
  cases hr : vm.toObjectReference (vm.ofObject h o) with
  | none =>
    rw [hr] at hm
    cases hm
    exact ⟨rfl, rfl, nofun⟩
  | some r =>
    simp only [hr] at hm
    split at hm
    · obtain ⟨m, hfrom, hm⟩ := Option.map_eq_some_iff.mp hm
      cases hm
      refine ⟨rfl, by funext t; cases t <;> rfl, fun r' hr' => ?_⟩
      cases hr'
      simpa [ofObject] using vm.toObjectReference_from _ _ hfrom
    · next hf =>
      cases hm
      refine ⟨rfl, rfl, fun r' hr' => ?_⟩
      cases hr'
      rw [hr, not_not.mp hf]

theorem sameEffect_of_stays (hs : vm.supportSlotEnqueuing h o = true)
    (hstays : vm.MetadataStays f h o) : vm.SameEffect f h o := by
  cases ho : vm.isObject (vm.ofObject h o) with
  | false =>
    have hm : vm.traceMetadata f h o = some (h, []) := by simp [traceMetadata, ho]
    exact ⟨_, _, _, scanObject_of_not_isObject htrace ho, scanObjectAndTraceEdges_eq htrace hm,
      fun _ _ => rfl, rfl, rfl⟩
  | true =>
    obtain ⟨s, hslot⟩ := (of_supportSlotEnqueuing hs).2 ho
    obtain ⟨hload, hf⟩ := hstays ho s hslot
    have hm : vm.traceMetadata f h o = some (h, (h.load s).toList) := by
      rw [traceMetadata, if_pos ho, hload]
      cases hr : vm.toObjectReference (vm.ofObject h o) with
      | none => rfl
      | some r =>
        dsimp only
        rw [if_neg (not_not.mpr (hf r hr))]
        rfl
    have hfst := Heap.visitSlot_fst (f := f) (h := h) (s := s) fun r hr => hf r (hload ▸ hr)
    refine ⟨_, _, _, scanObject_of_isObject htrace ho hslot, scanObjectAndTraceEdges_eq htrace hm,
      fun _ _ => ?_, ?_, ?_⟩
    · simp only [Heap.visitSlots, hfst]
    · simp only [Heap.visitSlots, hfst]
    · simp only [Heap.visitSlots, hfst, Heap.visitSlot_snd]

theorem stays_of_sameEffect (hsame : vm.SameEffect f h o) : vm.MetadataStays f h o := by
  intro ho s hslot
  obtain ⟨slots, h₂, traced, hscan, htraced, -, hheader, hlist⟩ := hsame
  rw [scanObject_of_isObject htrace ho hslot] at hscan
  obtain rfl := Option.some.inj hscan
  obtain ⟨⟨h₁, traced₁⟩, hm, -⟩ := Option.map_eq_some_iff.mp htraced
  rw [scanObjectAndTraceEdges_eq htrace hm] at htraced
  cases htraced
  obtain ⟨rfl, hloads, hobject⟩ := traceMetadata_spec ho hm
  -- the fields are traced equally often, so the lists agree on the metadata
  have hlength := Heap.visitSlots_length f ((fields o).map .field)
    fun t => ((h.visitSlot_shape f s).isSome t).trans
      (congrArg (fun load => (load t).isSome) hloads.symm)
  obtain ⟨hfirst, -⟩ := List.append_inj' hlist hlength
  have hload := (h.visitSlot_snd f s).symm.trans hfirst
  refine ⟨by simpa using congrArg List.head? hload, fun r hr => ?_⟩
  rw [Heap.visitSlots_metadata, Heap.visitSlots_metadata] at hheader
  have hmoved := hobject r hr
  rw [ofObject, ← hheader, ← ofObject, hr] at hmoved
  exact (Option.some.inj hmoved).symm

end Metadata

/--
Scanning an object whose slots may be enqueued never panics, and has the effect of tracing its
edges exactly when its metadata is no object, or is one that stays and that its slot still has.
-/
theorem slot_enqueuing_iff {μ : Type*} {vm : Metadata μ} {f : Tracer} {h : Heap} {o : VMKitObject}
    (hs : vm.supportSlotEnqueuing h o = true) :
    (∃ slots, vm.scanObject h o = some slots) ∧
      (vm.SameEffect f h o ↔ vm.MetadataStays f h o) := by
  obtain ⟨⟨fields, htrace⟩, hslot⟩ := Metadata.of_supportSlotEnqueuing hs
  refine ⟨?_, Metadata.stays_of_sameEffect htrace, Metadata.sameEffect_of_stays htrace hs⟩
  cases ho : vm.isObject (vm.ofObject h o) with
  | false => exact ⟨_, Metadata.scanObject_of_not_isObject htrace ho⟩
  | true =>
    obtain ⟨s, hs⟩ := hslot ho
    exact ⟨_, Metadata.scanObject_of_isObject htrace ho hs⟩

/-- Metadata that is a reference to an object, whose slot is `VMKitObject::to_slot` of it. -/
def Metadata.reference : Metadata VMKitObject where
  alwaysTrace := false
  toBitfield o := o.address
  fromBitfield a := ⟨a⟩
  trace _ := .scanSlots fun o => [o.address + 8]
  isObject o := decide (o ≠ .null)
  toSlot _ := some .metadataCopy
  toObjectReference := VMKitObject.toObjectReference
  fromObjectReference r := some r.object
  toObjectReference_from := by
    rintro r _ ⟨⟩
    exact dif_neg r.ne_null

/-- All objects share one metadata object, and no stack word has been overwritten. -/
def Heap.shared : Heap where
  metadataCopy := VMKitObject.toObjectReference ⟨4096⟩
  field _ := none
  metadata _ := 4096

theorem slot_enqueuing_iff_still : Metadata.reference.SameEffect id .shared ⟨16⟩ := by
  refine (slot_enqueuing_iff (by decide)).2.mpr fun _ s hs => ?_
  cases hs
  exact ⟨rfl, fun _ _ => rfl⟩

/-- Every object moves by 64 bytes. -/
def shift : Tracer := fun r => ⟨⟨r.object.address + 64⟩, by simp [VMKitObject.null]⟩

theorem metadata_not_updated :
    Metadata.reference.supportSlotEnqueuing .shared ⟨16⟩ = true ∧
    Metadata.reference.scanObject .shared ⟨16⟩ = some [.metadataCopy, .field 24] ∧
    (Heap.shared.visitSlots shift [.metadataCopy, .field 24]).1.metadata ⟨16⟩ = 4096 ∧
    (∃ h traced, Metadata.reference.scanObjectAndTraceEdges shift .shared ⟨16⟩ = some (h, traced) ∧
      h.metadata ⟨16⟩ = 4160) ∧
    ¬ Metadata.reference.SameEffect shift .shared ⟨16⟩ := by
  refine ⟨rfl, rfl, rfl, ⟨_, _, rfl, rfl⟩, ?_⟩
  rintro ⟨slots, h, traced, hscan, htraced, -, hheader, -⟩
  cases hscan
  cases htraced
  exact absurd hheader (by decide)

end Scanning

end VmkitCore
