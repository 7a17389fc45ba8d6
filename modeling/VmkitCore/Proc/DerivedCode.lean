import VmkitCore.ObjectModel.Copy
import VmkitCore.Proc.Deriving

/-! # The generated code

What the generated code does is what the attributes and the fields of the type say: which slots it
visits in an object, and how large and how aligned the object model takes the object to be.
-/

namespace VmkitCore.Derive

open NestedMeta

/-! ### Running the code -/

/--
What the code refers to: other types, the expressions of the attributes on the object at an
address, and where the type itself has its fields.
-/
structure Meaning (T E : Type) where
  sizeOf : T → ℕ
  scanObject : T → ByteMemory → ℕ → List ℕ
  asUsize : T → ByteMemory → ℕ → ℕ
  asMutPtr : T → ByteMemory → ℕ → ℕ
  constant : E → ℕ
  usize : E → ByteMemory → ℕ → ℕ
  pointer : E → ByteMemory → ℕ → ℕ
  /-- What the type of such an expression says that it points to. -/
  pointee : E → T
  visit : E → ByteMemory → ℕ → List ℕ
  size : ℕ
  align : ℕ
  variant : ByteMemory → ℕ → ℕ
  /-- The offset of a field of a variant. -/
  offset : ℕ → ℕ → ℕ

section Semantics

variable {T E : Type} (meaning : Meaning T E) (data : Data T) (m : ByteMemory) (a : ℕ)

/-- The compiler refuses a field that there is not. -/
def AccessCode.eval (getter : E → ByteMemory → ℕ → ℕ) (field : T → ByteMemory → ℕ → ℕ) :
    AccessCode E → Option ℕ
  | .getter expr => some (getter expr m a)
  | .field name => (data.field name).map fun p => field p.1.type m (a + meaning.offset 0 p.2)

def Meaning.evalLength := AccessCode.eval meaning data m a meaning.usize meaning.asUsize

def Meaning.evalData := AccessCode.eval meaning data m a meaning.pointer meaning.asMutPtr

/-- `data.add(i)`, on a pointer to the type. -/
def Meaning.add (type : T) (start i : ℕ) : ℕ := (start + i * meaning.sizeOf type) % 2 ^ 64

/-- The body of the loop, for the given `i`. The `unwrap` panics if the pointer is null. -/
def Meaning.visitElements (meaning : Meaning T E) (m : ByteMemory) (type : T) (start : ℕ) :
    List ℕ → Option (List ℕ)
  | [] => some []
  | i :: is =>
    let ptr := meaning.add type start i
    if ptr = 0 then none
    else (meaning.visitElements m type start is).map (meaning.scanObject type m ptr ++ ·)

/-- A field is cast to a pointer to elements, and an expression is not. -/
def ElementLoop.pointee (loop : ElementLoop T E) : T :=
  match loop.data with
  | .getter expr => meaning.pointee expr
  | .field _ => loop.element

def ElementLoop.run (loop : ElementLoop T E) : Option (List ℕ) := do
  let length ← meaning.evalLength data m a loop.length
  let start ← meaning.evalData data m a loop.data
  meaning.visitElements m (loop.pointee meaning) start (List.range length)

/-- `mark`, on the field of a variant that a pattern binds. -/
def Meaning.mark (variant : ℕ) (fields : List (Field T)) (i : ℕ) : List ℕ :=
  fields[i]?.elim [] fun field => meaning.scanObject field.type m (a + meaning.offset variant i)

def TraceImpl.run (impl : TraceImpl T E) : Option (List ℕ) := do
  let elements ← impl.elements.elim (some []) (·.run meaning data m a)
  let fields ← data.variants[meaning.variant m a]?
  let arm ← impl.arms[meaning.variant m a]?
  some (elements ++ arm.flatMap (meaning.mark m a (meaning.variant m a) fields))

/--
The slots that the callback of the metadata visits; there are none of a callback that traces, for
which the macro implements a method that the trait does not have.
-/
def Output.scanObject (out : Output T E) : Option (List ℕ) :=
  match out.trace with
  | .none => some []
  | .generated true => out.traceImpl.bind (·.run meaning data m a)
  | .given true expr => some (meaning.visit expr m a)
  | .generated false | .given false _ => none

def ConstantCode.eval (ofType : ℕ) : ConstantCode E → ℕ
  | .zero => 0
  | .ofType => ofType
  | .expr e => meaning.constant e

def ComputeSizeCode.eval : ComputeSizeCode T E → Option ℕ
  | .given expr => some (meaning.usize expr m a)
  | .elements length element =>
    (meaning.evalLength data m a length).map fun n =>
      (meaning.size + n * meaning.sizeOf element) % 2 ^ 64

/-- The metadata as the object model has it; what the compiler refuses counts as zero. -/
def Output.gcMetadata (out : Output T E) : VmkitCore.GCMetadata where
  instanceSize := out.instanceSize.eval meaning meaning.size
  computeSize := out.computeSize.map fun code m o => (code.eval meaning data m o.address).getD 0
  alignment := out.alignment.eval meaning meaning.align
  computeAlignment := none

end Semantics

/-! ### Types that are scanned -/

/-- The types that implement `Scan`, apart from those of the virtual machine. -/
inductive ScanType
  | prim (size : ℕ)
  | object
  | array (element : ScanType) (n : ℕ)
  | vec (element : ScanType)

namespace ScanType

def size : ScanType → ℕ
  | prim size => size
  | object => 8
  | array element n => n * element.size
  | vec _ => 24

/-- `Scan::scan_object`; a vector has its elements where its buffer is. -/
def scanObject (buffer : ByteMemory → ℕ → ℕ × ℕ) : ScanType → ByteMemory → ℕ → List ℕ
  | prim _, _, _ => []
  | object, _, a => [a]
  | array element n, m, a =>
    (List.range n).flatMap fun i => element.scanObject buffer m (a + i * element.size)
  | vec element, m, a =>
    (List.range (buffer m a).2).flatMap fun i =>
      element.scanObject buffer m ((buffer m a).1 + i * element.size)

end ScanType

/-! ### What a type says -/

section Spec

variable {T E : Type} (meaning : Meaning T E) (data : Data T) (m : ByteMemory) (a : ℕ)

/-- What a getter says, or else a field. -/
inductive Access (getter : E → ByteMemory → ℕ → ℕ) (field : T → ByteMemory → ℕ → ℕ) :
    Option E → Option String → ℕ → Prop
  | getter {expr : E} {name? : Option String} :
      Access getter field (some expr) name? (getter expr m a)
  | field {name : String} {p : Field T × ℕ} : data.field name = some p →
      Access getter field none (some name) (field p.1.type m (a + meaning.offset 0 p.2))

def ArrayLike.Length (array : ArrayLike T E) : ℕ → Prop :=
  Access meaning data m a meaning.usize meaning.asUsize array.lengthGetter array.lengthField

/-- Where the elements of an array start. -/
def ArrayLike.Start (array : ArrayLike T E) : ℕ → Prop :=
  Access meaning data m a meaning.pointer meaning.asMutPtr array.dataGetter array.dataField

/-- What the data of an array points to. -/
def ArrayLike.pointee (array : ArrayLike T E) : T :=
  array.dataGetter.elim array.elementType meaning.pointee

/-- A field that is not to be ignored, and neither the length nor the data of an array. -/
structure Field.Traced (array? : Option (ArrayLike T E)) (field : Field T) : Prop where
  not_ignored : "ignore_trace" ∉ field.attrs
  not_array : ∀ name array, field.ident = some name → array? = some array →
    array.dataField ≠ some name ∧ array.lengthField ≠ some name

/-- The slots of an object: those of its traced fields, and of its elements. -/
inductive HasSlot (array? : Option (ArrayLike T E)) (slot : ℕ) : Prop
  | field {fields : List (Field T)} {i : ℕ} {field : Field T} :
      data.variants[meaning.variant m a]? = some fields → fields[i]? = some field →
      field.Traced array? →
      slot ∈ meaning.scanObject field.type m (a + meaning.offset (meaning.variant m a) i) →
      HasSlot array? slot
  | element {array : ArrayLike T E} {length start i : ℕ} : array? = some array →
      array.trace = true → array.Length meaning data m a length →
      array.Start meaning data m a start → i < length →
      slot ∈ meaning.scanObject (array.pointee meaning) m
        (meaning.add (array.pointee meaning) start i) →
      HasSlot array? slot

/-- The bytes of an object: as an expression says, or those of the type and of its elements. -/
inductive Payload (size : ObjectSize E) : Option (ArrayLike T E) → ℕ → Prop
  | compute {array? : Option (ArrayLike T E)} {expr : E} : size = .compute expr →
      Payload size array? (meaning.usize expr m a)
  | auto : size = .auto → Payload size none meaning.size
  | size {expr : E} : size = .size expr → Payload size none (meaning.constant expr)
  | elements {array : ArrayLike T E} {n : ℕ} : (∀ expr, size ≠ .compute expr) →
      array.Length meaning data m a n →
      Payload size (some array) ((meaning.size + n * meaning.sizeOf array.elementType) % 2 ^ 64)

/-- The alignment of objects; an expression that is to compute it is not in the metadata. -/
def Meaning.alignment (vm : VirtualMachine) : ObjectAlignment E → ℕ
  | .auto => meaning.align
  | .const e => if meaning.constant e = 0 then vm.maxAlignment else meaning.constant e
  | .compute _ => vm.maxAlignment

end Spec

/-! ### The code is what the type says -/

section Meets

variable {T E : Type} {meaning : Meaning T E} {data : Data T} {m : ByteMemory} {a : ℕ}
  {array : ArrayLike T E} {array? : Option (ArrayLike T E)} {gcMetadata : GCMetadata T E}
  {out : Output T E}

theorem accessCode_eval {getter : E → ByteMemory → ℕ → ℕ} {field : T → ByteMemory → ℕ → ℕ}
    {expr? : Option E} {name? : Option String} {missing : String} {code : AccessCode E}
    (h : accessCode expr? name? missing = .ok code) {n : ℕ} :
    code.eval meaning data m a getter field = some n ↔
      Access meaning data m a getter field expr? name? n := by
  cases expr? with
  | some expr =>
    cases h
    constructor
    · rintro ⟨⟩
      exact .getter
    · rintro ⟨⟩
      rfl
  | none =>
    cases name? with
    | none => cases h
    | some name =>
      cases h
      rw [AccessCode.eval, Option.map_eq_some_iff]
      constructor
      · rintro ⟨p, hp, rfl⟩
        exact .field hp
      · intro haccess
        cases haccess with
        | field hp => exact ⟨_, hp, rfl⟩

theorem lengthCode_eval {code : AccessCode E} (h : lengthCode array = .ok code) {n : ℕ} :
    meaning.evalLength data m a code = some n ↔ array.Length meaning data m a n :=
  accessCode_eval h

theorem dataCode_eval {code : AccessCode E} (h : dataCode array = .ok code) {start : ℕ} :
    meaning.evalData data m a code = some start ↔ array.Start meaning data m a start :=
  accessCode_eval h

theorem Access.unique {getter : E → ByteMemory → ℕ → ℕ} {field : T → ByteMemory → ℕ → ℕ}
    {expr? : Option E} {name? : Option String} {n n' : ℕ}
    (h : Access meaning data m a getter field expr? name? n)
    (h' : Access meaning data m a getter field expr? name? n') : n = n' := by
  cases h with
  | getter =>
    cases h'
    rfl
  | field hp =>
    cases h' with
    | field hp' =>
      cases hp.symm.trans hp'
      rfl

theorem isKept_iff {field : Field T} :
    field.isKept (fieldsToSkip array?) = true ↔ field.Traced array? := by
  have hskip : ∀ name, (fieldsToSkip array?).contains name = true ↔
      ∃ array, array? = some array ∧
        (array.dataField = some name ∨ array.lengthField = some name) := by
    intro name
    cases array? <;> simp [fieldsToSkip]
  have hignore : (!field.attrs.any (· = "ignore_trace")) = true ↔
      "ignore_trace" ∉ field.attrs := by
    simp only [Bool.not_eq_true', List.any_eq_false, decide_eq_true_eq]
    exact ⟨fun h hmem => h _ hmem rfl, fun h attr hmem hattr => h (hattr ▸ hmem)⟩
  rw [Field.isKept, Bool.and_eq_true, hignore]
  constructor
  · rintro ⟨hignored, hident⟩
    refine ⟨hignored, fun name array hname harray => ?_⟩
    rw [hname, Option.all_some, Bool.not_eq_true', ← Bool.not_eq_true, hskip] at hident
    exact not_or.mp fun h => hident ⟨array, harray, h⟩
  · rintro ⟨hignored, hident⟩
    refine ⟨hignored, ?_⟩
    cases hname : field.ident with
    | none => rfl
    | some name =>
      rw [Option.all_some, Bool.not_eq_true', ← Bool.not_eq_true, hskip]
      rintro ⟨array, harray, h⟩
      exact not_or.mpr (hident name array hname harray) h

/-- The pattern of a variant binds its traced fields. -/
theorem mem_keptFields {fields : List (Field T)} {i : ℕ} :
    i ∈ keptFields (fieldsToSkip array?) fields ↔
      ∃ field, fields[i]? = some field ∧ field.Traced array? := by
  simp only [keptFields, List.mem_map, List.mem_filter, Prod.exists, exists_eq_right,
    List.mk_mem_zipIdx_iff_getElem?, isKept_iff]

theorem dataCode_pointee {length code : AccessCode E} (h : dataCode array = .ok code) :
    ElementLoop.pointee meaning ⟨length, code, array.elementType⟩ = array.pointee meaning := by
  unfold dataCode at h
  unfold ArrayLike.pointee
  cases hgetter : array.dataGetter with
  | some expr =>
    rw [hgetter] at h
    cases h
    rfl
  | none =>
    rw [hgetter] at h
    cases hfield : array.dataField with
    | none =>
      rw [hfield] at h
      cases h
    | some name =>
      rw [hfield] at h
      cases h
      rfl

/-- The loop goes through, if none of the pointers is null. -/
theorem visitElements_eq_some {type : T} {start : ℕ} {is visited : List ℕ} :
    meaning.visitElements m type start is = some visited ↔
      (∀ i ∈ is, meaning.add type start i ≠ 0) ∧
        visited = is.flatMap fun i => meaning.scanObject type m (meaning.add type start i) := by
  induction is generalizing visited with
  | nil => simp [Meaning.visitElements, eq_comm]
  | cons i is ih =>
    rw [Meaning.visitElements, Option.ite_none_left_eq_some, Option.map_eq_some_iff,
      List.forall_mem_cons, List.flatMap_cons, and_assoc]
    apply and_congr_right
    intro _
    constructor
    · rintro ⟨rest, hrest, rfl⟩
      obtain ⟨hnull, rfl⟩ := ih.mp hrest
      exact ⟨hnull, rfl⟩
    · rintro ⟨hnull, rfl⟩
      exact ⟨_, ih.mpr ⟨hnull, rfl⟩, rfl⟩

/-- What the loop visits, if there is one. -/
inductive ElementsVisited (meaning : Meaning T E) (data : Data T) (m : ByteMemory) (a : ℕ)
    (array? : Option (ArrayLike T E)) : List ℕ → Prop
  | none : (∀ array, array? = some array → array.trace = false) →
      ElementsVisited meaning data m a array? []
  | some {array : ArrayLike T E} {length start : ℕ} : array? = some array → array.trace = true →
      array.Length meaning data m a length → array.Start meaning data m a start →
      (∀ i < length, meaning.add (array.pointee meaning) start i ≠ 0) →
      ElementsVisited meaning data m a array? ((List.range length).flatMap fun i =>
        meaning.scanObject (array.pointee meaning) m (meaning.add (array.pointee meaning) start i))

theorem elementsVisited_iff {loop : Option (ElementLoop T E)} (h : elementLoop array? = .ok loop)
    {visited : List ℕ} : loop.elim (some []) (·.run meaning data m a) = some visited ↔
      ElementsVisited meaning data m a array? visited := by
  by_cases htraced : ∃ array, array? = some array ∧ array.trace = true
  · obtain ⟨array, rfl, htrace⟩ := htraced
    obtain ⟨length, start, hlength, hstart, rfl⟩ := (elementLoop_of_traced htrace).mp h
    simp only [Option.elim_some, ElementLoop.run, Option.bind_eq_bind, Option.bind_eq_some_iff,
      lengthCode_eval hlength, dataCode_eval hstart, dataCode_pointee hstart,
      visitElements_eq_some, List.mem_range]
    constructor
    · rintro ⟨n, hn, p, hp, hnull, rfl⟩
      exact .some rfl htrace hn hp hnull
    · rintro (hnone | ⟨harray, -, hn, hp, hnull⟩)
      · cases htrace.symm.trans (hnone array rfl)
      · cases harray
        exact ⟨_, hn, _, hp, hnull, rfl⟩
  · have hnone : ∀ array, array? = some array → array.trace = false := fun array harray =>
      Bool.not_eq_true _ ▸ fun htrace => htraced ⟨array, harray, htrace⟩
    cases h.symm.trans (elementLoop_of_not_traced hnone)
    constructor
    · rintro ⟨⟩
      exact .none hnone
    · rintro (- | ⟨harray, htrace, -, -, -⟩)
      · rfl
      · exact absurd ⟨_, harray, htrace⟩ htraced

/-- The code visits the elements, and then the traced fields of the variant. -/
theorem scanObject_eq_some (h : generate gcMetadata array? data = .ok out)
    (htrace : gcMetadata.trace = .auto true) {slots : List ℕ} :
    out.scanObject meaning data m a = some slots ↔ ∃ visited fields,
      ElementsVisited meaning data m a array? visited ∧
      data.variants[meaning.variant m a]? = some fields ∧
      slots = visited ++ (keptFields (fieldsToSkip array?) fields).flatMap
        (meaning.mark m a (meaning.variant m a) fields) := by
  obtain ⟨traceImpl, trace, computeSize, hcode, -, rfl⟩ := generate_eq_ok.mp h
  rw [htrace] at hcode
  obtain ⟨elements, helements, heq⟩ := NestedMeta.map_eq_ok.mp hcode
  cases heq
  simp only [Output.scanObject, Option.bind_some, TraceImpl.run, Option.bind_eq_bind,
    Option.bind_eq_some_iff, elementsVisited_iff helements, List.getElem?_map,
    Option.map_eq_some_iff, Option.some.injEq, @eq_comm _ _ slots]
  constructor
  · rintro ⟨visited, hvisited, fields, hfields, _, ⟨fields', hfields', rfl⟩, hslots⟩
    cases hfields.symm.trans hfields'
    exact ⟨visited, fields, hvisited, hfields, hslots⟩
  · rintro ⟨visited, fields, hvisited, hfields, hslots⟩
    exact ⟨visited, hvisited, fields, hfields, _, ⟨fields, hfields, rfl⟩, hslots⟩

theorem Meaning.mark_of_getElem? {variant i : ℕ} {fields : List (Field T)} {field : Field T}
    (h : fields[i]? = some field) : meaning.mark m a variant fields i =
      meaning.scanObject field.type m (a + meaning.offset variant i) := by
  rw [mark, h, Option.elim_some]

/-- What is visited are the slots of the object. -/
theorem mem_scanObject (h : generate gcMetadata array? data = .ok out)
    (htrace : gcMetadata.trace = .auto true) {slots : List ℕ}
    (hslots : out.scanObject meaning data m a = some slots) {slot : ℕ} :
    slot ∈ slots ↔ HasSlot meaning data m a array? slot := by
  obtain ⟨visited, fields, hvisited, hfields, rfl⟩ := (scanObject_eq_some h htrace).mp hslots
  rw [List.mem_append, List.mem_flatMap]
  constructor
  · rintro (hmem | ⟨i, hi, hmem⟩)
    · cases hvisited with
      | none => cases hmem
      | some harray hon hlength hstart =>
        obtain ⟨i, hi, hmem⟩ := List.mem_flatMap.mp hmem
        exact .element harray hon hlength hstart (List.mem_range.mp hi) hmem
    · obtain ⟨field, hfield, htraced⟩ := mem_keptFields.mp hi
      rw [Meaning.mark_of_getElem? hfield] at hmem
      exact .field hfields hfield htraced hmem
  · rintro (⟨hfields', hfield, htraced, hmem⟩ | ⟨harray, hon, hlength, hstart, hi, hmem⟩)
    · cases hfields.symm.trans hfields'
      refine .inr ⟨_, mem_keptFields.mpr ⟨_, hfield, htraced⟩, ?_⟩
      rwa [Meaning.mark_of_getElem? hfield]
    · left
      cases hvisited with
      | none hnone => cases hon.symm.trans (hnone _ harray)
      | some harray' _ hlength' hstart' =>
        cases harray.symm.trans harray'
        cases hlength.unique hlength'
        cases hstart.unique hstart'
        exact List.mem_flatMap.mpr ⟨_, List.mem_range.mpr hi, hmem⟩

/-- The object model reserves the bytes of the object. -/
theorem payloadBytes_eq (h : generate gcMetadata array? data = .ok out) {vm : VirtualMachine}
    {o : VMKitObject} (ho : o.gcMetadata vm m = some (out.gcMetadata meaning data)) {n : ℕ}
    (hn : Payload meaning data m o.address gcMetadata.size array? n) :
    o.payloadBytes vm m = some n := by
  obtain ⟨traceImpl, trace, computeSize, -, hsize, rfl⟩ := generate_eq_ok.mp h
  rw [VMKitObject.payloadBytes, ho, Option.bind_eq_bind, Option.bind_some, Option.some.injEq]
  generalize gcMetadata.size = size at hn hsize
  cases hn with
  | compute hcompute =>
    subst hcompute
    cases hsize
    simp [Output.gcMetadata, instanceSizeCode, ConstantCode.eval, ComputeSizeCode.eval]
  | auto hauto =>
    subst hauto
    cases hsize
    simp [Output.gcMetadata, instanceSizeCode, ConstantCode.eval]
  | size hgiven =>
    subst hgiven
    cases hsize
    simp [Output.gcMetadata, instanceSizeCode, ConstantCode.eval]
  | @elements array length hsized hlength =>
    have hcode : ∃ code, lengthCode array = .ok code ∧
        computeSize = some (.elements code array.elementType) := by
      cases size with
      | compute expr => exact absurd rfl (hsized expr)
      | auto | size =>
        obtain ⟨code, hcode, rfl⟩ := NestedMeta.map_eq_ok.mp hsize
        exact ⟨code, hcode, rfl⟩
    obtain ⟨code, hcode, rfl⟩ := hcode
    have heval := (lengthCode_eval hcode).mpr hlength
    have hzero : instanceSizeCode (some array) size = .zero := by
      cases size <;> rfl
    simp [Output.gcMetadata, hzero, ConstantCode.eval, ComputeSizeCode.eval, heval]

theorem exists_scanObject (h : generate gcMetadata array? data = .ok out)
    (htrace : gcMetadata.trace = .auto true) :
    (∃ slots, out.scanObject meaning data m a = some slots) ↔
      (∃ fields, data.variants[meaning.variant m a]? = some fields) ∧
        ∀ array, array? = some array → array.trace = true →
          ∃ n p, array.Length meaning data m a n ∧ array.Start meaning data m a p ∧
            ∀ i < n, meaning.add (array.pointee meaning) p i ≠ 0 := by
  simp only [scanObject_eq_some h htrace]
  constructor
  · rintro ⟨slots, visited, fields, hvisited, hfields, -⟩
    refine ⟨⟨fields, hfields⟩, fun array harray hon => ?_⟩
    cases hvisited with
    | none hnone => cases hon.symm.trans (hnone array harray)
    | some harray' _ hlength hstart hnull =>
      cases harray.symm.trans harray'
      exact ⟨_, _, hlength, hstart, hnull⟩
  · rintro ⟨⟨fields, hfields⟩, harrays⟩
    by_cases htraced : ∃ array, array? = some array ∧ array.trace = true
    · obtain ⟨array, harray, hon⟩ := htraced
      obtain ⟨n, p, hlength, hstart, hnull⟩ := harrays array harray hon
      exact ⟨_, _, fields, .some harray hon hlength hstart hnull, hfields, rfl⟩
    · refine ⟨_, [], fields, .none fun array harray => ?_, hfields, rfl⟩
      exact Bool.not_eq_true _ ▸ fun hon => htraced ⟨array, harray, hon⟩

theorem alignment_eq (h : generate gcMetadata array? data = .ok out) {vm : VirtualMachine}
    {o : VMKitObject} (ho : o.gcMetadata vm m = some (out.gcMetadata meaning data))
    (halign : 0 < meaning.align) :
    o.alignment vm m = some (meaning.alignment vm gcMetadata.alignment) := by
  obtain ⟨traceImpl, trace, computeSize, -, -, rfl⟩ := generate_eq_ok.mp h
  rw [VMKitObject.alignment, ho, Option.bind_eq_bind, Option.bind_some]
  cases gcMetadata.alignment with
  | auto =>
    simp [Output.gcMetadata, alignmentCode, ConstantCode.eval, Meaning.alignment, halign.ne']
  | const e =>
    by_cases he : meaning.constant e = 0 <;>
      simp [Output.gcMetadata, alignmentCode, ConstantCode.eval, Meaning.alignment, he]
  | compute e => simp [Output.gcMetadata, alignmentCode, ConstantCode.eval, Meaning.alignment]

/-- The code of a type does what the attributes say, on every object and wherever it is compiled. -/
structure Implements (out : Output T E) (gcMetadata : GCMetadata T E)
    (array? : Option (ArrayLike T E)) (data : Data T) : Prop where
  scans : gcMetadata.trace = .auto true → ∀ (meaning : Meaning T E) m a,
    ((∃ slots, out.scanObject meaning data m a = some slots) ↔
      (∃ fields, data.variants[meaning.variant m a]? = some fields) ∧
        ∀ array, array? = some array → array.trace = true →
          ∃ n p, array.Length meaning data m a n ∧ array.Start meaning data m a p ∧
            ∀ i < n, meaning.add (array.pointee meaning) p i ≠ 0) ∧
    ∀ slots, out.scanObject meaning data m a = some slots →
      ∀ slot, slot ∈ slots ↔ HasSlot meaning data m a array? slot
  payload : ∀ (meaning : Meaning T E) (vm : VirtualMachine) m (o : VMKitObject) n,
    o.gcMetadata vm m = some (out.gcMetadata meaning data) →
    Payload meaning data m o.address gcMetadata.size array? n → o.payloadBytes vm m = some n
  alignment : ∀ (meaning : Meaning T E) (vm : VirtualMachine) m (o : VMKitObject),
    o.gcMetadata vm m = some (out.gcMetadata meaning data) → 0 < meaning.align →
    o.alignment vm m = some (meaning.alignment vm gcMetadata.alignment)

/--
The macro makes code exactly if both attributes are found and the array, if there is one, has a
length and data where the code needs them. The code visits the slots of an object, and the object
model has its size and its alignment.
-/
theorem derive_gcmetadata_iff (syn : Syn T E) (reserved : String → Bool) (input : DeriveInput T) :
    ((∃ out, deriveGcmetadata syn reserved input = .ok out) ↔ ∃ gcMetadata array?,
      findGcmetadata syn input.attrs = .ok gcMetadata ∧
        findArraylike syn reserved input.attrs = .ok array? ∧ Complete gcMetadata array?) ∧
    ∀ out, deriveGcmetadata syn reserved input = .ok out → ∃ gcMetadata array?,
      findGcmetadata syn input.attrs = .ok gcMetadata ∧
        findArraylike syn reserved input.attrs = .ok array? ∧
        Implements out gcMetadata array? input.data := by
  simp only [deriveGcmetadata_eq_ok]
  constructor
  · constructor
    · rintro ⟨out, gcMetadata, array?, hgc, harray, hout⟩
      exact ⟨gcMetadata, array?, hgc, harray, exists_generate.mp ⟨out, hout⟩⟩
    · rintro ⟨gcMetadata, array?, hgc, harray, hcomplete⟩
      obtain ⟨out, hout⟩ := exists_generate.mpr hcomplete
      exact ⟨out, gcMetadata, array?, hgc, harray, hout⟩
  · rintro out ⟨gcMetadata, array?, hgc, harray, hout⟩
    refine ⟨gcMetadata, array?, hgc, harray, fun htrace meaning m a => ⟨?_, ?_⟩, ?_, ?_⟩
    · exact exists_scanObject hout htrace
    · exact fun slots hslots slot => mem_scanObject hout htrace hslots
    · exact fun meaning vm m o n ho hn => payloadBytes_eq hout ho hn
    · exact fun meaning vm m o ho halign => alignment_eq hout ho halign

end Meets

def parseScanType : List Token → Except String (ScanType × ℕ)
  | .ident name :: _ => .ok (if name = "VMKitObject" then .object else .prim 0, 1)
  | _ => .error "expected identifier"

def listSyn : Syn ScanType String := ⟨parseScanType, parseWord⟩

def listItems : List (Item listSyn) := [.vm ⟨[.ident "VM"], .prim 0, fun _ => rfl⟩, .scan]

def listArrayItems : List (ArrayItem listSyn) :=
  [.len "length",
    .dataCalls false [.get ⟨⟨[.ident "tail"], "tail", fun _ => rfl⟩, fun _ => trivial⟩],
    .dataType ⟨[.ident "VMKitObject"], .object, fun _ => rfl⟩]

def listAttrs : List (Attr listSyn) :=
  [.other (gcmetadata false listItems) (by decide), .list false listArrayItems]

/-- A length, a reference and a tail of references. -/
def list : DeriveInput ScanType where
  attrs := listAttrs.map (Attr.render fun _ => false)
  data := .struct [⟨some "length", [], .prim 8⟩, ⟨some "next", [], .object⟩]

def listArray : ArrayLike ScanType String :=
  ⟨some "length", none, none, .object, none, some "tail", true⟩

def listMetadata : GCMetadata ScanType String := ⟨.prim 0, .auto, .auto, .auto true⟩

theorem list_gcmetadata : findGcmetadata listSyn list.attrs = .ok listMetadata := by
  have hparser : parser (parseMeta listSyn) .none ((gcmetadataFormat listSyn).render false
      listItems) = .ok (listItems.foldl Item.apply .none) :=
    (gcmetadataFormat listSyn).parser_render_iff.mpr
      ⟨accepts_gcmetadata.mpr (by decide), ⟨False.elim, fun _ => ⟨rfl, rfl⟩, trivial⟩, rfl⟩
  have hfields : findFields listSyn false .none list.attrs =
      .ok (true, listItems.foldl Item.apply .none) := by
    simp only [list, listAttrs, List.map_cons, List.map_nil, Attr.render, gcmetadata, findFields]
    rw [if_pos trivial, hparser]
    rfl
  rw [findGcmetadata, hfields]
  rfl

theorem list_arraylike :
    findArraylike listSyn (fun _ => false) list.attrs = .ok (some listArray) := by
  refine findArraylike_eq_some.mpr ⟨_, findArrayFields_iff.mpr ⟨?_, accepts_none.mpr ⟨?_, ?_⟩,
    rfl, rfl⟩, _, rfl, rfl⟩
  · simp [listAttrs]
  · simp [listAttrs, Attr.items, listArrayItems, ArrayItem.WellFormed, dataFormat, ItemFormat.kinds]
  · decide

def listOutput : Output ScanType String where
  vm := .prim 0
  trace := .generated true
  instanceSize := .zero
  computeSize := some (.elements (.field "length") .object)
  alignment := .ofType
  traceImpl := some ⟨true, some ⟨.field "length", .getter "tail", .object⟩, [[1]]⟩

theorem list_output : deriveGcmetadata listSyn (fun _ => false) list = .ok listOutput :=
  deriveGcmetadata_eq_ok.mpr ⟨listMetadata, some listArray, list_gcmetadata, list_arraylike, rfl⟩

/-- The macro makes code for lists. -/
theorem derive_gcmetadata_iff_list : ∃ gcMetadata array?,
    findGcmetadata listSyn list.attrs = .ok gcMetadata ∧
      findArraylike listSyn (fun _ => false) list.attrs = .ok array? ∧
      Implements listOutput gcMetadata array? list.data :=
  (derive_gcmetadata_iff listSyn (fun _ => false) list).2 listOutput list_output

end VmkitCore.Derive
