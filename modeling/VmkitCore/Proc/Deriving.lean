import VmkitCore.Proc.ArrayLike

/-! # The derive macro

From the attributes and the fields of a type, the macro makes the metadata of the type and the
code that visits its fields. The fields that the attribute `arraylike` names are not visited, nor
those that have the attribute `ignore_trace`.
-/

namespace VmkitCore.Derive

/-! ### Types -/

structure Field (T : Type*) where
  /-- The fields of tuples have no name. -/
  ident : Option String
  /-- The paths of its attributes. -/
  attrs : List String
  type : T

inductive Data (T : Type*)
  | struct (fields : List (Field T))
  | enum (variants : List (List (Field T)))

structure DeriveInput (T : Type*) where
  attrs : List Attribute
  data : Data T

/-- A struct has one variant. -/
def Data.variants {T : Type*} : Data T → List (List (Field T))
  | .struct fields => [fields]
  | .enum variants => variants

/-- The field of `self` or `this` with the given name, which only a struct has. -/
def Data.field {T : Type*} (name : String) : Data T → Option (Field T × ℕ)
  | .struct fields => fields.zipIdx.find? fun p => p.1.ident = some name
  | .enum _ => none

/-! ### The generated code -/

/-- An expression, or a field: `self.name as usize` or `self.name.as_mut_ptr()`. -/
inductive AccessCode (E : Type*)
  | getter (expr : E)
  | field (name : String)

/-- A loop over `data.add(i)`, for all `i` below the length. -/
structure ElementLoop (T E : Type*) where
  length : AccessCode E
  data : AccessCode E
  element : T

/-- The method that the macro implements: the loop and then a `match`. -/
structure TraceImpl (T E : Type*) where
  /-- The trait is `Scan`, and not `Trace`. -/
  scanSlots : Bool
  elements : Option (ElementLoop T E)
  /-- The fields that the pattern of a variant binds. Its arm marks each of them. -/
  arms : List (List ℕ)

inductive CallbackCode (E : Type*)
  | none
  | generated (scanSlots : Bool)
  | given (scanSlots : Bool) (expr : E)

/-- Zero, `size_of` or `align_of` of the type, or an expression. -/
inductive ConstantCode (E : Type*)
  | zero
  | ofType
  | expr (expr : E)

/-- An expression, or the size of the type and of its elements. -/
inductive ComputeSizeCode (T E : Type*)
  | given (expr : E)
  | elements (length : AccessCode E) (element : T)

/-- The metadata, with `compute_alignment: None`, and the implementation that its callback calls. -/
structure Output (T E : Type*) where
  vm : T
  trace : CallbackCode E
  instanceSize : ConstantCode E
  computeSize : Option (ComputeSizeCode T E)
  alignment : ConstantCode E
  traceImpl : Option (TraceImpl T E)

/-- The macro reports an error or panics. -/
inductive Failure
  | compileError (message : String)
  | panic (message : String)
  deriving DecidableEq, Repr

section Source

variable {T E : Type*}

def Field.isKept (fieldsToSkip : List String) (field : Field T) : Bool :=
  !field.attrs.any (· = "ignore_trace") && field.ident.all fun name => !fieldsToSkip.contains name

def fieldsToSkip : Option (ArrayLike T E) → List String
  | none => []
  | some array => array.dataField.toList ++ array.lengthField.toList

/-- The bindings of a variant that `filter` leaves. -/
def keptFields (fieldsToSkip : List String) (fields : List (Field T)) : List ℕ :=
  (fields.zipIdx.filter fun p => p.1.isKept fieldsToSkip).map Prod.snd

/-- The getter is preferred to the field, and the macro panics without both. -/
def accessCode (getter : Option E) (field : Option String) (missing : String) :
    Except Failure (AccessCode E) :=
  match getter, field with
  | some getter, _ => .ok (.getter getter)
  | none, some field => .ok (.field field)
  | none, none => .error (.panic missing)

def lengthCode (array : ArrayLike T E) : Except Failure (AccessCode E) :=
  accessCode array.lengthGetter array.lengthField "length field not found"

def dataCode (array : ArrayLike T E) : Except Failure (AccessCode E) :=
  accessCode array.dataGetter array.dataField "data field not found"

/-- The code for elements is the same in both traits, but for the method that is called. -/
def elementLoop (array : Option (ArrayLike T E)) : Except Failure (Option (ElementLoop T E)) :=
  match array.filter (·.trace) with
  | none => .ok none
  | some array =>
    match lengthCode array with
    | .error e => .error e
    | .ok length => (dataCode array).map fun data => some ⟨length, data, array.elementType⟩

def traceCode (data : Data T) (array : Option (ArrayLike T E)) :
    ObjectTrace E → Except Failure (Option (TraceImpl T E) × CallbackCode E)
  | .noTrace => .ok (none, .none)
  | .auto scanSlots => (elementLoop array).map fun elements =>
      (some ⟨scanSlots, elements, data.variants.map (keptFields (fieldsToSkip array))⟩,
        .generated scanSlots)
  | .trace scanSlots expr => .ok (none, .given scanSlots expr)

def instanceSizeCode (array : Option (ArrayLike T E)) : ObjectSize E → ConstantCode E
  | .compute _ => .zero
  | .auto => if array.isSome then .zero else .ofType
  | .size expr => if array.isSome then .zero else .expr expr

def alignmentCode : ObjectAlignment E → ConstantCode E
  | .auto => .ofType
  | .const expr => .expr expr
  | .compute _ => .zero

def computeSizeCode (array : Option (ArrayLike T E)) (size : ObjectSize E) :
    Except Failure (Option (ComputeSizeCode T E)) :=
  match size, array with
  | .compute expr, _ => .ok (some (.given expr))
  | _, some array => (lengthCode array).map fun length =>
      some (.elements length array.elementType)
  | _, none => .ok none

/-- What the macro makes of the attributes it found. -/
def generate (gcMetadata : GCMetadata T E) (array : Option (ArrayLike T E)) (data : Data T) :
    Except Failure (Output T E) :=
  match traceCode data array gcMetadata.trace with
  | .error e => .error e
  | .ok (traceImpl, trace) => (computeSizeCode array gcMetadata.size).map fun computeSize =>
      ⟨gcMetadata.vm, trace, instanceSizeCode array gcMetadata.size, computeSize,
        alignmentCode gcMetadata.alignment, traceImpl⟩

def deriveGcmetadata (syn : Syn T E) (reserved : String → Bool) (input : DeriveInput T) :
    Except Failure (Output T E) :=
  match findGcmetadata syn input.attrs with
  | .error e => .error (.compileError e)
  | .ok gcMetadata =>
    match findArraylike syn reserved input.attrs with
    | .error e => .error (.compileError e)
    | .ok array => generate gcMetadata array input.data

end Source

/-! ### When there is code -/

section Complete

open NestedMeta

variable {T E : Type*} {array : ArrayLike T E} {array? : Option (ArrayLike T E)}
  {gcMetadata : GCMetadata T E} {data : Data T} {out : Output T E}

def ArrayLike.HasLength (array : ArrayLike T E) : Prop :=
  array.lengthGetter.isSome ∨ array.lengthField.isSome

def ArrayLike.HasData (array : ArrayLike T E) : Prop :=
  array.dataGetter.isSome ∨ array.dataField.isSome

/-- The array has a length and a place where the code asks for them. -/
structure Complete (gcMetadata : GCMetadata T E) (array? : Option (ArrayLike T E)) : Prop where
  traced : ∀ array, array? = some array → array.trace = true →
    (∃ scanSlots, gcMetadata.trace = .auto scanSlots) → array.HasLength ∧ array.HasData
  sized : ∀ array, array? = some array → (∀ expr, gcMetadata.size ≠ .compute expr) →
    array.HasLength

theorem exists_accessCode {getter : Option E} {field : Option String} {missing : String} :
    (∃ code, accessCode getter field missing = .ok code) ↔ getter.isSome ∨ field.isSome := by
  cases getter <;> cases field <;> simp [accessCode]

theorem exists_lengthCode : (∃ length, lengthCode array = .ok length) ↔ array.HasLength :=
  exists_accessCode

theorem exists_dataCode : (∃ data, dataCode array = .ok data) ↔ array.HasData :=
  exists_accessCode

theorem elementLoop_of_not_traced (h : ∀ array, array? = some array → array.trace = false) :
    elementLoop array? = .ok none := by
  cases array? with
  | none => rfl
  | some array =>
    rw [elementLoop, Option.filter_some, if_neg (by simp [h array rfl])]

/-- The loop over an array that is traced goes over its length, from its data on. -/
theorem elementLoop_of_traced (h : array.trace = true) {loop : Option (ElementLoop T E)} :
    elementLoop (some array) = .ok loop ↔ ∃ length data, lengthCode array = .ok length ∧
      dataCode array = .ok data ∧ loop = some ⟨length, data, array.elementType⟩ := by
  unfold elementLoop
  rw [Option.filter_some, if_pos h]
  cases hlength : lengthCode array with
  | error e => simp only [hlength, reduceCtorEq, false_and, exists_false]
  | ok length =>
    simp only [hlength, map_eq_ok, Except.ok.injEq, exists_and_left, exists_eq_left',
      @eq_comm _ _ loop]

theorem exists_elementLoop : (∃ loop, elementLoop array? = .ok loop) ↔
    ∀ array, array? = some array → array.trace = true → array.HasLength ∧ array.HasData := by
  constructor
  · rintro ⟨loop, hloop⟩ array rfl htrace
    obtain ⟨length, data, hlength, hdata, -⟩ := (elementLoop_of_traced htrace).mp hloop
    exact ⟨exists_lengthCode.mp ⟨length, hlength⟩, exists_dataCode.mp ⟨data, hdata⟩⟩
  · intro h
    by_cases htraced : ∃ array, array? = some array ∧ array.trace = true
    · obtain ⟨array, rfl, htrace⟩ := htraced
      obtain ⟨hlength, hdata⟩ := h array rfl htrace
      obtain ⟨length, hlength⟩ := exists_lengthCode.mpr hlength
      obtain ⟨data, hdata⟩ := exists_dataCode.mpr hdata
      exact ⟨_, (elementLoop_of_traced htrace).mpr ⟨length, data, hlength, hdata, rfl⟩⟩
    · refine ⟨none, elementLoop_of_not_traced fun array harray => ?_⟩
      exact Bool.not_eq_true _ ▸ fun htrace => htraced ⟨array, harray, htrace⟩

theorem exists_traceCode {trace : ObjectTrace E} : (∃ p, traceCode data array? trace = .ok p) ↔
    ((∃ scanSlots, trace = .auto scanSlots) →
      ∀ array, array? = some array → array.trace = true → array.HasLength ∧ array.HasData) := by
  cases trace with
  | noTrace | trace => simp [traceCode]
  | auto scanSlots =>
    rw [← exists_elementLoop]
    simp [traceCode, map_eq_ok]

theorem exists_computeSizeCode {size : ObjectSize E} :
    (∃ code, computeSizeCode array? size = .ok code) ↔
      ∀ array, array? = some array → (∀ expr, size ≠ .compute expr) → array.HasLength := by
  simp only [← exists_lengthCode]
  cases size <;> cases array? <;> simp [computeSizeCode, map_eq_ok]

theorem generate_eq_ok : generate gcMetadata array? data = .ok out ↔
    ∃ traceImpl trace computeSize,
      traceCode data array? gcMetadata.trace = .ok (traceImpl, trace) ∧
      computeSizeCode array? gcMetadata.size = .ok computeSize ∧
      out = ⟨gcMetadata.vm, trace, instanceSizeCode array? gcMetadata.size, computeSize,
        alignmentCode gcMetadata.alignment, traceImpl⟩ := by
  unfold generate
  cases htrace : traceCode data array? gcMetadata.trace with
  | error e => simp
  | ok p =>
    obtain ⟨traceImpl, trace⟩ := p
    simp only [map_eq_ok, Except.ok.injEq, Prod.mk.injEq]
    constructor
    · rintro ⟨computeSize, hsize, rfl⟩
      exact ⟨_, _, computeSize, ⟨rfl, rfl⟩, hsize, rfl⟩
    · rintro ⟨_, _, computeSize, ⟨rfl, rfl⟩, hsize, rfl⟩
      exact ⟨computeSize, hsize, rfl⟩

theorem exists_generate :
    (∃ out, generate gcMetadata array? data = .ok out) ↔ Complete gcMetadata array? := by
  simp only [generate_eq_ok]
  constructor
  · rintro ⟨out, traceImpl, trace, computeSize, htrace, hsize, -⟩
    refine ⟨fun array harray hon hauto => ?_, fun array harray => ?_⟩
    · exact exists_traceCode.mp ⟨_, htrace⟩ hauto array harray hon
    · exact exists_computeSizeCode.mp ⟨_, hsize⟩ array harray
  · intro h
    obtain ⟨⟨traceImpl, trace⟩, htrace⟩ : ∃ p, traceCode data array? gcMetadata.trace = .ok p :=
      exists_traceCode.mpr fun hauto array harray hon => h.traced array harray hon hauto
    obtain ⟨computeSize, hsize⟩ := exists_computeSizeCode.mpr h.sized
    exact ⟨_, traceImpl, trace, computeSize, htrace, hsize, rfl⟩

theorem deriveGcmetadata_eq_ok {syn : Syn T E} {reserved : String → Bool} {input : DeriveInput T} :
    deriveGcmetadata syn reserved input = .ok out ↔
      ∃ gcMetadata array?, findGcmetadata syn input.attrs = .ok gcMetadata ∧
        findArraylike syn reserved input.attrs = .ok array? ∧
        generate gcMetadata array? input.data = .ok out := by
  unfold deriveGcmetadata
  cases findGcmetadata syn input.attrs with
  | error e => simp
  | ok gcMetadata => cases findArraylike syn reserved input.attrs <;> simp

end Complete

end VmkitCore.Derive
