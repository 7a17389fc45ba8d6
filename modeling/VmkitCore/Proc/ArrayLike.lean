import VmkitCore.Proc.GcMetadata

/-! # The attribute `arraylike`

The attribute describes the array in an object: where its length and its elements are, and what
the elements are. It may stand on a type more than once, and then the parts are put together.
-/

namespace VmkitCore.Derive

open NestedMeta

structure ArrayLike (T E : Type*) where
  lengthField : Option String
  lengthGetter : Option E
  lengthSetter : Option E
  elementType : T
  dataField : Option String
  dataGetter : Option E
  trace : Bool

/-- The variables that the closure assigns. -/
structure ArrayFields (T E : Type*) where
  lengthField : Option String
  lengthGetter : Option E
  lengthSetter : Option E
  elementType : Option T
  dataField : Option String
  dataGetter : Option E
  trace : Option Bool

def ArrayFields.none {T E : Type*} : ArrayFields T E :=
  ⟨.none, .none, .none, .none, .none, .none, .none⟩

section Source

variable {T E σ : Type*}

/-- `parse::<syn::Ident>()`, which refuses the words that the language keeps to itself. -/
def parseIdent (reserved : String → Bool) : List Token → Except String (String × ℕ)
  | .ident name :: _ =>
    if reserved name then .error "expected identifier, found keyword" else .ok (name, 1)
  | _ => .error "expected identifier"

def parseLitBool : List Token → Except String (Bool × ℕ)
  | .ident name :: _ =>
    if name = "true" then .ok (true, 1)
    else if name = "false" then .ok (false, 1)
    else .error "expected boolean literal"
  | _ => .error "expected boolean literal"

/-- `peek(syn::Token![=])` -/
def peekEq : List Token → Bool
  | .eq :: _ => true
  | _ => false

/-- `meta.parse_nested_meta`, on what is between the parentheses. -/
def parseParen (logic : σ → Path → List Token → Except String (σ × ℕ)) (s : σ) :
    List Token → Except String (σ × ℕ)
  | .paren inner :: _ => (parseNestedMeta logic s inner).map fun s' => (s', 1)
  | _ => .error "expected parentheses"

variable (syn : Syn T E)

def parseLen (s : ArrayFields T E) (path : Path) (input : List Token) :
    Except String (ArrayFields T E × ℕ) :=
  if path.isIdent "get" then
    if s.lengthGetter.isSome then .error "multiple length getters found"
    else (syn.parseExpr input).map fun p => ({ s with lengthGetter := some p.1 }, p.2)
  else if path.isIdent "set" then
    if s.lengthSetter.isSome then .error "multiple length setters found"
    else (syn.parseExpr input).map fun p => ({ s with lengthSetter := some p.1 }, p.2)
  else .error "unknown length field"

def parseData (s : ArrayFields T E) (path : Path) (input : List Token) :
    Except String (ArrayFields T E × ℕ) :=
  if path.isIdent "get" then
    if s.dataGetter.isSome then .error "multiple data getters found"
    else (syn.parseExpr input).map fun p => ({ s with dataGetter := some p.1 }, p.2)
  else .error "unknown data field"

variable (reserved : String → Bool)

/-- The closure. The field of a length is tested once: the source tests it again after it parsed
the name, with no assignment in between. -/
def parseArrayMeta (s : ArrayFields T E) (path : Path) (input : List Token) :
    Except String (ArrayFields T E × ℕ) :=
  if path.isIdent "trace" then
    (parseAfterEq parseLitBool input).map fun p => ({ s with trace := some p.1 }, p.2)
  else if path.isIdent "len" then
    if s.lengthField.isSome || s.lengthGetter.isSome || s.lengthSetter.isSome then
      .error "multiple length fields found"
    else if peekEq input then
      (parseAfterEq (parseIdent reserved) input).map fun p =>
        ({ s with lengthField := some p.1 }, p.2)
    else if peekParen input then parseParen (parseLen syn) s input
    else .error "unknown length attribute for #[arraylike]"
  else if path.isIdent "data" then
    if s.dataField.isSome || s.dataGetter.isSome then .error "multiple data fields found"
    else if peekParen input then parseParen (parseData syn) s input
    else (parseIdent reserved input).map fun p => ({ s with dataField := some p.1 }, p.2)
  else if path.isIdent "data_type" then
    if s.elementType.isSome then .error "multiple data types found"
    else (parseAfterEq syn.parseType input).map fun p => ({ s with elementType := some p.1 }, p.2)
  else .ok (s, 0)

/-- The loop over the attributes, with whether one of them was `arraylike`. -/
def findArrayFields : Bool → ArrayFields T E → List Attribute →
    Except String (Bool × ArrayFields T E)
  | has, s, [] => .ok (has, s)
  | has, s, attr :: attrs =>
    if attr.path = "arraylike" then
      match attr.args with
      | .none => .error "expected attribute arguments in parentheses"
      | some input =>
        match parser (parseArrayMeta syn reserved) s input with
        | .error e => .error e
        | .ok s' => findArrayFields true s' attrs
    else findArrayFields has s attrs

def findArraylike (attrs : List Attribute) : Except String (Option (ArrayLike T E)) :=
  match findArrayFields syn reserved false .none attrs with
  | .error e => .error e
  | .ok (has, s) =>
    if has then
      match s.elementType with
      | .none => .error "missing data_type"
      | some type => .ok (some ⟨s.lengthField, s.lengthGetter, s.lengthSetter, type, s.dataField,
          s.dataGetter, s.trace.getD true⟩)
    else .ok none

end Source

/-! ### Getters and setters -/

/-- A phrase that is not part of the name before it. -/
structure NamedPhrase {α : Type*} (parse : List Token → Except String (α × ℕ)) extends
    Phrase parse where
  leavesPath : ∀ {next rest}, Follows next rest → LeavesPath (tokens ++ next)

section Getters

variable {T E : Type*} {syn : Syn T E}

inductive LenItem (syn : Syn T E)
  | get (expr : NamedPhrase syn.parseExpr)
  | set (expr : NamedPhrase syn.parseExpr)

inductive LenKind
  | get | set
  deriving DecidableEq, Repr

def LenItem.kind : LenItem syn → LenKind
  | .get _ => .get
  | .set _ => .set

def LenItem.expr : LenItem syn → NamedPhrase syn.parseExpr
  | .get expr | .set expr => expr

def LenItem.apply (s : ArrayFields T E) : LenItem syn → ArrayFields T E
  | .get expr => { s with lengthGetter := some expr.value }
  | .set expr => { s with lengthSetter := some expr.value }

def LenItem.getter : LenItem syn → Option E
  | .get expr => some expr.value
  | .set _ => none

def LenItem.setter : LenItem syn → Option E
  | .get _ => none
  | .set expr => some expr.value

def ArrayFields.hasLen (s : ArrayFields T E) : LenKind → Bool
  | .get => s.lengthGetter.isSome
  | .set => s.lengthSetter.isSome

namespace LenItem

def name : LenItem syn → String
  | .get _ => "get"
  | .set _ => "set"

variable {s : ArrayFields T E} {item : LenItem syn} {next rest : List Token}

theorem parseLen_of_has (h : s.hasLen item.kind = true) :
    ∃ e, parseLen syn s ⟨false, [item.name]⟩ (item.expr.tokens ++ next) = .error e := by
  cases item <;> simp_all [ArrayFields.hasLen, kind, name, parseLen, Path.isIdent]

theorem parseLen_eq (hhas : s.hasLen item.kind = false) (h : Follows next rest) :
    parseLen syn s ⟨false, [item.name]⟩ (item.expr.tokens ++ next) =
      .ok (item.apply s, item.expr.tokens.length) := by
  have hparse := item.expr.parse_eq h
  cases item <;> simp_all [ArrayFields.hasLen, kind, name, expr, parseLen, Path.isIdent, apply,
    Except.map]

theorem hasLen_apply (k : LenKind) :
    (item.apply s).hasLen k = (s.hasLen k || item.kind = k) := by
  cases item <;> cases k <;> simp [apply, kind, ArrayFields.hasLen]

end LenItem

def lenFormat (syn : Syn T E) : ItemFormat (LenItem syn) LenKind (parseLen syn) where
  name := LenItem.name
  body item := item.expr.tokens
  kind item := some item.kind
  WellFormed _ := True
  Bare _ := False
  has s k := s.hasLen k = true
  apply := LenItem.apply
  leavesPath item := item.expr.leavesPath
  logic_eq hnext _ hfresh _ := LenItem.parseLen_eq (by simpa using hfresh) hnext
  logic_error _ hhas := LenItem.parseLen_of_has (by simpa using hhas)
  has_apply _ := by simp [LenItem.hasLen_apply]

inductive DataItem (syn : Syn T E)
  | get (expr : NamedPhrase syn.parseExpr)

def DataItem.apply (s : ArrayFields T E) : DataItem syn → ArrayFields T E
  | .get expr => { s with dataGetter := some expr.value }

def DataItem.getter : DataItem syn → Option E
  | .get expr => some expr.value

namespace DataItem

def expr : DataItem syn → NamedPhrase syn.parseExpr
  | .get expr => expr

variable {s : ArrayFields T E} {item : DataItem syn} {next rest : List Token}

theorem parseData_of_has (h : s.dataGetter.isSome = true) :
    ∃ e, parseData syn s ⟨false, ["get"]⟩ (item.expr.tokens ++ next) = .error e := by
  simp [parseData, Path.isIdent, h]

theorem parseData_eq (hhas : s.dataGetter.isSome = false) (h : Follows next rest) :
    parseData syn s ⟨false, ["get"]⟩ (item.expr.tokens ++ next) =
      .ok (item.apply s, item.expr.tokens.length) := by
  obtain ⟨expr⟩ := item
  have hparse := expr.parse_eq h
  simp_all [DataItem.expr, parseData, Path.isIdent, apply, Except.map]

end DataItem

/-- All items are of one kind. -/
def dataFormat (syn : Syn T E) : ItemFormat (DataItem syn) Unit (parseData syn) where
  name _ := "get"
  body item := item.expr.tokens
  kind _ := some ()
  WellFormed _ := True
  Bare _ := False
  has s _ := s.dataGetter.isSome = true
  apply := DataItem.apply
  leavesPath item := item.expr.leavesPath
  logic_eq hnext _ hfresh _ := DataItem.parseData_eq (by simpa using hfresh) hnext
  logic_error _ hhas := DataItem.parseData_of_has (by simpa [Option.isSome_iff_ne_none] using hhas)
  has_apply {s item k} _ := by
    obtain ⟨expr⟩ := item
    simp [DataItem.apply]

end Getters

section Parens

variable {σ ι κ : Type*} {logic : σ → Path → List Token → Except String (σ × ℕ)} {s : σ}
  {items : List ι} {trailing : Bool} {next : List Token} (F : ItemFormat ι κ logic)

theorem parseParen_render (hne : items ≠ []) (h : F.Accepts s items)
    (hplace : F.InPlace trailing items) :
    parseParen logic s (.paren (F.render trailing items) :: next) =
      .ok (items.foldl F.apply s, 1) := by
  rw [parseParen, F.parseNestedMeta_render_iff.mpr ⟨hne, h, hplace, rfl⟩]
  rfl

theorem parseParen_render_error (h : ¬ (items ≠ [] ∧ F.Accepts s items)) :
    ∃ e, parseParen logic s (.paren (F.render trailing items) :: next) = .error e := by
  rw [parseParen]
  cases hparse : parseNestedMeta logic s (F.render trailing items) with
  | error e => exact ⟨e, rfl⟩
  | ok s' =>
    obtain ⟨hne, haccepts, -⟩ := F.parseNestedMeta_render_iff.mp hparse
    exact absurd ⟨hne, haccepts⟩ h

/-- What every item adds is there after one of them. -/
theorem foldl_or {f : σ → ι → σ} {b : Bool} (has : σ → Bool)
    (h : ∀ s item, has (f s item) = (has s || b)) (hne : items ≠ []) :
    has (items.foldl f s) = (has s || b) := by
  induction items generalizing s with
  | nil => exact absurd rfl hne
  | cons item items ih =>
    by_cases hnil : items = []
    · rw [hnil]
      exact h s item
    · rw [List.foldl_cons, ih hnil, h, Bool.or_assoc, Bool.or_self]

end Parens

/-! ### The items of the attribute -/

inductive ArrayItem {T E : Type*} (syn : Syn T E)
  | trace (value : Bool)
  | len (name : String)
  | lenCalls (trailing : Bool) (items : List (LenItem syn))
  | data (name : String)
  | dataCalls (trailing : Bool) (items : List (DataItem syn))
  | dataType (type : Phrase syn.parseType)
  | unknown (name : String) (h : name ∉ ["trace", "len", "data", "data_type"])

inductive ArrayKind
  | len | data | dataType
  deriving DecidableEq, Repr

def ArrayFields.has {T E : Type*} (s : ArrayFields T E) : ArrayKind → Bool
  | .len => s.lengthField.isSome || s.lengthGetter.isSome || s.lengthSetter.isSome
  | .data => s.dataField.isSome || s.dataGetter.isSome
  | .dataType => s.elementType.isSome

namespace ArrayItem

variable {T E : Type*} {syn : Syn T E}

def kind : ArrayItem syn → Option ArrayKind
  | .len _ | .lenCalls _ _ => some .len
  | .data _ | .dataCalls _ _ => some .data
  | .dataType _ => some .dataType
  | .trace _ | .unknown _ _ => none

def name : ArrayItem syn → String
  | .trace _ => "trace"
  | .len _ | .lenCalls _ _ => "len"
  | .data _ | .dataCalls _ _ => "data"
  | .dataType _ => "data_type"
  | .unknown name _ => name

/-- The tokens after the name. -/
def body : ArrayItem syn → List Token
  | .trace value => [.eq, .ident (if value then "true" else "false")]
  | .len name => [.eq, .ident name]
  | .lenCalls trailing items => [.paren ((lenFormat syn).render trailing items)]
  | .data name => [.ident name]
  | .dataCalls trailing items => [.paren ((dataFormat syn).render trailing items)]
  | .dataType type => .eq :: type.tokens
  | .unknown _ _ => []

def apply (s : ArrayFields T E) : ArrayItem syn → ArrayFields T E
  | .trace value => { s with trace := some value }
  | .len name => { s with lengthField := some name }
  | .lenCalls _ items => items.foldl LenItem.apply s
  | .data name => { s with dataField := some name }
  | .dataCalls _ items => items.foldl DataItem.apply s
  | .dataType type => { s with elementType := some type.value }
  | .unknown _ _ => s

/-- The names are no reserved words, and there is a getter or a setter, but not two of a kind. -/
def WellFormed (reserved : String → Bool) : ArrayItem syn → Prop
  | .len name | .data name => reserved name = false
  | .lenCalls _ items => items ≠ [] ∧ ((lenFormat syn).kinds items).Nodup
  | .dataCalls _ items => items ≠ [] ∧ ((dataFormat syn).kinds items).Nodup
  | .trace _ | .dataType _ | .unknown _ _ => True

variable {s : ArrayFields T E} {item : ArrayItem syn} {reserved : String → Bool}
  {next rest : List Token}

theorem accepts_lenItems {items : List (LenItem syn)} (h : s.has .len = false) :
    (lenFormat syn).Accepts s items ↔ ((lenFormat syn).kinds items).Nodup := by
  refine ⟨fun haccepts => haccepts.nodup, fun hnodup => ⟨fun _ _ => trivial, hnodup, ?_⟩⟩
  intro k _ hhas
  cases k <;> simp_all [lenFormat, ArrayFields.hasLen, ArrayFields.has]

theorem accepts_dataItems {items : List (DataItem syn)} (h : s.has .data = false) :
    (dataFormat syn).Accepts s items ↔ ((dataFormat syn).kinds items).Nodup := by
  refine ⟨fun haccepts => haccepts.nodup, fun hnodup => ⟨fun _ _ => trivial, hnodup, ?_⟩⟩
  intro k _ hhas
  simp_all [dataFormat, ArrayFields.has]

theorem leavesPath (item : ArrayItem syn) (h : Follows next rest) :
    LeavesPath (item.body ++ next) := by
  cases item with
  | unknown name hname => cases h <;> trivial
  | _ => trivial

/-- A second item of a kind is refused. -/
theorem parseArrayMeta_of_has {k : ArrayKind} (hkind : item.kind = some k) (h : s.has k = true) :
    ∃ e, parseArrayMeta syn reserved s ⟨false, [item.name]⟩ (item.body ++ next) = .error e := by
  cases item <;> cases hkind <;>
    simp_all [ArrayFields.has, name, parseArrayMeta, Path.isIdent]

theorem parseArrayMeta_of_not_wellFormed (hfresh : ∀ k, item.kind = some k → s.has k = false)
    (h : ¬ item.WellFormed reserved) :
    ∃ e, parseArrayMeta syn reserved s ⟨false, [item.name]⟩ (item.body ++ next) = .error e := by
  cases item with
  | trace value | dataType type | unknown name hname => exact absurd trivial h
  | len word | data word =>
    have hhas := hfresh _ rfl
    have hword : reserved word = true := by simpa [WellFormed] using h
    simp_all [ArrayFields.has, name, body, parseArrayMeta, Path.isIdent, peekEq, peekParen,
      parseAfterEq, parseIdent, Except.map]
  | lenCalls trailing items =>
    have hhas := hfresh .len rfl
    have hparen : ∃ e, parseParen (parseLen syn) s
        (.paren ((lenFormat syn).render trailing items) :: next) = .error e := by
      refine parseParen_render_error _ fun hok => h ⟨hok.1, ?_⟩
      exact (accepts_lenItems hhas).mp hok.2
    simp_all [ArrayFields.has, name, body, parseArrayMeta, Path.isIdent, peekEq, peekParen]
  | dataCalls trailing items =>
    have hhas := hfresh .data rfl
    have hparen : ∃ e, parseParen (parseData syn) s
        (.paren ((dataFormat syn).render trailing items) :: next) = .error e := by
      refine parseParen_render_error _ fun hok => h ⟨hok.1, ?_⟩
      exact (accepts_dataItems hhas).mp hok.2
    simp_all [ArrayFields.has, name, body, parseArrayMeta, Path.isIdent, peekParen]

theorem parseArrayMeta_eq (hfresh : ∀ k, item.kind = some k → s.has k = false)
    (h : Follows next rest) (hwell : item.WellFormed reserved) :
    parseArrayMeta syn reserved s ⟨false, [item.name]⟩ (item.body ++ next) =
      .ok (item.apply s, item.body.length) := by
  cases item with
  | trace value =>
    cases value <;> simp [name, body, apply, parseArrayMeta, Path.isIdent, parseAfterEq,
      parseLitBool, Except.map]
  | len word | data word =>
    have hhas := hfresh _ rfl
    simp_all [WellFormed, ArrayFields.has, name, body, apply, parseArrayMeta, Path.isIdent, peekEq,
      peekParen, parseAfterEq, parseIdent, Except.map]
  | lenCalls trailing items =>
    have hhas := hfresh .len rfl
    have hparen : parseParen (parseLen syn) s (.paren ((lenFormat syn).render trailing items) ::
        next) = .ok (items.foldl LenItem.apply s, 1) :=
      parseParen_render _ hwell.1 ((accepts_lenItems hhas).mpr hwell.2)
        (ItemFormat.inPlace_of_not_bare _ fun _ _ => id)
    simp_all [ArrayFields.has, name, body, apply, parseArrayMeta, Path.isIdent, peekEq, peekParen]
  | dataCalls trailing items =>
    have hhas := hfresh .data rfl
    have hparen : parseParen (parseData syn) s (.paren ((dataFormat syn).render trailing items) ::
        next) = .ok (items.foldl DataItem.apply s, 1) :=
      parseParen_render _ hwell.1 ((accepts_dataItems hhas).mpr hwell.2)
        (ItemFormat.inPlace_of_not_bare _ fun _ _ => id)
    simp_all [ArrayFields.has, name, body, apply, parseArrayMeta, Path.isIdent, peekParen]
  | dataType type =>
    have hhas := hfresh _ rfl
    simp_all [ArrayFields.has, name, body, apply, parseArrayMeta, Path.isIdent,
      Item.parseAfterEq_phrase _ h, Except.map]
  | unknown word hword =>
    have hnames : word ≠ "trace" ∧ word ≠ "len" ∧ word ≠ "data" ∧ word ≠ "data_type" := by
      simpa using hword
    obtain ⟨htrace, hlen, hdata, htype⟩ := hnames
    simp [name, body, apply, parseArrayMeta, Path.isIdent, htrace, hlen, hdata, htype]

/-- An item adds its own kind and no other. -/
theorem has_apply (h : item.WellFormed reserved) (k : ArrayKind) :
    (item.apply s).has k = true ↔ s.has k = true ∨ item.kind = some k := by
  cases item with
  | lenCalls trailing items =>
    have hhas : (items.foldl LenItem.apply s).has k = (s.has k || decide (ArrayKind.len = k)) := by
      refine foldl_or (ArrayFields.has · k) (fun s item => ?_) h.1
      cases item <;> cases k <;> simp [LenItem.apply, ArrayFields.has]
    simp [apply, kind, hhas]
  | dataCalls trailing items =>
    have hhas : (items.foldl DataItem.apply s).has k =
        (s.has k || decide (ArrayKind.data = k)) := by
      refine foldl_or (ArrayFields.has · k) (fun s item => ?_) h.1
      cases item
      cases k <;> simp [DataItem.apply, ArrayFields.has]
    simp [apply, kind, hhas]
  | _ => cases k <;> simp [apply, kind, ArrayFields.has]

end ArrayItem

def arrayFormat {T E : Type*} (syn : Syn T E) (reserved : String → Bool) :
    ItemFormat (ArrayItem syn) ArrayKind (parseArrayMeta syn reserved) where
  name := ArrayItem.name
  body := ArrayItem.body
  kind := ArrayItem.kind
  WellFormed := ArrayItem.WellFormed reserved
  Bare _ := False
  has s k := s.has k = true
  apply := ArrayItem.apply
  leavesPath item := item.leavesPath
  logic_eq hnext hwell hfresh _ :=
    ArrayItem.parseArrayMeta_eq (fun k hk => Bool.not_eq_true _ ▸ hfresh k hk) hnext hwell
  logic_error {s item next rest} _ h := by
    by_cases hfresh : ∀ k, item.kind = some k → s.has k = false
    · refine ArrayItem.parseArrayMeta_of_not_wellFormed hfresh fun hwell =>
        h ⟨⟨hwell, ?_⟩, False.elim⟩
      intro k hk
      rw [hfresh k hk]
      exact Bool.false_ne_true
    · simp only [not_forall, Bool.not_eq_false] at hfresh
      obtain ⟨k, hk, hhas⟩ := hfresh
      exact ArrayItem.parseArrayMeta_of_has hk hhas
  has_apply hwell := ArrayItem.has_apply hwell _

@[simp]
theorem arrayFormat_apply {T E : Type*} (syn : Syn T E) (reserved : String → Bool) :
    (arrayFormat syn reserved).apply = ArrayItem.apply :=
  rfl

theorem inPlace_arrayItems {T E : Type*} {syn : Syn T E} {reserved : String → Bool}
    {items : List (ArrayItem syn)} {trailing : Bool} :
    (arrayFormat syn reserved).InPlace trailing items :=
  ItemFormat.inPlace_of_not_bare _ fun _ _ => id

/-! ### The attributes of a type -/

section Attributes

variable {T E : Type*} {syn : Syn T E} {reserved : String → Bool}

/-- The attribute with its items, the attribute without parentheses, or another attribute. -/
inductive Attr (syn : Syn T E)
  | other (attr : Attribute) (h : attr.path ≠ "arraylike")
  | bare
  | list (trailing : Bool) (items : List (ArrayItem syn))

namespace Attr

def render (reserved : String → Bool) : Attr syn → Attribute
  | .other attr _ => attr
  | .bare => ⟨"arraylike", none⟩
  | .list trailing items => ⟨"arraylike", some ((arrayFormat syn reserved).render trailing items)⟩

def items : Attr syn → List (ArrayItem syn)
  | .other _ _ | .bare => []
  | .list _ items => items

def isArraylike : Attr syn → Bool
  | .other _ _ => false
  | .bare | .list _ _ => true

end Attr

namespace ArrayItem

def lengthName : ArrayItem syn → Option String
  | .len name => some name
  | _ => none

def lengthGetter : ArrayItem syn → Option E
  | .lenCalls _ items => (items.filterMap LenItem.getter).getLast?
  | _ => none

def lengthSetter : ArrayItem syn → Option E
  | .lenCalls _ items => (items.filterMap LenItem.setter).getLast?
  | _ => none

def elementType : ArrayItem syn → Option T
  | .dataType type => some type.value
  | _ => none

def dataName : ArrayItem syn → Option String
  | .data name => some name
  | _ => none

def dataGetter : ArrayItem syn → Option E
  | .dataCalls _ items => (items.filterMap DataItem.getter).getLast?
  | _ => none

def traceValue : ArrayItem syn → Option Bool
  | .trace value => some value
  | _ => none

end ArrayItem

/-- Every part of the array is as the last item says that says something about it. -/
structure Describes (items : List (ArrayItem syn)) (a : ArrayLike T E) : Prop where
  lengthField : a.lengthField = (items.filterMap ArrayItem.lengthName).getLast?
  lengthGetter : a.lengthGetter = (items.filterMap ArrayItem.lengthGetter).getLast?
  lengthSetter : a.lengthSetter = (items.filterMap ArrayItem.lengthSetter).getLast?
  elementType : some a.elementType = (items.filterMap ArrayItem.elementType).getLast?
  dataField : a.dataField = (items.filterMap ArrayItem.dataName).getLast?
  dataGetter : a.dataGetter = (items.filterMap ArrayItem.dataGetter).getLast?
  trace : a.trace = ((items.filterMap ArrayItem.traceValue).getLast?).getD true

theorem findArrayFields_iff {has has' : Bool} {s s' : ArrayFields T E} {attrs : List (Attr syn)} :
    findArrayFields syn reserved has s (attrs.map (Attr.render reserved)) = .ok (has', s') ↔
      (∀ attr ∈ attrs, attr ≠ .bare) ∧
      (arrayFormat syn reserved).Accepts s (attrs.flatMap Attr.items) ∧
      s' = (attrs.flatMap Attr.items).foldl ArrayItem.apply s ∧
      has' = (has || attrs.any Attr.isArraylike) := by
  induction attrs generalizing has s with
  | nil => simp [findArrayFields, ItemFormat.accepts_nil, eq_comm, and_comm]
  | cons attr attrs ih =>
    rw [List.map_cons, findArrayFields]
    cases attr with
    | other attr h => simp [Attr.render, Attr.items, Attr.isArraylike, h, ih]
    | bare => simp [Attr.render]
    | list trailing items =>
      simp only [Attr.render]
      cases hparser : parser (parseArrayMeta syn reserved) s
          ((arrayFormat syn reserved).render trailing items) with
      | error e =>
        have hrefused : ¬ (arrayFormat syn reserved).Accepts s items := by
          intro haccepts
          cases hparser.symm.trans
            ((arrayFormat syn reserved).parser_render_iff.mpr ⟨haccepts, inPlace_arrayItems, rfl⟩)
        simp [Attr.items, ItemFormat.accepts_append, hrefused]
      | ok s'' =>
        obtain ⟨haccepts, -, rfl⟩ := (arrayFormat syn reserved).parser_render_iff.mp hparser
        simp [ih, Attr.items, Attr.isArraylike, ItemFormat.accepts_append, haccepts]

theorem foldl_lenItems (s : ArrayFields T E) (items : List (LenItem syn)) :
    items.foldl LenItem.apply s =
      { s with
        lengthGetter := (items.filterMap LenItem.getter).getLast?.or s.lengthGetter
        lengthSetter := (items.filterMap LenItem.setter).getLast?.or s.lengthSetter } := by
  induction items generalizing s with
  | nil => rfl
  | cons item items ih =>
    rw [List.foldl_cons, ih, getLast?_filterMap_cons, getLast?_filterMap_cons]
    cases item <;> rfl

theorem foldl_dataItems (s : ArrayFields T E) (items : List (DataItem syn)) :
    items.foldl DataItem.apply s =
      { s with dataGetter := (items.filterMap DataItem.getter).getLast?.or s.dataGetter } := by
  induction items generalizing s with
  | nil => rfl
  | cons item items ih =>
    rw [List.foldl_cons, ih, getLast?_filterMap_cons]
    cases item
    rfl

/-- The closure's variables after some items. -/
theorem foldl_arrayItems (s : ArrayFields T E) (items : List (ArrayItem syn)) :
    items.foldl ArrayItem.apply s =
      ⟨(items.filterMap ArrayItem.lengthName).getLast?.or s.lengthField,
        (items.filterMap ArrayItem.lengthGetter).getLast?.or s.lengthGetter,
        (items.filterMap ArrayItem.lengthSetter).getLast?.or s.lengthSetter,
        (items.filterMap ArrayItem.elementType).getLast?.or s.elementType,
        (items.filterMap ArrayItem.dataName).getLast?.or s.dataField,
        (items.filterMap ArrayItem.dataGetter).getLast?.or s.dataGetter,
        (items.filterMap ArrayItem.traceValue).getLast?.or s.trace⟩ := by
  induction items generalizing s with
  | nil => rfl
  | cons item items ih =>
    simp only [List.foldl_cons, ih, getLast?_filterMap_cons]
    cases item with
    | lenCalls trailing items => simp only [ArrayItem.apply, foldl_lenItems]; rfl
    | dataCalls trailing items => simp only [ArrayItem.apply, foldl_dataItems]; rfl
    | _ => rfl

theorem accepts_none {items : List (ArrayItem syn)} :
    (arrayFormat syn reserved).Accepts ArrayFields.none items ↔
      (∀ item ∈ items, item.WellFormed reserved) ∧ (items.filterMap ArrayItem.kind).Nodup := by
  refine ⟨fun h => ⟨h.wellFormed, h.nodup⟩, fun h => ⟨h.1, h.2, fun k _ hhas => ?_⟩⟩
  cases k <;> cases hhas

/-- The last step, with the variables that the loop leaves. -/
theorem describes_iff {s : ArrayFields T E} {items : List (ArrayItem syn)} {a : ArrayLike T E}
    (h : s = items.foldl ArrayItem.apply .none) :
    Describes items a ↔ ∃ type, s.elementType = some type ∧
      a = ⟨s.lengthField, s.lengthGetter, s.lengthSetter, type, s.dataField, s.dataGetter,
        s.trace.getD true⟩ := by
  rw [foldl_arrayItems] at h
  subst h
  simp only [ArrayFields.none, Option.or_none]
  constructor
  · intro hdescribes
    refine ⟨a.elementType, hdescribes.elementType.symm, ?_⟩
    rw [← hdescribes.lengthField, ← hdescribes.lengthGetter, ← hdescribes.lengthSetter,
      ← hdescribes.dataField, ← hdescribes.dataGetter, ← hdescribes.trace]
  · rintro ⟨type, htype, rfl⟩
    exact ⟨rfl, rfl, rfl, htype.symm, rfl, rfl, rfl⟩

theorem findArraylike_eq_none {attrs : List Attribute} :
    findArraylike syn reserved attrs = .ok none ↔
      ∃ s, findArrayFields syn reserved false .none attrs = .ok (false, s) := by
  rw [findArraylike]
  rcases findArrayFields syn reserved false .none attrs with e | ⟨has, s⟩
  · simp
  · cases has with
    | false => simp
    | true => cases htype : s.elementType <;> simp [htype]

theorem findArraylike_eq_some {attrs : List Attribute} {a : ArrayLike T E} :
    findArraylike syn reserved attrs = .ok (some a) ↔
      ∃ s, findArrayFields syn reserved false .none attrs = .ok (true, s) ∧
        ∃ type, s.elementType = some type ∧ a = ⟨s.lengthField, s.lengthGetter, s.lengthSetter,
          type, s.dataField, s.dataGetter, s.trace.getD true⟩ := by
  rw [findArraylike]
  rcases findArrayFields syn reserved false .none attrs with e | ⟨has, s⟩
  · simp
  · cases has with
    | false => simp
    | true => cases htype : s.elementType <;> simp [htype, eq_comm]

/-- Only the attribute has items. -/
theorem exists_isArraylike {attrs : List (Attr syn)} {item : ArrayItem syn}
    (h : item ∈ attrs.flatMap Attr.items) : attrs.any Attr.isArraylike = true := by
  obtain ⟨attr, hmem, hitem⟩ := List.mem_flatMap.mp h
  refine List.any_eq_true.mpr ⟨attr, hmem, ?_⟩
  cases attr with
  | list trailing items => rfl
  | _ => exact absurd hitem List.not_mem_nil

/--
No array is found where no attribute is `arraylike`. An array is found exactly if every attribute
`arraylike` has its parentheses, all items are well formed, length, data and element type are
given once at most, over all the attributes, and the element type is given.
-/
theorem find_arraylike_iff (syn : Syn T E) (reserved : String → Bool) (attrs : List (Attr syn)) :
    (findArraylike syn reserved (attrs.map (Attr.render reserved)) = .ok none ↔
      ∀ attr ∈ attrs, attr.isArraylike = false) ∧
    ∀ a, findArraylike syn reserved (attrs.map (Attr.render reserved)) = .ok (some a) ↔
      (∀ attr ∈ attrs, attr ≠ .bare) ∧
      (∀ item ∈ attrs.flatMap Attr.items, item.WellFormed reserved) ∧
      ((attrs.flatMap Attr.items).filterMap ArrayItem.kind).Nodup ∧
      Describes (attrs.flatMap Attr.items) a := by
  simp only [findArraylike_eq_none, findArraylike_eq_some, findArrayFields_iff, accepts_none,
    Bool.false_or]
  constructor
  · constructor
    · rintro ⟨s, -, -, -, hnone⟩ attr hmem
      exact Bool.not_eq_true _ ▸ List.any_eq_false.mp hnone.symm attr hmem
    · intro hnone
      have hany : attrs.any Attr.isArraylike = false :=
        List.any_eq_false.mpr fun attr hmem => by simp [hnone attr hmem]
      have hitems : attrs.flatMap Attr.items = [] := by
        apply List.eq_nil_iff_forall_not_mem.mpr
        intro item hmem
        rw [exists_isArraylike hmem] at hany
        cases hany
      refine ⟨_, ?_, by simp [hitems], rfl, hany.symm⟩
      rintro attr hmem rfl
      cases hnone _ hmem
  · intro a
    constructor
    · rintro ⟨s, ⟨hargs, ⟨hwell, hnodup⟩, hs, -⟩, hfields⟩
      exact ⟨hargs, hwell, hnodup, (describes_iff hs).mpr hfields⟩
    · rintro ⟨hargs, hwell, hnodup, hdescribes⟩
      refine ⟨_, ⟨hargs, ⟨hwell, hnodup⟩, rfl, ?_⟩, (describes_iff rfl).mp hdescribes⟩
      -- there is an element type, so there is an item
      have hmem := List.mem_of_getLast? hdescribes.elementType.symm
      obtain ⟨item, hitem, -⟩ := List.mem_filterMap.mp hmem
      exact (exists_isArraylike hitem).symm

end Attributes

end VmkitCore.Derive
