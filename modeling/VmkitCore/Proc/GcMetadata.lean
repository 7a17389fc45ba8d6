import VmkitCore.Lib.NestedMeta
import Mathlib.Data.List.Perm.Basic
import Mathlib.Data.List.Nodup

/-! # The attribute `gcmetadata`

The derive macro reads the items of the attribute one after the other. Whether `trace` and `scan`
have an expression is decided by whether any tokens are left.
-/

namespace VmkitCore.Derive

open NestedMeta

/-- What `syn` parses: a value, and how many tokens it takes. -/
structure Syn (T E : Type*) where
  parseType : List Token → Except String (T × ℕ)
  parseExpr : List Token → Except String (E × ℕ)

structure Attribute where
  path : String
  /-- The tokens in parentheses, if there are any. -/
  args : Option (List Token)

inductive ObjectAlignment (E : Type*)
  | auto
  | const (e : E)
  | compute (e : E)

inductive ObjectSize (E : Type*)
  | auto
  | size (e : E)
  | compute (e : E)

inductive ObjectTrace (E : Type*)
  | noTrace
  | auto (scan : Bool)
  | trace (scan : Bool) (e : E)

structure GCMetadata (T E : Type*) where
  vm : T
  alignment : ObjectAlignment E
  size : ObjectSize E
  trace : ObjectTrace E

/-- The variables that the closure assigns. -/
structure Fields (T E : Type*) where
  vm : Option T
  alignment : Option (ObjectAlignment E)
  size : Option (ObjectSize E)
  trace : Option (ObjectTrace E)

def Fields.none {T E : Type*} : Fields T E := ⟨.none, .none, .none, .none⟩

section Source

variable {T E α : Type*}

/-- `peek(syn::token::Paren)` -/
def peekParen : List Token → Bool
  | .paren _ :: _ => true
  | _ => false

/-- The equals sign, and what is parsed after it. -/
def parseAfterEq (parse : List Token → Except String (α × ℕ)) :
    List Token → Except String (α × ℕ)
  | .eq :: input => (parse input).map fun p => (p.1, p.2 + 1)
  | _ => .error "expected equals sign"

variable (syn : Syn T E)

/-- The closure. No path is two of the identifiers, so at most one of the tests succeeds. -/
def parseMeta (s : Fields T E) (path : Path) (input : List Token) :
    Except String (Fields T E × ℕ) :=
  if path.isIdent "vm" then
    if s.vm.isSome then .error "multiple vm fields found"
    else (parseAfterEq syn.parseType input).map fun p => ({ s with vm := some p.1 }, p.2)
  else if path.isIdent "align" then
    if s.alignment.isSome then .error "multiple alignment fields found"
    else if peekParen input then
      (syn.parseExpr input).map fun p => ({ s with alignment := some (.const p.1) }, p.2)
    else
      (parseAfterEq syn.parseExpr input).map fun p =>
        ({ s with alignment := some (.compute p.1) }, p.2)
  else if path.isIdent "size" then
    if s.size.isSome then .error "multiple size fields found"
    else if peekParen input then
      (syn.parseExpr input).map fun p => ({ s with size := some (.size p.1) }, p.2)
    else
      (parseAfterEq syn.parseExpr input).map fun p => ({ s with size := some (.compute p.1) }, p.2)
  else if path.isIdent "trace" then
    if s.trace.isSome then .error "multiple trace fields found"
    else if input.isEmpty then .ok ({ s with trace := some (.auto false) }, 0)
    else
      (parseAfterEq syn.parseExpr input).map fun p =>
        ({ s with trace := some (.trace false p.1) }, p.2)
  else if path.isIdent "notrace" then
    if s.trace.isSome then .error "multiple trace fields found"
    else .ok ({ s with trace := some .noTrace }, 0)
  else if path.isIdent "scan" then
    if s.trace.isSome then .error "multiple trace fields found"
    else if input.isEmpty then .ok ({ s with trace := some (.auto true) }, 0)
    else
      (parseAfterEq syn.parseExpr input).map fun p =>
        ({ s with trace := some (.trace true p.1) }, p.2)
  else .ok (s, 0)

/-- The loop over the attributes, with whether one of them was `gcmetadata`. -/
def findFields : Bool → Fields T E → List Attribute → Except String (Bool × Fields T E)
  | has, s, [] => .ok (has, s)
  | has, s, attr :: attrs =>
    if attr.path = "gcmetadata" then
      match attr.args with
      | .none => .error "expected attribute arguments in parentheses"
      | some input =>
        match parser (parseMeta syn) s input with
        | .error e => .error e
        | .ok s' => findFields true s' attrs
    else findFields has s attrs

def findGcmetadata (attrs : List Attribute) : Except String (GCMetadata T E) :=
  match findFields syn false .none attrs with
  | .error e => .error e
  | .ok (has, s) =>
    if !has then .error "missing gcmetadata"
    else match s.vm with
      | .none => .error "VM for object not specified"
      | some vm => .ok ⟨vm, s.alignment.getD .auto, s.size.getD .auto, s.trace.getD (.auto false)⟩

end Source

/-! ### Items -/

/-- Tokens that the parser takes as one value, up to a comma or the end. -/
structure Phrase {α : Type*} (parse : List Token → Except String (α × ℕ)) where
  tokens : List Token
  value : α
  parse_eq : ∀ {body rest}, Follows body rest →
    parse (tokens ++ body) = .ok (value, tokens.length)

structure ParenPhrase {α : Type*} (parse : List Token → Except String (α × ℕ)) extends
    Phrase parse where
  inner : List Token
  tokens_eq : tokens = [.paren inner]

inductive Item {T E : Type*} (syn : Syn T E)
  | vm (type : Phrase syn.parseType)
  | align (expr : ParenPhrase syn.parseExpr)
  | alignEq (expr : Phrase syn.parseExpr)
  | size (expr : ParenPhrase syn.parseExpr)
  | sizeEq (expr : Phrase syn.parseExpr)
  | trace
  | traceEq (expr : Phrase syn.parseExpr)
  | notrace
  | scan
  | scanEq (expr : Phrase syn.parseExpr)

/-- The items of a kind exclude each other. -/
inductive Kind
  | vm | align | size | trace
  deriving DecidableEq, Repr

def Fields.has {T E : Type*} (s : Fields T E) : Kind → Bool
  | .vm => s.vm.isSome
  | .align => s.alignment.isSome
  | .size => s.size.isSome
  | .trace => s.trace.isSome

namespace Item

variable {T E : Type*} {syn : Syn T E}

def kind : Item syn → Kind
  | .vm _ => .vm
  | .align _ | .alignEq _ => .align
  | .size _ | .sizeEq _ => .size
  | .trace | .traceEq _ | .notrace | .scan | .scanEq _ => .trace

def name : Item syn → String
  | .vm _ => "vm"
  | .align _ | .alignEq _ => "align"
  | .size _ | .sizeEq _ => "size"
  | .trace | .traceEq _ => "trace"
  | .notrace => "notrace"
  | .scan | .scanEq _ => "scan"

/-- The tokens after the name. -/
def body : Item syn → List Token
  | .vm type => .eq :: type.tokens
  | .align expr | .size expr => expr.tokens
  | .alignEq expr | .sizeEq expr | .traceEq expr | .scanEq expr => .eq :: expr.tokens
  | .trace | .notrace | .scan => []

def apply (s : Fields T E) : Item syn → Fields T E
  | .vm type => { s with vm := some type.value }
  | .align expr => { s with alignment := some (.const expr.value) }
  | .alignEq expr => { s with alignment := some (.compute expr.value) }
  | .size expr => { s with size := some (.size expr.value) }
  | .sizeEq expr => { s with size := some (.compute expr.value) }
  | .trace => { s with trace := some (.auto false) }
  | .traceEq expr => { s with trace := some (.trace false expr.value) }
  | .notrace => { s with trace := some .noTrace }
  | .scan => { s with trace := some (.auto true) }
  | .scanEq expr => { s with trace := some (.trace true expr.value) }

/-- `trace` and `scan` without an expression. -/
def IsBare : Item syn → Prop
  | .trace | .scan => True
  | _ => False

variable {s : Fields T E} {item : Item syn} {body rest : List Token}

theorem leavesPath (h : Follows body rest) (item : Item syn) : LeavesPath (item.body ++ body) := by
  have hend : LeavesPath body := by cases h <;> trivial
  cases item with
  | align expr | size expr => simp only [Item.body, expr.tokens_eq]; trivial
  | trace | notrace | scan => exact hend
  | _ => trivial

/-- A second item of a kind is refused. -/
theorem parseMeta_of_has (h : s.has item.kind = true) :
    ∃ e, parseMeta syn s ⟨false, [item.name]⟩ (item.body ++ body) = .error e := by
  cases item <;> simp_all [Fields.has, kind, name, parseMeta, Path.isIdent]

/-- Before other items, `trace` and `scan` want an expression. -/
theorem parseMeta_of_isBare (hbare : item.IsBare) (h : Follows body rest) (hbody : body ≠ []) :
    ∃ e, parseMeta syn s ⟨false, [item.name]⟩ (item.body ++ body) = .error e := by
  cases h with
  | stop => exact absurd rfl hbody
  | comma next =>
    cases item <;> simp_all [IsBare, Item.body, name, parseMeta, Path.isIdent, parseAfterEq,
      Except.map]
    all_goals split <;> simp

theorem parseAfterEq_phrase {α : Type*} {parse : List Token → Except String (α × ℕ)}
    (p : Phrase parse) (h : Follows body rest) :
    parseAfterEq parse (.eq :: (p.tokens ++ body)) = .ok (p.value, p.tokens.length + 1) := by
  rw [parseAfterEq, p.parse_eq h]
  rfl

theorem parseMeta_eq (hhas : s.has item.kind = false) (h : Follows body rest)
    (hbare : item.IsBare → body = []) :
    parseMeta syn s ⟨false, [item.name]⟩ (item.body ++ body) =
      .ok (item.apply s, item.body.length) := by
  cases item with
  | vm expr | alignEq expr | sizeEq expr | traceEq expr | scanEq expr =>
    simp_all [Fields.has, kind, name, parseMeta, Path.isIdent, Item.body, apply, Except.map,
      peekParen, parseAfterEq_phrase _ h]
  | align expr | size expr =>
    have hparse := expr.parse_eq h
    have hpeek : peekParen (expr.tokens ++ body) = true := by rw [expr.tokens_eq]; rfl
    simp_all [Fields.has, kind, name, parseMeta, Path.isIdent, Item.body, apply, Except.map]
  | trace | notrace | scan =>
    simp_all [Fields.has, kind, name, parseMeta, Path.isIdent, Item.body, apply, IsBare]

/-- An item sets its own field and leaves the others alone. -/
theorem has_apply (k : Kind) : (item.apply s).has k = (s.has k || item.kind = k) := by
  cases item <;> cases k <;> simp [apply, kind, Fields.has]

/-- Items of different kinds set different fields. -/
theorem apply_comm {item' : Item syn} (h : item.kind ≠ item'.kind) :
    item'.apply (item.apply s) = item.apply (item'.apply s) := by
  cases item <;> cases item' <;> first | rfl | exact absurd rfl h

end Item

def gcmetadataFormat {T E : Type*} (syn : Syn T E) :
    ItemFormat (Item syn) Kind (parseMeta syn) where
  name := Item.name
  body := Item.body
  kind item := some item.kind
  WellFormed _ := True
  Bare := Item.IsBare
  has s k := s.has k = true
  apply := Item.apply
  leavesPath item _ _ hnext := Item.leavesPath hnext item
  logic_eq hnext _ hfresh hbare := Item.parseMeta_eq (by simpa using hfresh) hnext hbare
  logic_error {s item next rest} hnext h := by
    by_cases hhas : s.has item.kind = true
    · exact Item.parseMeta_of_has hhas
    · have hbare : item.IsBare ∧ next ≠ [] := by simpa [hhas] using h
      exact Item.parseMeta_of_isBare hbare.1 hnext hbare.2
  has_apply _ := by simp [Item.has_apply]

/-! ### Lists of items -/

section Lists

variable {T E : Type*} {syn : Syn T E} {s : Fields T E} {items items' : List (Item syn)}
  {trailing : Bool}

/-- The attribute with these items. -/
def gcmetadata (trailing : Bool) (items : List (Item syn)) : Attribute :=
  ⟨"gcmetadata", some ((gcmetadataFormat syn).render trailing items)⟩

theorem kinds_gcmetadataFormat : (gcmetadataFormat syn).kinds items = items.map Item.kind :=
  congrFun List.filterMap_eq_map' items

/-- No kind of item has been had before the first. -/
theorem accepts_gcmetadata :
    (gcmetadataFormat syn).Accepts Fields.none items ↔ (items.map Item.kind).Nodup := by
  refine ⟨fun h => kinds_gcmetadataFormat ▸ h.nodup, fun h => ⟨fun _ _ => trivial, ?_, ?_⟩⟩
  · rw [kinds_gcmetadataFormat]
    exact h
  · intro k _ hhas
    cases k <;> cases hhas

/-- Items of different kinds may be taken in any order. -/
theorem foldl_apply_perm (hperm : items.Perm items') (hnodup : (items.map Item.kind).Nodup) :
    items.foldl Item.apply s = items'.foldl Item.apply s := by
  refine hperm.foldl_eq' (fun x hx y hy s => ?_) s
  by_cases hkind : x.kind = y.kind
  · rw [List.inj_on_of_nodup_map hnodup hx hy hkind]
  · exact Item.apply_comm hkind

theorem has_foldl (k : Kind) :
    (items.foldl Item.apply s).has k = true ↔ s.has k = true ∨ ∃ item ∈ items, item.kind = k := by
  induction items generalizing s with
  | nil => simp
  | cons item items ih => simp [ih, Item.has_apply, or_assoc]

/-! ### The attribute -/

/-- The metadata that is made of the fields. -/
def Fields.metadata (s : Fields T E) (vm : T) : GCMetadata T E :=
  ⟨vm, s.alignment.getD .auto, s.size.getD .auto, s.trace.getD (.auto false)⟩

theorem findGcmetadata_eq_ok {metadata : GCMetadata T E} :
    findGcmetadata syn [gcmetadata trailing items] = .ok metadata ↔
      ∃ s vm, parser (parseMeta syn) .none ((gcmetadataFormat syn).render trailing items) = .ok s ∧
        s.vm = some vm ∧ metadata = s.metadata vm := by
  have hpath : (gcmetadata trailing items).path = "gcmetadata" := rfl
  rw [findGcmetadata, findFields, if_pos hpath]
  dsimp only [gcmetadata]
  cases hparser : parser (parseMeta syn) .none ((gcmetadataFormat syn).render trailing items) with
  | error e => simp
  | ok s => cases hvm : s.vm <;> simp [findFields, hvm, Fields.metadata, eq_comm]

/-- Every order of the items gives the same metadata. -/
def AcceptsAllOrders (syn : Syn T E) (trailing : Bool) (items : List (Item syn)) : Prop :=
  ∃ metadata, ∀ items', items.Perm items' →
    findGcmetadata syn [gcmetadata trailing items'] = .ok metadata

theorem acceptsAllOrders_of_not_bare (hnodup : (items.map Item.kind).Nodup)
    (hvm : ∃ item ∈ items, item.kind = .vm) (hbare : ∀ item ∈ items, ¬ item.IsBare) :
    AcceptsAllOrders syn trailing items := by
  obtain ⟨vm, hsome⟩ : ∃ vm, (items.foldl Item.apply Fields.none).vm = some vm :=
    Option.isSome_iff_exists.mp ((has_foldl .vm).mpr (.inr hvm))
  refine ⟨_, fun items' hperm => findGcmetadata_eq_ok.mpr ⟨_, vm, ?_, hsome, rfl⟩⟩
  rw [foldl_apply_perm hperm hnodup]
  refine (gcmetadataFormat syn).parser_render_iff.mpr ⟨?_, ?_, rfl⟩
  · exact accepts_gcmetadata.mpr ((hperm.map _).nodup_iff.mp hnodup)
  · exact ItemFormat.inPlace_of_not_bare _ fun item hmem => hbare item (hperm.mem_iff.mpr hmem)

/-- With the bare item in front, something follows it. -/
theorem not_bare_of_acceptsAllOrders (hvm : ∃ item ∈ items, item.kind = .vm)
    (h : AcceptsAllOrders syn trailing items) : ∀ item ∈ items, ¬ item.IsBare := by
  intro item hmem hbare
  obtain ⟨before, after, rfl⟩ := List.append_of_mem hmem
  obtain ⟨metadata, hall⟩ := h
  obtain ⟨s, -, hparser, -⟩ := findGcmetadata_eq_ok.mp (hall _ List.perm_middle)
  obtain ⟨other, hother, hkind⟩ := hvm
  have hmore : before ++ after ≠ [] := by
    intro hnil
    obtain ⟨rfl, rfl⟩ := List.append_eq_nil_iff.mp hnil
    obtain rfl := List.mem_singleton.mp hother
    cases other <;> first | exact hbare | cases hkind
  obtain ⟨-, hplace, -⟩ := (gcmetadataFormat syn).parser_render_iff.mp hparser
  exact hmore (hplace.1 hbare).1

/--
A list without duplicates is accepted in every order exactly if no `trace` or `scan` in it is
bare: such an item is taken in the last place only. A list with a duplicate is refused.
-/
theorem find_gcmetadata_iff (syn : Syn T E) (trailing : Bool) (items : List (Item syn)) :
    ((items.map Item.kind).Nodup → (∃ item ∈ items, item.kind = .vm) →
      (AcceptsAllOrders syn trailing items ↔ ∀ item ∈ items, ¬ item.IsBare)) ∧
    (¬ (items.map Item.kind).Nodup →
      ∃ e, findGcmetadata syn [gcmetadata trailing items] = .error e) := by
  refine ⟨fun hnodup hvm => ⟨not_bare_of_acceptsAllOrders hvm,
    acceptsAllOrders_of_not_bare hnodup hvm⟩, fun hdup => ?_⟩
  cases hfind : findGcmetadata syn [gcmetadata trailing items] with
  | error e => exact ⟨e, rfl⟩
  | ok metadata =>
    obtain ⟨s, -, hparser, -⟩ := findGcmetadata_eq_ok.mp hfind
    obtain ⟨haccepts, -⟩ := (gcmetadataFormat syn).parser_render_iff.mp hparser
    exact absurd (accepts_gcmetadata.mp haccepts) hdup

end Lists

/-- A parser of types and expressions of one identifier. -/
def parseWord : List Token → Except String (String × ℕ)
  | .ident name :: _ => .ok (name, 1)
  | _ => .error "expected identifier"

def words : Syn String String := ⟨parseWord, parseWord⟩

def word (name : String) : Phrase parseWord := ⟨[.ident name], name, fun _ => rfl⟩

/-- A type and an expression in both orders, and two items of a kind. -/
theorem find_gcmetadata_iff_words :
    AcceptsAllOrders words false [.vm (word "VM"), .traceEq (word "visit")] ∧
    ∃ e, findGcmetadata words
      [gcmetadata false ([.vm (word "VM"), .notrace, .scan] : List (Item words))] = .error e := by
  refine ⟨((find_gcmetadata_iff words false _).1 (by decide) ⟨_, List.mem_cons_self, rfl⟩).mpr ?_,
    (find_gcmetadata_iff words false _).2 (by decide)⟩
  simp [Item.IsBare]

/-- After `trace`, there may not be another item. -/
theorem gcmetadata_order_matters : ¬ ∀ (syn : Syn String String) (items : List (Item syn)),
    (items.map Item.kind).Nodup → (∃ item ∈ items, item.kind = .vm) →
    AcceptsAllOrders syn false items := by
  intro h
  have hvm : ∃ item ∈ [Item.trace, .vm (word "VM")], (item : Item words).kind = .vm :=
    ⟨_, List.mem_cons_of_mem _ List.mem_cons_self, rfl⟩
  have haccepts := h words [.trace, .vm (word "VM")] (by decide) hvm
  exact not_bare_of_acceptsAllOrders hvm haccepts _ List.mem_cons_self trivial

end VmkitCore.Derive
