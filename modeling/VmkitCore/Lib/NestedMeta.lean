import Mathlib.Data.List.Basic
import Mathlib.Data.List.Nodup

/-! # Nested meta items

The arguments of an attribute are items between commas. An item starts with a path, and what
follows the path is up to a closure, which says how many tokens it took. After every item there
is a comma or the end.
-/

namespace NestedMeta

inductive Token
  | ident (name : String)
  | pathSep
  | comma
  | eq
  | paren (inner : List Token)
  | other (text : String)

structure Path where
  leadingColon : Bool
  segments : List String
  deriving DecidableEq, Repr

/-- The path is a single identifier. -/
def Path.isIdent (p : Path) (name : String) : Bool := p = ⟨false, [name]⟩

/-- Identifiers with separators between them, and what comes after them. -/
def parseSegments : List Token → Except String (List String × List Token)
  | .ident name :: .pathSep :: ts => (parseSegments ts).map fun p => (name :: p.1, p.2)
  | .ident name :: ts => .ok ([name], ts)
  | _ => .error "expected identifier"

def parseMetaPath : List Token → Except String (Path × List Token)
  | .pathSep :: ts => (parseSegments ts).map fun p => (⟨true, p.1⟩, p.2)
  | ts => (parseSegments ts).map fun p => (⟨false, p.1⟩, p.2)

theorem map_eq_ok {ε α β : Type*} {x : Except ε α} {f : α → β} {b : β} :
    x.map f = .ok b ↔ ∃ a, x = .ok a ∧ f a = b := by
  cases x <;> simp [Except.map]

theorem parseSegments_length {ts rest : List Token} {names : List String}
    (h : parseSegments ts = .ok (names, rest)) : rest.length < ts.length := by
  induction ts using parseSegments.induct generalizing names with
  | case1 name ts ih =>
    obtain ⟨⟨names', rest'⟩, hts, hp⟩ := map_eq_ok.mp h
    obtain ⟨-, rfl⟩ := Prod.mk.inj hp
    exact Nat.lt_trans (ih hts) (Nat.lt_add_of_pos_right Nat.two_pos)
  | case2 name ts hts =>
    rw [parseSegments] at h
    · obtain ⟨-, rfl⟩ := Prod.mk.inj (Except.ok.inj h)
      exact Nat.lt_succ_self _
    · exact hts
  | case3 ts h1 h2 =>
    rw [parseSegments] at h
    · cases h
    · exact h1
    · exact h2

theorem parseMetaPath_length {ts rest : List Token} {p : Path}
    (h : parseMetaPath ts = .ok (p, rest)) : rest.length < ts.length := by
  unfold parseMetaPath at h
  split at h <;> obtain ⟨⟨names, rest'⟩, hts, hp⟩ := map_eq_ok.mp h <;>
    obtain ⟨-, rfl⟩ := Prod.mk.inj hp
  · exact Nat.lt_succ_of_lt (parseSegments_length hts)
  · exact parseSegments_length hts

variable {σ : Type*}

/-- An item and the comma after it, if there is one: the state, and what comes next. -/
def parseItem (logic : σ → Path → List Token → Except String (σ × ℕ)) (s : σ)
    (input : List Token) : Except String (σ × List Token) :=
  match parseMetaPath input with
  | .error e => .error e
  | .ok (path, rest) =>
    match logic s path rest with
    | .error e => .error e
    | .ok (s', n) =>
      match rest.drop n with
      | [] => .ok (s', [])
      | .comma :: rest => .ok (s', rest)
      | _ => .error "expected comma"

theorem parseItem_length {logic : σ → Path → List Token → Except String (σ × ℕ)} {s s' : σ}
    {input rest : List Token} (h : parseItem logic s input = .ok (s', rest)) :
    rest.length < input.length := by
  unfold parseItem at h
  split at h
  · cases h
  · next path rest' hpath =>
    have hlt := parseMetaPath_length hpath
    split at h
    · cases h
    · next s'' n _ =>
      split at h
      · cases h
        exact Nat.zero_lt_of_lt hlt
      · next rest'' hdrop =>
        cases h
        have hlength := congrArg List.length hdrop
        rw [List.length_drop, List.length_cons] at hlength
        omega
      · cases h

/-- The state after the closure was called on every item. -/
def parseNestedMeta (logic : σ → Path → List Token → Except String (σ × ℕ)) (s : σ)
    (input : List Token) : Except String σ :=
  match h : parseItem logic s input with
  | .error e => .error e
  | .ok (s', rest) =>
    have _ := parseItem_length h
    if rest.isEmpty then .ok s' else parseNestedMeta logic s' rest
  termination_by input.length

/-- No arguments at all are no items. -/
def parser (logic : σ → Path → List Token → Except String (σ × ℕ)) (s : σ)
    (input : List Token) : Except String σ :=
  if input.isEmpty then .ok s else parseNestedMeta logic s input

/-! ### Items that the closure takes -/

variable {logic : σ → Path → List Token → Except String (σ × ℕ)} {s s' : σ}
  {name e : String} {input body rest : List Token}

/-- What follows an item: the end, or a comma and what comes next. -/
inductive Follows : List Token → List Token → Prop
  | stop : Follows [] []
  | comma (next : List Token) : Follows (.comma :: next) next

/-- The tokens do not go on with the path. -/
def LeavesPath : List Token → Prop
  | .pathSep :: _ => False
  | _ => True

theorem parseMetaPath_ident (h : LeavesPath body) :
    parseMetaPath (.ident name :: body) = .ok (⟨false, [name]⟩, body) := by
  have hsegments : parseSegments (.ident name :: body) = .ok ([name], body) := by
    rw [parseSegments]
    rintro ts rfl
    exact h
  rw [parseMetaPath, hsegments]
  · rfl
  · rintro ts ⟨⟩

theorem parseNestedMeta_of_error (h : parseItem logic s input = .error e) :
    parseNestedMeta logic s input = .error e := by
  rw [parseNestedMeta]
  split
  · next h' =>
    rw [h] at h'
    cases h'
    rfl
  · next h' =>
    rw [h] at h'
    cases h'

theorem parseNestedMeta_of_ok (h : parseItem logic s input = .ok (s', rest)) :
    parseNestedMeta logic s input = parser logic s' rest := by
  rw [parseNestedMeta]
  split
  · next h' =>
    rw [h] at h'
    cases h'
  · next h' =>
    rw [h] at h'
    cases h'
    rfl

/-- Where the closure fails, so does everything. -/
theorem parser_item_error (hbody : LeavesPath body)
    (h : logic s ⟨false, [name]⟩ body = .error e) :
    parser logic s (.ident name :: body) = .error e := by
  apply parseNestedMeta_of_error
  rw [parseItem, parseMetaPath_ident hbody]
  dsimp only
  rw [h]

/-- Where the closure takes the tokens before the comma, the items after it come next. -/
theorem parser_item {ts : List Token} (hbody : LeavesPath (ts ++ body))
    (hnext : Follows body rest) (h : logic s ⟨false, [name]⟩ (ts ++ body) = .ok (s', ts.length)) :
    parser logic s (.ident name :: (ts ++ body)) = parser logic s' rest := by
  apply parseNestedMeta_of_ok
  rw [parseItem, parseMetaPath_ident hbody]
  dsimp only
  rw [h]
  dsimp only
  rw [List.drop_left]
  cases hnext <;> rfl

/-! ### Lists of items of some kinds

The state knows which kinds it has had, and the closure takes a well-formed item of a kind it has
not had. Bare items want nothing behind them.
-/

structure ItemFormat (ι κ : Type*) (logic : σ → Path → List Token → Except String (σ × ℕ)) where
  name : ι → String
  /-- The tokens after the name. -/
  body : ι → List Token
  kind : ι → Option κ
  WellFormed : ι → Prop
  Bare : ι → Prop
  has : σ → κ → Prop
  apply : σ → ι → σ
  leavesPath : ∀ item {next rest}, Follows next rest → LeavesPath (body item ++ next)
  logic_eq : ∀ {s item next rest}, Follows next rest → WellFormed item →
    (∀ k, kind item = some k → ¬ has s k) → (Bare item → next = []) →
    logic s ⟨false, [name item]⟩ (body item ++ next) = .ok (apply s item, (body item).length)
  logic_error : ∀ {s item next rest}, Follows next rest →
    ¬ ((WellFormed item ∧ ∀ k, kind item = some k → ¬ has s k) ∧ (Bare item → next = [])) →
    ∃ e, logic s ⟨false, [name item]⟩ (body item ++ next) = .error e
  has_apply : ∀ {s item k}, WellFormed item → (has (apply s item) k ↔ has s k ∨ kind item = some k)

namespace ItemFormat

variable {ι κ : Type*} (F : ItemFormat ι κ logic) {item : ι} {items items' : List ι}
  {trailing : Bool}

/-- The items with commas between them, and perhaps one after the last. -/
def render (trailing : Bool) : List ι → List Token
  | [] => []
  | item :: items => .ident (F.name item) :: (F.body item ++
      if items.isEmpty && !trailing then [] else .comma :: render trailing items)

/-- Behind a bare item, there is neither another item nor a comma. -/
def InPlace (trailing : Bool) : List ι → Prop
  | [] => True
  | item :: items => (F.Bare item → items = [] ∧ trailing = false) ∧ InPlace trailing items

def kinds (items : List ι) : List κ := items.filterMap F.kind

/-- All items are well formed, of different kinds, and of none that the state has had. -/
structure Accepts (s : σ) (items : List ι) : Prop where
  wellFormed : ∀ item ∈ items, F.WellFormed item
  nodup : (F.kinds items).Nodup
  fresh : ∀ k ∈ F.kinds items, ¬ F.has s k

theorem follows_render (trailing : Bool) (items : List ι) :
    Follows (if items.isEmpty && !trailing then [] else .comma :: F.render trailing items)
      (F.render trailing items) := by
  split
  · next h =>
    rw [List.isEmpty_iff.mp ((Bool.and_eq_true _ _).mp h).1]
    exact .stop
  · exact .comma _

theorem accepts_nil : F.Accepts s [] :=
  ⟨fun _ h => absurd h List.not_mem_nil, List.nodup_nil, fun _ h => absurd h List.not_mem_nil⟩

theorem mem_kinds_cons {k : κ} :
    k ∈ F.kinds (item :: items) ↔ F.kind item = some k ∨ k ∈ F.kinds items := by
  rw [kinds, List.filterMap_cons]
  cases hkind : F.kind item with
  | none => simp [kinds]
  | some k' => simp [kinds, eq_comm]

theorem nodup_kinds_cons : (F.kinds (item :: items)).Nodup ↔
    (∀ k, F.kind item = some k → k ∉ F.kinds items) ∧ (F.kinds items).Nodup := by
  rw [kinds, List.filterMap_cons]
  cases hkind : F.kind item with
  | none => simp [kinds]
  | some k' => simp [kinds, List.nodup_cons]

/-- The first item is taken, and then the others are. -/
theorem accepts_cons : F.Accepts s (item :: items) ↔
    (F.WellFormed item ∧ ∀ k, F.kind item = some k → ¬ F.has s k) ∧
      F.Accepts (F.apply s item) items := by
  constructor
  · rintro ⟨hwell, hnodup, hfresh⟩
    obtain ⟨hitem, hwell⟩ := List.forall_mem_cons.mp hwell
    obtain ⟨hkind, hnodup⟩ := F.nodup_kinds_cons.mp hnodup
    refine ⟨⟨hitem, fun k hk => hfresh k (F.mem_kinds_cons.mpr (.inl hk))⟩, hwell, hnodup, ?_⟩
    intro k hmem hhas
    rcases (F.has_apply hitem).mp hhas with hhas | hk
    · exact hfresh k (F.mem_kinds_cons.mpr (.inr hmem)) hhas
    · exact hkind k hk hmem
  · rintro ⟨⟨hitem, hfirst⟩, hwell, hnodup, hfresh⟩
    refine ⟨List.forall_mem_cons.mpr ⟨hitem, hwell⟩, F.nodup_kinds_cons.mpr ⟨?_, hnodup⟩, ?_⟩
    · intro k hk hmem
      exact hfresh k hmem ((F.has_apply hitem).mpr (.inr hk))
    · intro k hmem hhas
      rcases F.mem_kinds_cons.mp hmem with hk | hmem
      · exact hfirst k hk hhas
      · exact hfresh k hmem ((F.has_apply hitem).mpr (.inl hhas))

theorem accepts_append : F.Accepts s (items ++ items') ↔
    F.Accepts s items ∧ F.Accepts (items.foldl F.apply s) items' := by
  induction items generalizing s with
  | nil => simp [F.accepts_nil]
  | cons item items ih =>
    simp only [List.cons_append, accepts_cons, ih, List.foldl_cons, and_assoc]

theorem inPlace_of_not_bare (h : ∀ item ∈ items, ¬ F.Bare item) : F.InPlace trailing items := by
  induction items with
  | nil => trivial
  | cons item items ih =>
    obtain ⟨hitem, hitems⟩ := List.forall_mem_cons.mp h
    exact ⟨fun hbare => absurd hbare hitem, ih hitems⟩

/-- The first item is taken, or the list is refused. -/
theorem parser_render_cons : parser logic s (F.render trailing (item :: items)) = .ok s' ↔
    ((F.WellFormed item ∧ ∀ k, F.kind item = some k → ¬ F.has s k) ∧
      (F.Bare item → items = [] ∧ trailing = false)) ∧
      parser logic (F.apply s item) (F.render trailing items) = .ok s' := by
  have hfollows := F.follows_render trailing items
  have hend : (if items.isEmpty && !trailing then [] else
      .comma :: F.render trailing items) = [] ↔ items = [] ∧ trailing = false := by
    rw [ite_eq_left_iff]
    simp
  rw [← hend]
  by_cases htaken : (F.WellFormed item ∧ ∀ k, F.kind item = some k → ¬ F.has s k) ∧
      (F.Bare item → (if items.isEmpty && !trailing then [] else
        .comma :: F.render trailing items) = [])
  · rw [and_iff_right htaken]
    obtain ⟨⟨hwell, hfresh⟩, hbare⟩ := htaken
    have hparser : parser logic s (F.render trailing (item :: items)) =
        parser logic (F.apply s item) (F.render trailing items) :=
      parser_item (F.leavesPath item hfollows) hfollows (F.logic_eq hfollows hwell hfresh hbare)
    rw [hparser]
  · obtain ⟨e, he⟩ := F.logic_error hfollows htaken
    have hparser : parser logic s (F.render trailing (item :: items)) = .error e :=
      parser_item_error (F.leavesPath item hfollows) he
    rw [hparser]
    exact ⟨fun h => absurd h (by simp), fun h => absurd h.1 htaken⟩

/-- A list is parsed exactly if it is accepted, and then every item has done its part. -/
theorem parser_render_iff : parser logic s (F.render trailing items) = .ok s' ↔
    F.Accepts s items ∧ F.InPlace trailing items ∧ s' = items.foldl F.apply s := by
  induction items generalizing s with
  | nil =>
    have hnil : parser logic s (F.render trailing []) = .ok s := rfl
    rw [hnil, Except.ok.injEq]
    exact ⟨fun h => ⟨F.accepts_nil, trivial, h.symm⟩, fun h => h.2.2.symm⟩
  | cons item items ih =>
    rw [parser_render_cons, ih, accepts_cons, List.foldl_cons, InPlace]
    constructor
    · rintro ⟨⟨htaken, hbare⟩, haccepts, hplace, heq⟩
      exact ⟨⟨htaken, haccepts⟩, ⟨hbare, hplace⟩, heq⟩
    · rintro ⟨⟨htaken, haccepts⟩, ⟨hbare, hplace⟩, heq⟩
      exact ⟨⟨htaken, hbare⟩, haccepts, hplace, heq⟩

/-- Between parentheses, there is at least one item. -/
theorem parseNestedMeta_render_iff : parseNestedMeta logic s (F.render trailing items) = .ok s' ↔
    items ≠ [] ∧ F.Accepts s items ∧ F.InPlace trailing items ∧ s' = items.foldl F.apply s := by
  cases items with
  | nil =>
    have herror : parseNestedMeta logic s (F.render trailing []) = .error "expected identifier" :=
      parseNestedMeta_of_error rfl
    rw [herror]
    simp
  | cons item items =>
    have hparser : parser logic s (F.render trailing (item :: items)) =
        parseNestedMeta logic s (F.render trailing (item :: items)) := rfl
    rw [← hparser, parser_render_iff, and_iff_right (List.cons_ne_nil item items)]

end ItemFormat

/-- What the first item says counts where no later item says anything. -/
theorem getLast?_filterMap_cons {ι β : Type*} (val : ι → Option β) (item : ι) (items : List ι)
    (b : Option β) : ((item :: items).filterMap val).getLast?.or b =
      (items.filterMap val).getLast?.or ((val item).or b) := by
  rw [List.filterMap_cons]
  cases hval : val item with
  | none => rfl
  | some b =>
    rw [List.getLast?_cons]
    cases (items.filterMap val).getLast? <;> rfl

end NestedMeta
