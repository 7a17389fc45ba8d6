import VmkitCore.Lib.Loop
import VmkitCore.Mm.ObjectReferences
import VmkitCore.ObjectModel.Tracing
import Mathlib.Data.Finset.Basic

/-! # Conservative roots

Where a stack has no map, every word of it may be a pointer. A span of memory is scanned word
by word, and what MMTk finds at the words' values becomes a root.
-/

namespace VmkitCore

/-- Rounding addresses in both directions, as `mmtk::util::conversions` documents it. -/
structure AddressConversions extends UsizeConversions where
  rawAlignDown : ℕ → ℕ → ℕ
  rawAlignDown_le : ∀ v k, rawAlignDown v (2 ^ k) ≤ v
  dvd_rawAlignDown : ∀ v k, 2 ^ k ∣ rawAlignDown v (2 ^ k)
  /-- It gives the greatest multiple up to the value. -/
  le_rawAlignDown : ∀ {v w k}, w ≤ v → 2 ^ k ∣ w → w ≤ rawAlignDown v (2 ^ k)

/-- Rounding by division. -/
def AddressConversions.byDivision : AddressConversions where
  toUsizeConversions := Conversions.byDivision.usize
  rawAlignDown v a := v / a * a
  rawAlignDown_le _ _ := Nat.div_mul_le_self _ _
  dvd_rawAlignDown _ _ := Nat.dvd_mul_left _ _
  le_rawAlignDown {v w k} hle hdvd := by
    obtain ⟨i, rfl⟩ := hdvd
    rw [Nat.mul_comm] at hle ⊢
    exact Nat.mul_le_mul_right _ ((Nat.le_div_iff_mul_le (Nat.two_pow_pos k)).mpr hle)

/-- The heap of MMTk, and its search for objects. -/
structure RootHeap where
  startingHeapAddress : ℕ
  lastHeapAddress : ℕ
  findObjectFromInternalPointer : (pointer limit : ℕ) → Option ObjectReference

structure ConservativeRoots where
  roots : Finset ObjectReference
  internalPointerLimit : ℕ
  deriving DecidableEq

namespace ConservativeRoots

def new (limit : ℕ) : ConservativeRoots := ⟨∅, limit⟩

section Source

variable (conv : AddressConversions) (heap : RootHeap) (m : ByteMemory)

def addPointer (s : ConservativeRoots) (pointer : ℕ) : ConservativeRoots :=
  if pointer < heap.startingHeapAddress ∨ heap.lastHeapAddress < pointer then s
  else match heap.findObjectFromInternalPointer pointer s.internalPointerLimit with
    | none => s
    | some start => { s with roots := insert start s.roots }

/-- A round of the loop: load a word and go to the next one. -/
def spanBody (stop : ℕ) : ℕ × ConservativeRoots → (ℕ × ConservativeRoots) ⊕ ConservativeRoots
  | (current, s) =>
    if current < stop then .inl ((current + 8) % 2 ^ 64, s.addPointer heap (m.load current 8))
    else .inr s

/-- The ends of the span in the order of their addresses. -/
def order (start stop : ℕ) : ℕ × ℕ := if stop < start then (stop, start) else (start, stop)

/-- `add_span` returns: no end is null, and the loop leaves with the new roots. -/
def AddSpan (start stop : ℕ) (s t : ConservativeRoots) : Prop :=
  start ≠ 0 ∧ stop ≠ 0 ∧
    Loop.Returns (spanBody heap m (conv.rawAlignUp (order start stop).2 (2 ^ 3)))
      (conv.rawAlignDown (order start stop).1 (2 ^ 3), s) t

/-- One span after the other, as `scan_roots_in_mutator_thread` adds registers and stack. -/
def AddSpans : List (ℕ × ℕ) → ConservativeRoots → ConservativeRoots → Prop
  | [], s, t => t = s
  | (start, stop) :: spans, s, t => ∃ u, AddSpan conv heap m start stop s u ∧ AddSpans spans u t

end Source

/-! ### What a span adds -/

/-- The search finds the object at a pointer into the heap. -/
def Finds (heap : RootHeap) (limit pointer : ℕ) (r : ObjectReference) : Prop :=
  heap.startingHeapAddress ≤ pointer ∧ pointer ≤ heap.lastHeapAddress ∧
    heap.findObjectFromInternalPointer pointer limit = some r

instance (heap : RootHeap) (limit pointer : ℕ) (r : ObjectReference) :
    Decidable (Finds heap limit pointer r) := inferInstanceAs (Decidable (_ ∧ _ ∧ _))

/-- The ends are not null, and rounding them does not wrap around. -/
structure Valid (span : ℕ × ℕ) : Prop where
  ne_zero : span.1 ≠ 0 ∧ span.2 ≠ 0
  le : max span.1 span.2 ≤ 2 ^ 64 - 8

/-- An aligned word that the span touches has a value at which the object is found. -/
def InSpan (conv : AddressConversions) (heap : RootHeap) (m : ByteMemory) (limit : ℕ)
    (span : ℕ × ℕ) (r : ObjectReference) : Prop :=
  ∃ x, 8 ∣ x ∧ conv.rawAlignDown (min span.1 span.2) (2 ^ 3) ≤ x ∧
    x < conv.rawAlignUp (max span.1 span.2) (2 ^ 3) ∧ Finds heap limit (m.load x 8) r

variable {conv : AddressConversions} {heap : RootHeap} {m : ByteMemory}
  {s t u : ConservativeRoots} {r : ObjectReference} {span : ℕ × ℕ} {spans spans' : List (ℕ × ℕ)}
  {words words' : List ℕ} {lo hi n a b c x : ℕ}

@[simp] theorem addPointer_limit (pointer : ℕ) :
    (s.addPointer heap pointer).internalPointerLimit = s.internalPointerLimit := by
  unfold addPointer
  split_ifs
  · rfl
  · split <;> rfl

theorem mem_addPointer {pointer : ℕ} : r ∈ (s.addPointer heap pointer).roots ↔
    r ∈ s.roots ∨ Finds heap s.internalPointerLimit pointer r := by
  unfold addPointer Finds
  by_cases h : pointer < heap.startingHeapAddress ∨ heap.lastHeapAddress < pointer
  · rw [if_pos h]
    exact (or_iff_left fun hf => by omega).symm
  · rw [if_neg h, ← and_assoc, and_iff_right (by omega)]
    split
    · next hf => simp [hf]
    · next start hf => simp [hf, or_comm, eq_comm]

/-- The words at these addresses, one after the other. -/
def addWords (heap : RootHeap) (m : ByteMemory) (words : List ℕ) (s : ConservativeRoots) :
    ConservativeRoots := words.foldl (fun s x => s.addPointer heap (m.load x 8)) s

@[simp] theorem addWords_limit :
    (addWords heap m words s).internalPointerLimit = s.internalPointerLimit := by
  induction words generalizing s with
  | nil => rfl
  | cons x words ih => exact ih.trans (addPointer_limit _)

theorem mem_addWords : r ∈ (addWords heap m words s).roots ↔
    r ∈ s.roots ∨ ∃ x ∈ words, Finds heap s.internalPointerLimit (m.load x 8) r := by
  induction words generalizing s with
  | nil => simp [addWords]
  | cons x words ih =>
    have hcons : r ∈ (addWords heap m (x :: words) s).roots ↔ _ := ih
    rw [hcons, mem_addPointer, addPointer_limit, or_assoc, List.exists_mem_cons_iff]

/-- Only which words there are matters. -/
theorem addWords_congr (h : ∀ x, x ∈ words ↔ x ∈ words') :
    addWords heap m words s = addWords heap m words' s := by
  have hroots : (addWords heap m words s).roots = (addWords heap m words' s).roots := by
    ext r
    simp only [mem_addWords, h]
  have hlimit : (addWords heap m words s).internalPointerLimit =
      (addWords heap m words' s).internalPointerLimit := by simp
  cases hs : addWords heap m words s
  cases hs' : addWords heap m words' s
  rw [hs, hs'] at hroots hlimit
  exact congrArg₂ ConservativeRoots.mk hroots hlimit

theorem addWords_append :
    addWords heap m (words ++ words') s = addWords heap m words' (addWords heap m words s) :=
  List.foldl_append

/-- The loop over so many words ends, with what they add. -/
theorem spanBody_returns_iff (hn : lo + 8 * n = hi) (hhi : hi < 2 ^ 64) :
    Loop.Returns (spanBody heap m hi) (lo, s) t ↔
      t = addWords heap m (List.range' lo n 8) s := by
  induction n generalizing lo s with
  | zero =>
    have hbody : spanBody heap m hi (lo, s) = .inr s := if_neg (by omega)
    exact Loop.returns_of_inr hbody
  | succ n ih =>
    have hbody : spanBody heap m hi (lo, s) =
        .inl (lo + 8, s.addPointer heap (m.load lo 8)) := by
      rw [spanBody, if_pos (by omega), Nat.mod_eq_of_lt (by omega)]
    rw [Loop.returns_of_inl hbody, ih (by omega)]
    rfl

/-! ### The words of a span -/

/-- The addresses from the lower end, rounded down, to the upper end, rounded up. -/
def spanWords (conv : AddressConversions) (span : ℕ × ℕ) : List ℕ :=
  List.range' (conv.rawAlignDown (min span.1 span.2) (2 ^ 3))
    ((conv.rawAlignUp (max span.1 span.2) (2 ^ 3) -
      conv.rawAlignDown (min span.1 span.2) (2 ^ 3)) / 8) 8

theorem order_eq : order a b = (min a b, max a b) := by
  unfold order
  split_ifs with h
  · rw [min_eq_right (Nat.le_of_lt h), max_eq_left (Nat.le_of_lt h)]
  · rw [min_eq_left (Nat.le_of_not_lt h), max_eq_right (Nat.le_of_not_lt h)]

/-- Rounding up does not wrap around below the last word. -/
theorem rawAlignUp_spec (conv : AddressConversions) (h : x ≤ 2 ^ 64 - 8) :
    x ≤ conv.rawAlignUp x (2 ^ 3) ∧ 8 ∣ conv.rawAlignUp x (2 ^ 3) ∧
      conv.rawAlignUp x (2 ^ 3) < 2 ^ 64 := by
  have hle := (conv.rawAlignUp_least (k := 3) (by decide) h (by decide) (by decide)).1
  exact ⟨hle, conv.dvd_rawAlignUp x (k := 3) (by decide), conv.rawAlignUp_lt x 3⟩

/-- The two rounded ends are a whole number of words apart. -/
theorem spanWords_length (conv : AddressConversions) (h : Valid span) :
    conv.rawAlignDown (min span.1 span.2) (2 ^ 3) +
      8 * ((conv.rawAlignUp (max span.1 span.2) (2 ^ 3) -
        conv.rawAlignDown (min span.1 span.2) (2 ^ 3)) / 8) =
      conv.rawAlignUp (max span.1 span.2) (2 ^ 3) := by
  obtain ⟨hup, hdup, -⟩ := rawAlignUp_spec conv h.le
  have hdown := conv.rawAlignDown_le (min span.1 span.2) 3
  have hddown := conv.dvd_rawAlignDown (min span.1 span.2) 3
  omega

theorem mem_spanWords (h : Valid span) : x ∈ spanWords conv span ↔ 8 ∣ x ∧
    conv.rawAlignDown (min span.1 span.2) (2 ^ 3) ≤ x ∧
      x < conv.rawAlignUp (max span.1 span.2) (2 ^ 3) := by
  have hlength := spanWords_length conv h
  have hddown := conv.dvd_rawAlignDown (min span.1 span.2) 3
  rw [spanWords, List.mem_range']
  constructor
  · rintro ⟨i, hi, rfl⟩
    omega
  · rintro ⟨hdvd, hle, hlt⟩
    exact ⟨(x - conv.rawAlignDown (min span.1 span.2) (2 ^ 3)) / 8, by omega, by omega⟩

theorem addSpan_iff (h : Valid (a, b)) :
    AddSpan conv heap m a b s t ↔ t = addWords heap m (spanWords conv (a, b)) s := by
  rw [AddSpan, and_iff_right h.ne_zero.1, and_iff_right h.ne_zero.2, order_eq]
  exact spanBody_returns_iff (spanWords_length conv h) (rawAlignUp_spec conv h.le).2.2

theorem addSpans_iff (h : ∀ span ∈ spans, Valid span) :
    AddSpans conv heap m spans s t ↔
      t = addWords heap m (spans.flatMap (spanWords conv)) s := by
  induction spans generalizing s with
  | nil => exact Iff.rfl
  | cons span spans ih =>
    obtain ⟨hspan, hspans⟩ := List.forall_mem_cons.mp h
    simp only [AddSpans, addSpan_iff hspan, exists_eq_left, ih hspans, List.flatMap_cons,
      addWords_append]

/-! ### Laws -/

/-- The loop ends, and adds what is found at the words of the span. -/
theorem addSpan_exact (h : Valid (a, b)) : ∃ t, (∀ u, AddSpan conv heap m a b s u ↔ u = t) ∧
    t.internalPointerLimit = s.internalPointerLimit ∧
    ∀ r, r ∈ t.roots ↔ r ∈ s.roots ∨ InSpan conv heap m s.internalPointerLimit (a, b) r := by
  refine ⟨_, fun u => addSpan_iff h, addWords_limit, fun r => ?_⟩
  rw [mem_addWords, InSpan]
  simp only [mem_spanWords h, and_assoc]

theorem addSpan_swap : AddSpan conv heap m a b s t ↔ AddSpan conv heap m b a s t := by
  simp only [AddSpan, order_eq, min_comm a, max_comm a]
  exact and_left_comm

theorem addSpans_perm (h : spans.Perm spans') (hvalid : ∀ span ∈ spans, Valid span) :
    AddSpans conv heap m spans s t ↔ AddSpans conv heap m spans' s t := by
  rw [addSpans_iff hvalid, addSpans_iff fun span hspan => hvalid span (h.mem_iff.mpr hspan),
    addWords_congr fun x => (h.flatMap_right _).mem_iff]

theorem addSpan_repeat (hvalid : Valid (a, b)) (h : AddSpan conv heap m a b s t) :
    AddSpan conv heap m a b t u ↔ u = t := by
  rw [addSpan_iff hvalid] at h ⊢
  rw [h, ← addWords_append, addWords_congr fun x => List.mem_append.trans or_self_iff]

/-- Rounding leaves a word boundary where it is. -/
theorem align_of_dvd (conv : AddressConversions) (hdvd : 8 ∣ b) (h : b ≤ 2 ^ 64 - 8) :
    conv.rawAlignUp b (2 ^ 3) = b ∧ conv.rawAlignDown b (2 ^ 3) = b := by
  have hup := conv.rawAlignUp_least (k := 3) (by decide) (le_refl b) hdvd (by omega)
  exact ⟨le_antisymm hup.2 hup.1,
    le_antisymm (conv.rawAlignDown_le b 3) (conv.le_rawAlignDown (k := 3) (le_refl b) hdvd)⟩

theorem addSpan_split (h : Valid (a, c)) (hab : a ≤ b) (hbc : b ≤ c) (hdvd : 8 ∣ b) :
    AddSpans conv heap m [(a, b), (b, c)] s t ↔ AddSpan conv heap m a c s t := by
  have hc : c ≤ 2 ^ 64 - 8 := (le_max_right a c).trans h.le
  have ha : a ≠ 0 := h.ne_zero.1
  have hleft : Valid (a, b) := ⟨⟨ha, by omega⟩, max_le (by omega) (by omega)⟩
  have hright : Valid (b, c) := ⟨⟨by omega, h.ne_zero.2⟩, max_le (by omega) hc⟩
  have halign := align_of_dvd conv hdvd (hbc.trans hc)
  have hdown : conv.rawAlignDown a (2 ^ 3) ≤ b := (conv.rawAlignDown_le a 3).trans hab
  have hup : b ≤ conv.rawAlignUp c (2 ^ 3) := hbc.trans (rawAlignUp_spec conv hc).1
  have hwords : ∀ x, x ∈ [(a, b), (b, c)].flatMap (spanWords conv) ↔
      x ∈ spanWords conv (a, c) := by
    intro x
    simp only [List.flatMap_cons, List.flatMap_nil, List.append_nil, List.mem_append,
      mem_spanWords hleft, mem_spanWords hright, mem_spanWords h, min_eq_left hab,
      max_eq_right hab, min_eq_left hbc, max_eq_right hbc, min_eq_left (hab.trans hbc),
      max_eq_right (hab.trans hbc), halign.1, halign.2]
    omega
  rw [addSpan_iff h, addSpans_iff (by simp [hleft, hright]), addWords_congr hwords]

/--
A span adds what the search finds at its words, from the lower end rounded down to the upper one
rounded up. The order of the ends, the order of the spans, repeated spans and cuts between words
make no difference.
-/
theorem conservative_roots_of_spans (conv : AddressConversions) (heap : RootHeap) (m : ByteMemory)
    (s : ConservativeRoots) :
    (∀ a b, Valid (a, b) → ∃ t, (∀ u, AddSpan conv heap m a b s u ↔ u = t) ∧
      t.internalPointerLimit = s.internalPointerLimit ∧
      ∀ r, r ∈ t.roots ↔ r ∈ s.roots ∨ InSpan conv heap m s.internalPointerLimit (a, b) r) ∧
    (∀ a b t, AddSpan conv heap m a b s t ↔ AddSpan conv heap m b a s t) ∧
    (∀ spans spans' t, spans.Perm spans' → (∀ span ∈ spans, Valid span) →
      (AddSpans conv heap m spans s t ↔ AddSpans conv heap m spans' s t)) ∧
    (∀ a b t u, Valid (a, b) → AddSpan conv heap m a b s t →
      (AddSpan conv heap m a b t u ↔ u = t)) ∧
    ∀ a b c t, Valid (a, c) → a ≤ b → b ≤ c → 8 ∣ b →
      (AddSpans conv heap m [(a, b), (b, c)] s t ↔ AddSpan conv heap m a c s t) :=
  ⟨fun _ _ h => addSpan_exact h, fun _ _ _ => addSpan_swap, fun _ _ _ h hv => addSpans_perm h hv,
    fun _ _ _ _ hv h => addSpan_repeat hv h,
    fun _ _ _ _ h hab hbc hdvd => addSpan_split h hab hbc hdvd⟩

/-- The object of the heap below. -/
def pointee : ObjectReference := ⟨⟨8192⟩, by decide⟩

def pointeeHeap : RootHeap :=
  ⟨8192, 16384, fun pointer _ => if pointer = 8192 then some pointee else none⟩

/-- The word at 4096 points to the object. -/
theorem conservative_roots_of_spans_word : ∃ t,
    AddSpan .byDivision pointeeHeap (ByteMemory.store (fun _ => 0) 4096 8 8192) 4099 4097
      (new 128) t ∧ pointee ∈ t.roots := by
  have hvalid : Valid (4099, 4097) := ⟨by decide, by decide⟩
  obtain ⟨t, ht, -, hroots⟩ := (conservative_roots_of_spans .byDivision pointeeHeap
    (ByteMemory.store (fun _ => 0) 4096 8 8192) (new 128)).1 4099 4097 hvalid
  refine ⟨t, (ht t).mpr rfl, (hroots _).mpr (.inr ⟨4096, ?_⟩)⟩
  exact ⟨by decide, by decide, by decide, by decide⟩

end ConservativeRoots

end VmkitCore
