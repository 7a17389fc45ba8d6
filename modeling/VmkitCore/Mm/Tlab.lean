import VmkitCore.Mm.Align
import VmkitCore.ObjectModel.Object

/-! # Thread-local allocation buffers

A buffer is a cursor and a limit, and so is the bump pointer of the allocator under
it. Flushing stores the buffer into the bump pointer, and refilling copies the bump
pointer into the buffer. The arithmetic on addresses and sizes wraps around, as it does in a
release build.
-/

namespace VmkitCore

/-- Rounding up to a power of two in a `usize`, as `mmtk::util::conversions` documents it. -/
structure UsizeConversions where
  rawAlignUp : ℕ → ℕ → ℕ
  rawAlignUp_lt : ∀ v k, rawAlignUp v (2 ^ k) < 2 ^ 64
  dvd_rawAlignUp : ∀ v {k}, k < 64 → 2 ^ k ∣ rawAlignUp v (2 ^ k)
  /-- It gives the least multiple from the value on, if a `usize` holds one. -/
  rawAlignUp_least : ∀ {v w k}, k < 64 → v ≤ w → 2 ^ k ∣ w → w < 2 ^ 64 →
    v ≤ rawAlignUp v (2 ^ k) ∧ rawAlignUp v (2 ^ k) ≤ w

/-- Rounding that wraps around. -/
def Conversions.usize (conv : Conversions) : UsizeConversions where
  rawAlignUp v a := conv.rawAlignUp v a % 2 ^ 64
  rawAlignUp_lt _ _ := Nat.mod_lt _ (Nat.two_pow_pos 64)
  dvd_rawAlignUp v k hk :=
    (Nat.dvd_mod_iff (pow_dvd_pow 2 (Nat.le_of_lt hk))).mpr (conv.dvd_rawAlignUp v k)
  rawAlignUp_least {v w k} hk hv hw hlt := by
    have hle := conv.le_rawAlignUp v k
    have hub : conv.rawAlignUp v (2 ^ k) ≤ w := by
      have hlt' := conv.rawAlignUp_lt v k
      have hd := Nat.dvd_sub (conv.dvd_rawAlignUp v k) hw
      exact Nat.sub_eq_zero_iff_le.mp (Nat.eq_zero_of_dvd_of_lt hd (by omega))
    rw [Nat.mod_eq_of_lt (by omega)]
    exact ⟨hle, hub⟩

/-- What is rounded already stays as it is. -/
theorem UsizeConversions.rawAlignUp_of_dvd (conv : UsizeConversions) {n k : ℕ} (hk : k < 64)
    (hd : 2 ^ k ∣ n) (hn : n < 2 ^ 64) : conv.rawAlignUp n (2 ^ k) = n := by
  have h := conv.rawAlignUp_least hk le_rfl hd hn
  exact le_antisymm h.2 h.1

/-- `TLAB`, and the bump pointer of an allocator. -/
structure TLAB where
  cursor : ℕ
  limit : ℕ
  deriving DecidableEq, Repr

/-- The allocator that MMTk maps the default semantics to. -/
inductive AllocatorSelector
  | immix | bumpPointer | other
  deriving DecidableEq, Repr

def AllocatorSelector.isBump : AllocatorSelector → Bool
  | immix | bumpPointer => true
  | other => false

namespace TLAB

def new : TLAB := ⟨0, 0⟩

/-- `align_allocation_no_fill` at the cursor. -/
def alignedCursor (t : TLAB) (alignment offset : ℕ) : ℕ :=
  (Align.alignAllocationNoFill (.ofNat 64 t.cursor) (.ofNat 64 alignment) (.ofNat 64 offset)).toNat

/-- The address of the block, or zero, and the buffer after the call. -/
def allocate (conv : UsizeConversions) (t : TLAB) (size alignment offset : ℕ) : ℕ × TLAB :=
  let size := conv.rawAlignUp size alignment
  let result := t.alignedCursor alignment offset
  if (result + size) % 2 ^ 64 > t.limit then (0, t)
  else (result, { t with cursor := (result + size) % 2 ^ 64 })

/-- Where a block would end if nothing wrapped around. -/
def blockEnd (conv : UsizeConversions) (t : TLAB) (size alignment offset : ℕ) : ℕ :=
  t.cursor + (t.alignedCursor alignment offset + (2 ^ 64 - t.cursor)) % 2 ^ 64 +
    conv.rawAlignUp size alignment

/-- The end of the block wraps around, and lands below the limit. -/
def Wraps (conv : UsizeConversions) (t : TLAB) (size alignment offset : ℕ) : Prop :=
  2 ^ 64 ≤ t.blockEnd conv size alignment offset ∧
    t.blockEnd conv size alignment offset % 2 ^ 64 ≤ t.limit

instance (conv : UsizeConversions) (t : TLAB) (size alignment offset : ℕ) :
    Decidable (t.Wraps conv size alignment offset) := inferInstanceAs (Decidable (_ ∧ _))

def take (t : TLAB) : (ℕ × ℕ) × TLAB := ((t.cursor, t.limit), new)

/-- What `flush_tlab` does with the words it has taken: the bump pointer, or a failed assertion. -/
def giveBack (selector : AllocatorSelector) (bump : TLAB) (cursor limit : ℕ) : Option TLAB :=
  if cursor = 0 then if limit = 0 then some bump else none
  else if selector.isBump then some ⟨cursor, limit⟩
  else none

/-- `flush_tlab`: the buffer and the bump pointer. -/
def flush (selector : AllocatorSelector) (t bump : TLAB) : Option (TLAB × TLAB) :=
  (giveBack selector bump t.take.1.1 t.take.1.2).map fun bump => (t.take.2, bump)

/-- `refill_tlab` -/
def refill (selector : AllocatorSelector) (t bump : TLAB) : TLAB :=
  if selector.isBump then ⟨bump.cursor, bump.limit⟩ else t

/-- Empty, or between a cursor and a limit. -/
def Ok (t : TLAB) : Prop := t.cursor = 0 ∧ t.limit = 0 ∨ 0 < t.cursor ∧ t.cursor ≤ t.limit

instance (t : TLAB) : Decidable t.Ok := inferInstanceAs (Decidable (_ ∨ _))

/-- What a buffer or a bump pointer holds under the given allocator. -/
def Valid (selector : AllocatorSelector) (t : TLAB) : Prop :=
  t = new ∨ selector.isBump = true ∧ 0 < t.cursor ∧ t.cursor ≤ t.limit ∧ t.limit < 2 ^ 64

instance (selector : AllocatorSelector) (t : TLAB) : Decidable (t.Valid selector) :=
  inferInstanceAs (Decidable (_ ∨ _))

/-- The bytes that are still free. -/
def Has (t : TLAB) (x : ℕ) : Prop := t.cursor ≤ x ∧ x < t.limit

instance (t : TLAB) (x : ℕ) : Decidable (t.Has x) := inferInstanceAs (Decidable (_ ∧ _))

variable {conv : UsizeConversions} {t t' bump : TLAB} {selector : AllocatorSelector}
  {size alignment offset : ℕ}

theorem ok_new : new.Ok := .inl ⟨rfl, rfl⟩

theorem has_mk {cursor limit x : ℕ} :
    (⟨cursor, limit⟩ : TLAB).Has x ↔ cursor ≤ x ∧ x < limit := .rfl

theorem not_has_new (x : ℕ) : ¬ new.Has x := fun h => absurd h.2 (Nat.not_lt_zero x)

theorem alignedCursor_lt : t.alignedCursor alignment offset < 2 ^ 64 := BitVec.isLt _

theorem dvd_alignedCursor {k : ℕ} (hk : k < 64) (t : TLAB) (offset : ℕ) :
    2 ^ k ∣ t.alignedCursor (2 ^ k) offset + offset := by
  have hd : 2 ^ k ∣ 2 ^ 64 := pow_dvd_pow 2 (Nat.le_of_lt hk)
  have hword : BitVec.ofNat 64 (2 ^ k) = BitVec.twoPow 64 k :=
    BitVec.eq_of_toNat_eq (BitVec.toNat_twoPow 64 k).symm
  have hdvd := Align.dvd_alignAllocationNoFill hk (.ofNat 64 t.cursor) (.ofNat 64 offset)
  rw [alignedCursor, hword]
  rw [BitVec.toNat_ofNat, ← Nat.modEq_zero_iff_dvd] at hdvd
  rw [← Nat.modEq_zero_iff_dvd]
  exact (((Nat.mod_modEq offset _).of_dvd hd).symm.add_left _).trans hdvd

/-- Where the end does not wrap around into the buffer, blocks are served as without a bound. -/
theorem allocate_eq (hc : t.cursor < 2 ^ 64) (hl : t.limit < 2 ^ 64)
    (hw : ¬ t.Wraps conv size alignment offset) :
    t.allocate conv size alignment offset =
      if t.limit < t.blockEnd conv size alignment offset then (0, t)
      else (t.alignedCursor alignment offset,
        { t with
          cursor := t.alignedCursor alignment offset + conv.rawAlignUp size alignment }) := by
  have hlt : t.alignedCursor alignment offset < 2 ^ 64 := alignedCursor_lt
  unfold Wraps at hw
  unfold allocate
  dsimp only
  have hend : (t.alignedCursor alignment offset + conv.rawAlignUp size alignment) % 2 ^ 64 =
      t.blockEnd conv size alignment offset % 2 ^ 64 := by
    unfold blockEnd
    omega
  rw [hend]
  split_ifs with hlimit hend' hend'
  · rfl
  · omega
  · omega
  · have hsum : t.blockEnd conv size alignment offset =
        t.alignedCursor alignment offset + conv.rawAlignUp size alignment := by
      unfold blockEnd at hend' ⊢
      omega
    rw [Nat.mod_eq_of_lt (by omega), hsum]

theorem le_alignedCursor (hc : t.cursor < 2 ^ 64)
    (h : t.blockEnd conv size alignment offset < 2 ^ 64) :
    t.cursor ≤ t.alignedCursor alignment offset ∧ t.blockEnd conv size alignment offset =
      t.alignedCursor alignment offset + conv.rawAlignUp size alignment := by
  have hlt : t.alignedCursor alignment offset < 2 ^ 64 := alignedCursor_lt
  unfold blockEnd at h ⊢
  omega

theorem Valid.ok (h : t.Valid selector) : t.Ok := by
  rcases h with rfl | ⟨-, hc, hl, -⟩
  · exact ok_new
  · exact .inr ⟨hc, hl⟩

theorem Valid.eq_new (h : t.Valid selector) (hc : t.cursor = 0) : t = new := by
  rcases h with h | ⟨-, hpos, -⟩
  · exact h
  · omega

theorem Valid.limit_lt (h : t.Valid selector) : t.limit < 2 ^ 64 := by
  rcases h with rfl | ⟨-, -, -, hlt⟩
  · exact Nat.two_pow_pos 64
  · exact hlt

theorem Valid.cursor_lt (h : t.Valid selector) : t.cursor < 2 ^ 64 := by
  rcases h with rfl | ⟨-, -, hl, hlt⟩
  · exact Nat.two_pow_pos 64
  · exact hl.trans_lt hlt

/-- A block comes from the front of the buffer, and a failed call changes nothing. -/
theorem Valid.allocate_spec (h : t.Valid selector) (hw : ¬ t.Wraps conv size alignment offset) :
    (t.allocate conv size alignment offset).1 = 0 ∧ (t.allocate conv size alignment offset).2 = t ∨
    0 < (t.allocate conv size alignment offset).1 ∧
      t.cursor ≤ (t.allocate conv size alignment offset).1 ∧
      (t.allocate conv size alignment offset).2 =
        ⟨(t.allocate conv size alignment offset).1 + conv.rawAlignUp size alignment, t.limit⟩ ∧
      (t.allocate conv size alignment offset).1 + conv.rawAlignUp size alignment ≤ t.limit := by
  have hl := h.limit_lt
  rw [allocate_eq h.cursor_lt hl hw]
  split
  · exact .inl ⟨rfl, rfl⟩
  · next hlimit =>
    have hend : t.blockEnd conv size alignment offset < 2 ^ 64 := by omega
    obtain ⟨hle, hsum⟩ := le_alignedCursor h.cursor_lt hend
    rcases h.ok with ⟨hz, hlz⟩ | ⟨hpos, -⟩
    · have hresult : t.alignedCursor alignment offset = 0 := by omega
      have hsize : conv.rawAlignUp size alignment = 0 := by omega
      refine .inl ⟨hresult, ?_⟩
      rw [hresult, hsize, Nat.add_zero, ← hz]
    · exact .inr ⟨by dsimp only; omega, hle, rfl, by dsimp only; omega⟩

/-- The assertions of `flush_tlab` hold of what a buffer holds. -/
theorem Valid.giveBack (h : t.Valid selector) : giveBack selector bump t.cursor t.limit =
    some (if t.cursor = 0 then bump else t) := by
  unfold TLAB.giveBack
  rcases h with rfl | ⟨hb, hc, -⟩
  · rfl
  · have hc : t.cursor ≠ 0 := Nat.pos_iff_ne_zero.mp hc
    simp [hc, hb]

end TLAB

end VmkitCore
