import Mathlib.Data.BitVec
import Mathlib.Data.Nat.Bitwise
import Mathlib.Data.Nat.ModEq
import Mathlib.Tactic.LinearCombination
import Mathlib.Tactic.Ring

/-! # Alignment with an offset

Three helpers take an alignment and an offset. Allocation and `round_up` look for an address
whose sum with the offset is aligned; `is_aligned` compares the offset with the low bits of
the address itself.
-/

namespace VmkitCore.Align

/-- `isize` and `usize` have the same bits, and the arithmetic on them wraps around. -/
abbrev Word := BitVec 64

section Source

variable (x align region alignment offset : Word)

def roundDown : Word := x &&& -align

def roundUp : Word := roundDown (x + align - 1 + offset) align - offset

def isAligned : Bool := x &&& (alignment - 1) = offset

/-- What `align_allocation_inner` returns, whether it fills the gap or not. -/
def alignAllocationInner : Word :=
  let mask := alignment - 1
  let negOff := -offset
  let delta := (negOff - region) &&& mask
  region + delta

def alignAllocationNoFill : Word := alignAllocationInner region alignment offset

end Source

/-- The least address from `region` on whose sum with the offset is aligned. -/
structure LeastAligned (region alignment offset r : ℕ) : Prop where
  le : region ≤ r
  dvd : alignment ∣ r + offset
  least : ∀ w, region ≤ w → alignment ∣ w + offset → r ≤ w

/-- The first of the multiples is less than one alignment away. -/
theorem LeastAligned.of_lt {region alignment offset r : ℕ} (hle : region ≤ r)
    (hd : alignment ∣ r + offset) (hlt : r < region + alignment) :
    LeastAligned region alignment offset r := by
  refine ⟨hle, hd, fun w hw hdw => ?_⟩
  have hsub : alignment ∣ r + offset - (w + offset) := Nat.dvd_sub hd hdw
  rw [Nat.add_sub_add_right] at hsub
  exact Nat.sub_eq_zero_iff_le.mp (Nat.eq_zero_of_dvd_of_lt hsub (by omega))

section Masks

variable {k : ℕ} {x region offset : Word}

theorem toNat_mask (hk : k < 64) : (BitVec.twoPow 64 k - 1).toNat = 2 ^ k - 1 := by
  have hle : (1 : Word) ≤ BitVec.twoPow 64 k := by
    rw [BitVec.le_def, BitVec.toNat_twoPow_of_lt hk]
    exact Nat.one_le_two_pow
  rw [BitVec.toNat_sub_of_le hle, BitVec.toNat_twoPow_of_lt hk]
  rfl

theorem toNat_and_mask (hk : k < 64) (x : Word) :
    (x &&& (BitVec.twoPow 64 k - 1)).toNat = x.toNat % 2 ^ k := by
  rw [BitVec.toNat_and, toNat_mask hk, Nat.and_two_pow_sub_one_eq_mod]

/-- The low bits do not change when a multiple of the alignment is added. -/
theorem add_twoPow_and_mask (hk : k < 64) (x : Word) :
    (x + BitVec.twoPow 64 k) &&& (BitVec.twoPow 64 k - 1) = x &&& (BitVec.twoPow 64 k - 1) := by
  apply BitVec.eq_of_toNat_eq
  rw [toNat_and_mask hk, toNat_and_mask hk, BitVec.toNat_add, BitVec.toNat_twoPow_of_lt hk,
    Nat.mod_mod_of_dvd _ (pow_dvd_pow 2 (Nat.le_of_lt hk)), Nat.add_mod_right]

theorem not_eq (x : Word) : ~~~x = -x - 1 := BitVec.not_eq_neg_add x

theorem and_add_and_not (x m : Word) : (x &&& m) + (x &&& ~~~m) = x := by
  have hz : (x &&& m) &&& (x &&& ~~~m) = 0#64 := by
    ext i
    cases hm : m[i] <;> simp [hm]
  rw [BitVec.add_eq_or_of_and_eq_zero _ _ hz]
  ext i
  simp
  cases x[i] <;> simp

theorem roundDown_eq (x : Word) :
    roundDown x (BitVec.twoPow 64 k) = x - (x &&& (BitVec.twoPow 64 k - 1)) := by
  have hneg : -BitVec.twoPow 64 k = ~~~(BitVec.twoPow 64 k - 1) := by
    rw [not_eq]
    ring
  rw [roundDown, hneg]
  exact eq_sub_of_add_eq' (and_add_and_not x _)

/-- The distance to the next multiple and the rest beyond it make up the mask. -/
theorem alignAllocationNoFill_eq_roundUp (hk : k < 64) (region offset : Word) :
    alignAllocationNoFill region (BitVec.twoPow 64 k) offset =
      roundUp region (BitVec.twoPow 64 k) offset := by
  have hneg : -offset - region = ~~~(region + offset - 1) := by
    rw [not_eq]
    ring
  have hup : region + BitVec.twoPow 64 k - 1 + offset =
      region + offset - 1 + BitVec.twoPow 64 k := by ring
  have hmask := and_add_and_not (BitVec.twoPow 64 k - 1) (region + offset - 1)
  rw [BitVec.and_comm, BitVec.and_comm _ (~~~_)] at hmask
  simp only [alignAllocationNoFill, alignAllocationInner, roundUp, roundDown_eq, hup, hneg,
    add_twoPow_and_mask hk]
  linear_combination hmask

theorem isAligned_iff (hk : k < 64) :
    isAligned x (BitVec.twoPow 64 k) offset = true ↔ x.toNat % 2 ^ k = offset.toNat := by
  rw [isAligned, decide_eq_true_iff, ← BitVec.toNat_inj, toNat_and_mask hk]

/-- What is added to the region is less than one alignment; only the last addition wraps around. -/
theorem toNat_alignAllocationNoFill (hk : k < 64) (region offset : Word) :
    (alignAllocationNoFill region (BitVec.twoPow 64 k) offset).toNat =
      (region.toNat + (2 ^ 64 - offset.toNat + (2 ^ 64 - region.toNat)) % 2 ^ k) % 2 ^ 64 := by
  have hd : 2 ^ k ∣ 2 ^ 64 := pow_dvd_pow 2 (Nat.le_of_lt hk)
  have hdelta : (2 ^ 64 - region.toNat + (2 ^ 64 - offset.toNat) % 2 ^ 64) % 2 ^ 64 =
      (2 ^ 64 - offset.toNat + (2 ^ 64 - region.toNat)) % 2 ^ 64 := by
    omega
  rw [alignAllocationNoFill, alignAllocationInner, BitVec.toNat_add, toNat_and_mask hk,
    BitVec.toNat_sub, BitVec.toNat_neg, hdelta, Nat.mod_mod_of_dvd _ hd]

/-- Without the wrap, the result is the first of the aligned addresses. -/
theorem leastAligned_add (hk : k < 64) (region offset : Word) :
    LeastAligned region.toNat (2 ^ k) offset.toNat
      (region.toNat + (2 ^ 64 - offset.toNat + (2 ^ 64 - region.toNat)) % 2 ^ k) := by
  have hd : 2 ^ k ∣ 2 ^ 64 := pow_dvd_pow 2 (Nat.le_of_lt hk)
  have hsum : region.toNat + (2 ^ 64 - offset.toNat + (2 ^ 64 - region.toNat)) + offset.toNat =
      2 ^ 64 * 2 := by
    have := region.isLt
    have := offset.isLt
    omega
  have hdvd := hsum ▸ Dvd.dvd.mul_right hd 2
  refine .of_lt (Nat.le_add_right _ _) ?_
    (Nat.add_lt_add_left (Nat.mod_lt _ (Nat.two_pow_pos k)) _)
  rw [← Nat.modEq_zero_iff_dvd] at hdvd ⊢
  exact (((Nat.mod_modEq _ _).add_left _).add_right _).trans hdvd

/-- The sum with the offset is aligned, whether or not the result has wrapped around. -/
theorem dvd_alignAllocationNoFill (hk : k < 64) (region offset : Word) :
    2 ^ k ∣ (alignAllocationNoFill region (BitVec.twoPow 64 k) offset).toNat + offset.toNat := by
  have hd : 2 ^ k ∣ 2 ^ 64 := pow_dvd_pow 2 (Nat.le_of_lt hk)
  have hdvd := (leastAligned_add hk region offset).dvd
  rw [toNat_alignAllocationNoFill hk]
  rw [← Nat.modEq_zero_iff_dvd] at hdvd ⊢
  exact (((Nat.mod_modEq _ _).of_dvd hd).add_right _).trans hdvd

end Masks

section Agreement

variable {k : ℕ} {region offset : Word}

/-- The result is the least address of its kind, if the address space has one from `region` on. -/
theorem leastAligned_alignAllocationNoFill (hk : k < 64)
    (hroom : ∃ w < 2 ^ 64, region.toNat ≤ w ∧ 2 ^ k ∣ w + offset.toNat) :
    LeastAligned region.toNat (2 ^ k) offset.toNat
      (alignAllocationNoFill region (BitVec.twoPow 64 k) offset).toNat := by
  have hleast := leastAligned_add hk region offset
  obtain ⟨w, hw, hle, hd⟩ := hroom
  rw [toNat_alignAllocationNoFill hk, Nat.mod_eq_of_lt ((hleast.least w hle hd).trans_lt hw)]
  exact hleast

/-- The rest and the offset make up one alignment, so they are equal only if each is half of it. -/
theorem mod_eq_offset_iff {r o n : ℕ} (hn : 0 < n) (hd : n ∣ r + o) :
    r % n = o ↔ o = 0 ∨ 2 * o = n := by
  have hlt := Nat.mod_lt r hn
  have hdm : n ∣ r % n + o := by
    rwa [Nat.dvd_iff_mod_eq_zero, Nat.mod_add_mod, ← Nat.dvd_iff_mod_eq_zero]
  have hsum : o ≤ n → r % n + o = 0 ∨ r % n + o = n := fun ho =>
    or_iff_not_imp_left.mpr fun hne => Nat.eq_of_dvd_of_lt_two_mul hne hdm (by omega)
  constructor
  · intro h
    have := hsum (by omega)
    omega
  · intro h
    have := hsum (by omega)
    omega

/--
The three helpers agree exactly if the offset is zero or half of the alignment: `is_aligned`
takes the offset with the other sign.
-/
theorem align_helpers_agree_iff (hk : k < 64)
    (hroom : ∃ w < 2 ^ 64, region.toNat ≤ w ∧ 2 ^ k ∣ w + offset.toNat) :
    (LeastAligned region.toNat (2 ^ k) offset.toNat
        (alignAllocationNoFill region (BitVec.twoPow 64 k) offset).toNat ∧
      alignAllocationNoFill region (BitVec.twoPow 64 k) offset =
        roundUp region (BitVec.twoPow 64 k) offset ∧
      isAligned (alignAllocationNoFill region (BitVec.twoPow 64 k) offset) (BitVec.twoPow 64 k)
        offset = true) ↔
    offset = 0 ∨ 2 * offset.toNat = 2 ^ k := by
  have hleast := leastAligned_alignAllocationNoFill hk hroom
  rw [and_iff_right hleast, and_iff_right (alignAllocationNoFill_eq_roundUp hk _ _),
    isAligned_iff hk, mod_eq_offset_iff (Nat.two_pow_pos k) hleast.dvd, ← BitVec.toNat_inj]
  exact Iff.rfl

/-- Half of the alignment is what the reference of an object needs at sixteen bytes. -/
theorem align_helpers_agree_object :
    LeastAligned (4096 : Word).toNat (2 ^ 4) (8 : Word).toNat
      (alignAllocationNoFill 4096 (BitVec.twoPow 64 4) 8).toNat ∧
    alignAllocationNoFill 4096 (BitVec.twoPow 64 4) 8 = roundUp 4096 (BitVec.twoPow 64 4) 8 ∧
    isAligned (alignAllocationNoFill 4096 (BitVec.twoPow 64 4) 8) (BitVec.twoPow 64 4) 8 = true :=
  (align_helpers_agree_iff (by decide) ⟨4104, by decide, by decide, by decide⟩).mpr
    (.inr (by decide))

/-- At 32 bytes, the block starts 24 bytes after an aligned address, and not eight. -/
theorem isAligned_opposite_sign : ¬ ∀ (region offset : Word) (k : ℕ), k < 64 →
    (∃ w < 2 ^ 64, region.toNat ≤ w ∧ 2 ^ k ∣ w + offset.toNat) →
    LeastAligned region.toNat (2 ^ k) offset.toNat
        (alignAllocationNoFill region (BitVec.twoPow 64 k) offset).toNat ∧
      alignAllocationNoFill region (BitVec.twoPow 64 k) offset =
        roundUp region (BitVec.twoPow 64 k) offset ∧
      isAligned (alignAllocationNoFill region (BitVec.twoPow 64 k) offset) (BitVec.twoPow 64 k)
        offset = true := by
  intro h
  have hroom : ∃ w < 2 ^ 64, (4096 : Word).toNat ≤ w ∧ 2 ^ 5 ∣ w + (8 : Word).toNat :=
    ⟨4120, by decide, by decide, by decide⟩
  have haligned := (h 4096 8 5 (by decide) hroom).2.2
  exact absurd haligned (by decide)

end Agreement

end VmkitCore.Align
