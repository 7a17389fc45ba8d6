import Mathlib.Data.Nat.Bitwise
import VmkitCore.Lib.ByteMemory

/-! # Tables of bits

A table of bits in memory, eight to a byte. Setting a bit loads its byte, ors a mask into it
and stores it again.
-/

namespace ByteMemory

/-- Bit `i` of the byte at `x`. -/
def bit (m : ByteMemory) (x i : ℕ) : Bool := (m x).toNat.testBit i

def setBit (m : ByteMemory) (x i : ℕ) : ByteMemory :=
  Function.update m x (m x ||| 1 <<< UInt8.ofNat i)

def clearBit (m : ByteMemory) (x i : ℕ) : ByteMemory :=
  Function.update m x (m x &&& ~~~((1 : UInt8) <<< UInt8.ofNat i))

/-- Set bits one at a time. -/
def setBits (m : ByteMemory) (l : List (ℕ × ℕ)) : ByteMemory :=
  l.foldl (fun m p => m.setBit p.1 p.2) m

variable {m : ByteMemory} {x y i j : ℕ} {l : List (ℕ × ℕ)}

theorem toNat_ofNat_mod (hi : i < 8) : (UInt8.ofNat i).toNat % 8 = i := by
  have hlt : i < UInt8.size := hi.trans (by decide)
  rw [UInt8.toNat_ofNat_of_lt' hlt, Nat.mod_eq_of_lt hi]

theorem toNat_mask (hi : i < 8) : ((1 : UInt8) <<< UInt8.ofNat i).toNat = 2 ^ i := by
  have hlt : 2 ^ i < 2 ^ 8 := Nat.pow_lt_pow_right (by decide) hi
  rw [UInt8.toNat_shiftLeft, toNat_ofNat_mod hi, UInt8.toNat_one, Nat.one_shiftLeft,
    Nat.mod_eq_of_lt hlt]

theorem shiftRight_and_one {b : UInt8} (hi : i < 8) :
    (b >>> UInt8.ofNat i) &&& 1 = 1 ↔ b.toNat.testBit i = true := by
  rw [← UInt8.toNat_inj, UInt8.toNat_and, UInt8.toNat_shiftRight, toNat_ofNat_mod hi,
    UInt8.toNat_one, Nat.and_one_is_mod, Nat.shiftRight_eq_div_pow,
    Nat.testBit_eq_decide_div_mod_eq, decide_eq_true_eq]

/-- Setting a bit sets that bit, and leaves its neighbours and all other bytes as they are. -/
theorem bit_setBit (hi : i < 8) :
    (m.setBit x i).bit y j = true ↔ m.bit y j = true ∨ (y, j) = (x, i) := by
  by_cases hy : y = x
  · subst hy
    rw [bit, setBit, Function.update_self, UInt8.toNat_or, toNat_mask hi, Nat.testBit_or,
      Nat.testBit_two_pow, Bool.or_eq_true, decide_eq_true_iff, Prod.mk.injEq, eq_comm (a := i),
      and_iff_right rfl]
    rfl
  · rw [bit, setBit, Function.update_of_ne hy, Prod.mk.injEq]
    exact (or_iff_left fun h => hy h.1).symm

/-- Clearing a bit clears that bit, and leaves its neighbours and all other bytes as they are. -/
theorem bit_clearBit (hi : i < 8) (hj : j < 8) :
    (m.clearBit x i).bit y j = true ↔ m.bit y j = true ∧ ¬ (y = x ∧ j = i) := by
  by_cases hy : y = x
  · subst hy
    have hsub : UInt8.size - 1 - 2 ^ i = 2 ^ 8 - (2 ^ i + 1) := by
      rw [Nat.sub_sub, Nat.add_comm 1]
      rfl
    have hlt : 2 ^ i < 2 ^ 8 := Nat.pow_lt_pow_right (by decide) hi
    rw [bit, clearBit, Function.update_self, UInt8.toNat_and, UInt8.toNat_not, toNat_mask hi,
      Nat.testBit_and, Bool.and_eq_true, hsub, Nat.testBit_two_pow_sub_succ hlt,
      Nat.testBit_two_pow, bit]
    rw [decide_eq_true hj, Bool.true_and, Bool.not_eq_true', decide_eq_false_iff_not,
      and_iff_right rfl, eq_comm (a := i)]
  · rw [bit, clearBit, Function.update_of_ne hy]
    exact (and_iff_left fun h => hy h.1).symm

theorem bit_setBits (hl : ∀ p ∈ l, p.2 < 8) :
    (m.setBits l).bit y j = true ↔ m.bit y j = true ∨ (y, j) ∈ l := by
  induction l generalizing m with
  | nil => simp [setBits]
  | cons p l ih =>
    obtain ⟨hp, hl⟩ := List.forall_mem_cons.mp hl
    have htail : ((m.setBit p.1 p.2).setBits l).bit y j = true ↔ _ := ih hl
    rw [bit_setBit hp, or_assoc, ← List.mem_cons] at htail
    exact htail

end ByteMemory
