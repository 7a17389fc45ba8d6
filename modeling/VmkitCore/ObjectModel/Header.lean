import Mathlib.Data.Nat.ModEq
import VmkitCore.Lib.ByteMemory

/-! # Object headers

The header of a heap object is one word. Its low bits hold the metadata of the
virtual machine and its top bits the hash state. The bit-field container that
reads and updates the two fields comes from another crate and is a parameter,
of which only the field laws are used.
-/

namespace VmkitCore

/-- Reads and updates of `size` bits at `shift` in a 64-bit word. -/
structure BitfieldContainer where
  read : (shift size word : ℕ) → ℕ
  update : (shift size value word : ℕ) → ℕ
  read_lt : ∀ shift size w, read shift size w < 2 ^ size
  update_lt : ∀ {shift size v w}, shift + size ≤ 64 → v < 2 ^ size → w < 2 ^ 64 →
    update shift size v w < 2 ^ 64
  read_update_same : ∀ {shift size v w}, shift + size ≤ 64 → v < 2 ^ size → w < 2 ^ 64 →
    read shift size (update shift size v w) = v
  read_update_other : ∀ {shift size shift' size' v w}, v < 2 ^ size →
    shift + size ≤ shift' ∨ shift' + size' ≤ shift →
    read shift' size' (update shift size v w) = read shift' size' w

namespace BitfieldContainer

def maskRead (shift size w : ℕ) : ℕ := w / 2 ^ shift % 2 ^ size

def maskUpdate (shift size v w : ℕ) : ℕ :=
  w % 2 ^ shift + 2 ^ shift * (v + 2 ^ size * (w / 2 ^ (shift + size)))

variable {shift size shift' size' v w : ℕ}

theorem maskUpdate_div : maskUpdate shift size v w / 2 ^ shift =
    v + 2 ^ size * (w / 2 ^ (shift + size)) := by
  rw [maskUpdate, Nat.add_mul_div_left _ _ (Nat.two_pow_pos _),
    Nat.div_eq_of_lt (Nat.mod_lt _ (Nat.two_pow_pos _)), Nat.zero_add]

theorem maskUpdate_div_end (hv : v < 2 ^ size) :
    maskUpdate shift size v w / 2 ^ (shift + size) = w / 2 ^ (shift + size) := by
  rw [pow_add, ← Nat.div_div_eq_div_mul, maskUpdate_div,
    Nat.add_mul_div_left _ _ (Nat.two_pow_pos _),
    Nat.div_eq_of_lt hv, Nat.zero_add, pow_add]

theorem maskUpdate_mod : maskUpdate shift size v w % 2 ^ shift = w % 2 ^ shift := by
  rw [maskUpdate, Nat.add_mul_mod_self_left, Nat.mod_mod]

theorem maskRead_of_mod_eq {u : ℕ} (hb : shift' + size' ≤ shift)
    (h : u % 2 ^ shift = w % 2 ^ shift) : maskRead shift' size' u = maskRead shift' size' w := by
  have hd : 2 ^ (shift' + size') ∣ 2 ^ shift := pow_dvd_pow 2 hb
  have hm : u % 2 ^ (shift' + size') = w % 2 ^ (shift' + size') := by
    rw [← Nat.mod_mod_of_dvd u hd, h, Nat.mod_mod_of_dvd w hd]
  unfold maskRead
  rw [← Nat.mod_mul_right_div_self, ← Nat.mod_mul_right_div_self, ← pow_add, hm]

theorem maskRead_of_div_eq {u : ℕ} (hb : shift ≤ shift')
    (h : u / 2 ^ shift = w / 2 ^ shift) : maskRead shift' size' u = maskRead shift' size' w := by
  obtain ⟨d, rfl⟩ := Nat.exists_eq_add_of_le hb
  unfold maskRead
  rw [pow_add, ← Nat.div_div_eq_div_mul, ← Nat.div_div_eq_div_mul, h]

theorem maskUpdate_lt (hs : shift + size ≤ 64) (hv : v < 2 ^ size) (hw : w < 2 ^ 64) :
    maskUpdate shift size v w < 2 ^ 64 := by
  obtain ⟨d, hd⟩ := Nat.exists_eq_add_of_le hs
  rw [hd, pow_add] at hw ⊢
  have hq := (Nat.div_lt_iff_lt_mul (Nat.two_pow_pos _)).mpr (by rwa [mul_comm] at hw)
  have hq' : maskUpdate shift size v w / 2 ^ (shift + size) < 2 ^ d :=
    lt_of_eq_of_lt (maskUpdate_div_end hv) hq
  rw [mul_comm]
  exact (Nat.div_lt_iff_lt_mul (Nat.two_pow_pos _)).mp hq'

/-- The container that shifts and masks. -/
def masks : BitfieldContainer where
  read := maskRead
  update := maskUpdate
  read_lt _ _ _ := Nat.mod_lt _ (Nat.two_pow_pos _)
  update_lt hs hv hw := maskUpdate_lt hs hv hw
  read_update_same _ hv _ := by
    rw [maskRead, maskUpdate_div, Nat.add_mul_mod_self_left, Nat.mod_eq_of_lt hv]
  read_update_other hv h := by
    rcases h with h | h
    · exact maskRead_of_div_eq h (maskUpdate_div_end hv)
    · exact maskRead_of_mod_eq h maskUpdate_mod

end BitfieldContainer

inductive HashState | unhashed | hashed | hashedAndMoved
  deriving DecidableEq, Repr

namespace HashState

/-- The fourth bit pattern is `unreachable!()` in the source. -/
def fromBitfield : ℕ → Option HashState
  | 0 => some unhashed
  | 1 => some hashed
  | 2 => some hashedAndMoved
  | _ => none

def toBitfield : HashState → ℕ
  | unhashed => 0
  | hashed => 1
  | hashedAndMoved => 2

@[simp] theorem fromBitfield_toBitfield (s : HashState) :
    fromBitfield s.toBitfield = some s := by
  cases s <;> rfl

theorem toBitfield_lt (s : HashState) : s.toBitfield < 2 ^ 2 := by
  cases s <;> decide

end HashState

/-- Distance from the start of an unhashed object to its reference. -/
def objectRefOffset : ℕ := 8

/-- Size of the header word. -/
def headerBytes : ℕ := 8

/-- Distance from the stored hash word up to the reference. -/
def hashcodeOffset : ℕ := objectRefOffset + 8

/-- `METADATA_BIT_LIMIT`, which depends on the `address_based_hashing` feature. -/
def metadataBitLimit (addressBasedHashing : Bool) : ℕ :=
  if addressBasedHashing then 64 - 2 else 64 - 1

/-- The hash-state field starts at the next bit after the metadata field. -/
def hashStateShift (addressBasedHashing : Bool) : ℕ := metadataBitLimit addressBasedHashing

/-- The bit fields of the header word. -/
structure HeapObjectHeader where
  word : ℕ
  deriving DecidableEq, Repr

namespace HeapObjectHeader

variable (container : BitfieldContainer) (addressBasedHashing : Bool) (h : HeapObjectHeader)

/-- The first metadata is stored as it is, without a mask. -/
def new (metadata : ℕ) : HeapObjectHeader := ⟨metadata⟩

def hashState : Option HashState :=
  if ¬ addressBasedHashing then some .unhashed
  else HashState.fromBitfield (container.read (hashStateShift addressBasedHashing) 2 h.word)

def setHashState (state : HashState) : HeapObjectHeader :=
  ⟨container.update (hashStateShift addressBasedHashing) 2 state.toBitfield h.word⟩

def metadata : ℕ := container.read 0 (metadataBitLimit addressBasedHashing) h.word

def setMetadata (metadata : ℕ) : HeapObjectHeader :=
  ⟨container.update 0 (metadataBitLimit addressBasedHashing) metadata h.word⟩

end HeapObjectHeader

end VmkitCore
