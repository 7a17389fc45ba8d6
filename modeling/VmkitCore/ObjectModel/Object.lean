import VmkitCore.ObjectModel.Header

/-! # Heap objects

An object is the address of its payload. Sizes, starts and hash codes are read
from its header word; a null reference or a bad hash-state pattern panics,
which is `none` here.
-/

namespace VmkitCore

structure VMKitObject where
  address : ℕ
  deriving DecidableEq, Repr

/-- `VMKitObject::NULL` -/
def VMKitObject.null : VMKitObject := ⟨0⟩

/-- The part of a metadata descriptor that sizes and aligns an object. -/
structure GCMetadata where
  instanceSize : ℕ
  computeSize : Option (ByteMemory → VMKitObject → ℕ)
  alignment : ℕ
  computeAlignment : Option (ByteMemory → VMKitObject → ℕ)

/-- Rounding up to a power of two, as `mmtk::util::conversions` documents it. -/
structure Conversions where
  rawAlignUp : ℕ → ℕ → ℕ
  le_rawAlignUp : ∀ v k, v ≤ rawAlignUp v (2 ^ k)
  rawAlignUp_lt : ∀ v k, rawAlignUp v (2 ^ k) < v + 2 ^ k
  dvd_rawAlignUp : ∀ v k, 2 ^ k ∣ rawAlignUp v (2 ^ k)

/-- Rounding up by division. -/
def Conversions.byDivision : Conversions where
  rawAlignUp v a := (v + a - 1) / a * a
  le_rawAlignUp v k := by
    have hp := Nat.two_pow_pos k
    have hm := Nat.div_add_mod' (v + 2 ^ k - 1) (2 ^ k)
    have hl := Nat.mod_lt (v + 2 ^ k - 1) hp
    omega
  rawAlignUp_lt v k := by
    have hp := Nat.two_pow_pos k
    have hm := Nat.div_add_mod' (v + 2 ^ k - 1) (2 ^ k)
    omega
  dvd_rawAlignUp _ _ := Nat.dvd_mul_left _ _

theorem Conversions.rawAlignUp_add (conv : Conversions) (v k : ℕ) :
    conv.rawAlignUp (v + 2 ^ k) (2 ^ k) = conv.rawAlignUp v (2 ^ k) + 2 ^ k := by
  have hle := conv.le_rawAlignUp v k
  have hlt := conv.rawAlignUp_lt v k
  have hle' := conv.le_rawAlignUp (v + 2 ^ k) k
  have hlt' := conv.rawAlignUp_lt (v + 2 ^ k) k
  have hd : 2 ^ k ∣ conv.rawAlignUp v (2 ^ k) + 2 ^ k :=
    Nat.dvd_add (conv.dvd_rawAlignUp v k) (Nat.dvd_refl _)
  have hd' := conv.dvd_rawAlignUp (v + 2 ^ k) k
  -- two multiples of the alignment less than one alignment apart
  apply le_antisymm
  · exact Nat.sub_eq_zero_iff_le.mp
      (Nat.eq_zero_of_dvd_of_lt (Nat.dvd_sub hd' hd) (by omega))
  · exact Nat.sub_eq_zero_iff_le.mp
      (Nat.eq_zero_of_dvd_of_lt (Nat.dvd_sub hd hd') (by omega))

/-- What the object model takes from the virtual machine, its features and its dependencies. -/
structure VirtualMachine where
  bitfield : BitfieldContainer
  conversions : Conversions
  addressBasedHashing : Bool
  gcMetadata : ℕ → GCMetadata
  maxAlignment : ℕ
  computeHashcode : VMKitObject → ℕ

/-- A machine with address-based hashing whose objects all have the same payload size. -/
def VirtualMachine.fixedSize (instanceSize : ℕ) : VirtualMachine where
  bitfield := .masks
  conversions := .byDivision
  addressBasedHashing := true
  gcMetadata _ := ⟨instanceSize, none, 8, none⟩
  maxAlignment := 16
  computeHashcode o := o.address

namespace VMKitObject

variable (vm : VirtualMachine) (m : ByteMemory) (o : VMKitObject)

/-- Address of the header word; `header` asserts that the object is not null. -/
def header : Option ℕ := if o.address = 0 then none else some (o.address - objectRefOffset)

def hashState : Option HashState := do
  let h ← o.header
  if vm.addressBasedHashing then
    HashState.fromBitfield
      (vm.bitfield.read (hashStateShift vm.addressBasedHashing) 2 (m.load h headerBytes))
  else
    some .unhashed

def setHashState (state : HashState) : Option ByteMemory := do
  let h ← o.header
  some (m.store h headerBytes (vm.bitfield.update (hashStateShift vm.addressBasedHashing) 2
    state.toBitfield (m.load h headerBytes)))

def metadata : Option ℕ := do
  let h ← o.header
  some (vm.bitfield.read 0 (metadataBitLimit vm.addressBasedHashing) (m.load h headerBytes))

def gcMetadata : Option GCMetadata := (o.metadata vm m).map vm.gcMetadata

def alignment : Option ℕ := do
  let gc ← o.gcMetadata vm m
  if gc.alignment = 0 then
    some ((gc.computeAlignment.map fun f => f m o).getD vm.maxAlignment)
  else
    some gc.alignment

def hashcodeOverhead (whenCopied : Bool) : Option ℕ := do
  if vm.addressBasedHashing then
    let state ← o.hashState vm m
    let hasHashcode := if whenCopied then state ≠ .unhashed else state = .hashedAndMoved
    some (if hasHashcode then 8 else 0)
  else
    some 0

/-- The body that `bytes_used` and `bytes_required_when_copied` share. -/
def bytesWith (whenCopied : Bool) : Option ℕ := do
  let gc ← o.gcMetadata vm m
  let overhead ← o.hashcodeOverhead vm m whenCopied
  let size := overhead + gc.instanceSize + (gc.computeSize.map fun f => f m o).getD 0
    + headerBytes
  some (vm.conversions.rawAlignUp size 8)

def bytesUsed : Option ℕ := o.bytesWith vm m false

def bytesRequiredWhenCopied : Option ℕ := o.bytesWith vm m true

def objectStart : Option ℕ := do
  let overhead ← o.hashcodeOverhead vm m false
  some (o.address - (objectRefOffset + overhead))

def getOffsetForAlignment : Option ℕ := do
  let overhead ← o.hashcodeOverhead vm m true
  some (headerBytes + overhead)

/-- The hash code and the memory after the call, which may have set the state to hashed. -/
def hashcode : Option (ℕ × ByteMemory) := do
  if vm.addressBasedHashing then
    match ← o.hashState vm m with
    | .hashedAndMoved => some (m.load (o.address - hashcodeOffset) 8, m)
    | _ => some (o.address >>> 3, ← o.setHashState vm m .hashed)
  else
    some (vm.computeHashcode o, m)

variable {vm m o}

theorem header_eq (h : objectRefOffset ≤ o.address) :
    o.header = some (o.address - objectRefOffset) := by
  unfold objectRefOffset at *
  exact if_neg (by omega)

/-- The header word in memory. -/
def headerAt (m : ByteMemory) (o : VMKitObject) : HeapObjectHeader :=
  ⟨m.load (o.address - objectRefOffset) headerBytes⟩

/-- An object works on its header in memory. -/
theorem headerAt_spec (h : objectRefOffset ≤ o.address) :
    o.hashState vm m = (o.headerAt m).hashState vm.bitfield vm.addressBasedHashing ∧
      o.metadata vm m = some ((o.headerAt m).metadata vm.bitfield vm.addressBasedHashing) ∧
      ∀ state, o.setHashState vm m state = some (m.store (o.address - objectRefOffset) headerBytes
        ((o.headerAt m).setHashState vm.bitfield vm.addressBasedHashing state).word) := by
  refine ⟨?_, ?_, fun state => ?_⟩
  · rw [hashState, HeapObjectHeader.hashState, header_eq h, headerAt]
    cases vm.addressBasedHashing <;> rfl
  · rw [metadata, header_eq h]
    rfl
  · rw [setHashState, header_eq h]
    rfl

/-- Writing the hash state sets it, keeps the metadata and touches no byte but the header's. -/
theorem setHashState_spec (ho : objectRefOffset ≤ o.address) (habh : vm.addressBasedHashing = true)
    (state : HashState) :
    ∃ m', o.setHashState vm m state = some m' ∧ o.hashState vm m' = some state ∧
      o.metadata vm m' = o.metadata vm m ∧
      ∀ x, ByteMemory.Disjoint (o.address - objectRefOffset) headerBytes x 1 → m' x = m x := by
  have hv := state.toBitfield_lt
  have hw : m.load (o.address - objectRefOffset) headerBytes < 2 ^ 64 := m.load_lt _ _
  have hl := ByteMemory.load_store_of_lt m (a := o.address - objectRefOffset) (n := headerBytes)
    (vm.bitfield.update_lt (by omega : 62 + 2 ≤ 64) hv hw)
  refine ⟨_, by rw [setHashState, header_eq ho]; rfl, ?_, ?_, ?_⟩
  · simp only [hashState, header_eq ho, habh, hashStateShift, metadataBitLimit, ↓reduceIte,
      Option.bind_eq_bind, Option.bind_some, Nat.reduceSub, hl,
      vm.bitfield.read_update_same (by omega : 62 + 2 ≤ 64) hv hw,
      HashState.fromBitfield_toBitfield]
  · simp only [metadata, header_eq ho, habh, hashStateShift, metadataBitLimit, ↓reduceIte,
      Option.bind_eq_bind, Option.bind_some, Nat.reduceSub, hl,
      vm.bitfield.read_update_other hv (by omega : 62 + 2 ≤ 0 ∨ 0 + 62 ≤ 62)]
  · intro x hx
    exact ByteMemory.store_apply_outside hx

/-- The header fields depend only on the bytes of the header word. -/
theorem hashState_congr {m' : ByteMemory} {o' : VMKitObject} (ho : objectRefOffset ≤ o.address)
    (ho' : objectRefOffset ≤ o'.address)
    (h : m.load (o.address - objectRefOffset) headerBytes =
      m'.load (o'.address - objectRefOffset) headerBytes) :
    o.hashState vm m = o'.hashState vm m' ∧ o.metadata vm m = o'.metadata vm m' := by
  simp [hashState, metadata, header_eq ho, header_eq ho', h]

theorem hashcodeOverhead_eq {state : HashState} (habh : vm.addressBasedHashing = true)
    (hs : o.hashState vm m = some state) (whenCopied : Bool) :
    o.hashcodeOverhead vm m whenCopied =
      some (if (if whenCopied then state ≠ .unhashed else state = .hashedAndMoved) then 8
        else 0) := by
  simp [hashcodeOverhead, habh, hs]

/-- A sized block holds the header and, where one is counted, the hash word. -/
theorem bytesWith_spec (ho : objectRefOffset ≤ o.address) {overhead : ℕ} {whenCopied : Bool}
    (hv : o.hashcodeOverhead vm m whenCopied = some overhead) :
    ∃ bytes, o.bytesWith vm m whenCopied = some bytes ∧ overhead + headerBytes ≤ bytes := by
  obtain ⟨bits, hb⟩ : ∃ bits, o.metadata vm m = some bits :=
    ⟨_, by rw [metadata, header_eq ho]; rfl⟩
  refine ⟨_, by rw [bytesWith, gcMetadata, hb, hv]; rfl, ?_⟩
  refine le_trans ?_ (vm.conversions.le_rawAlignUp _ 3)
  omega

end VMKitObject

end VmkitCore
