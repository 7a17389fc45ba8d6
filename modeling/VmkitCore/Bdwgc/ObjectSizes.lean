import VmkitCore.Bdwgc.Descriptors
import VmkitCore.Mm.ObjectReferences

/-! # The sizes of allocated objects

The shim stores the size of an object in its header, in words, next to the kind and the
atomic bit. The collector reads it back for `bytes_used`.
-/

namespace VmkitCore

/-- Bit fields and their encodings, which may panic or lose bits if a value is too large. -/
structure Bitfields extends BitfieldContainer where
  encode : (shift size value : ℕ) → Option ℕ
  read_eq : ∀ shift size w, read shift size w = w / 2 ^ shift % 2 ^ size
  encode_of_lt : ∀ {shift size v}, shift + size ≤ 64 → v < 2 ^ size →
    encode shift size v = some (v * 2 ^ shift)
  encode_le : ∀ {shift size v w}, encode shift size v = some w → ∃ u ≤ v, w = u * 2 ^ shift

/-- Fields that shift and mask. -/
def Bitfields.masks : Bitfields where
  toBitfieldContainer := .masks
  encode shift size v := some (v % 2 ^ size * 2 ^ shift)
  read_eq _ _ _ := rfl
  encode_of_lt _ hv := by rw [Nat.mod_eq_of_lt hv]
  encode_le h := ⟨_, Nat.mod_le _ _, (Option.some.inj h).symm⟩

namespace Bitfields

variable (bits : Bitfields) {shift size w : ℕ}

theorem read_zero_of_lt (h : w < 2 ^ size) : bits.read 0 size w = w := by
  rw [bits.read_eq, pow_zero, Nat.div_one, Nat.mod_eq_of_lt h]

/-- A field above all the bits of a word reads as zero. -/
theorem read_of_lt (h : w < 2 ^ shift) : bits.read shift size w = 0 := by
  rw [bits.read_eq, Nat.div_eq_of_lt h, Nat.zero_mod]

/-- What is read at a shift comes from both of the numbers. -/
theorem read_or (u v : ℕ) :
    bits.read shift size (u ||| v) = bits.read shift size u ||| bits.read shift size v := by
  rw [bits.read_eq, bits.read_eq, bits.read_eq, Nat.or_div_two_pow, Nat.or_mod_two_pow]

theorem read_shifted {v : ℕ} (h : v < 2 ^ size) : bits.read shift size (v * 2 ^ shift) = v := by
  rw [bits.read_eq, Nat.mul_div_cancel _ (Nat.two_pow_pos _), Nat.mod_eq_of_lt h]

/-- A number that is shifted past a field leaves it zero. -/
theorem read_of_shifted {m : ℕ} (h : shift + size ≤ m) (v : ℕ) :
    bits.read shift size (v * 2 ^ m) = 0 := by
  obtain ⟨k, rfl⟩ := Nat.exists_eq_add_of_le h
  have hv : v * 2 ^ (shift + size + k) = v * 2 ^ k * 2 ^ size * 2 ^ shift := by
    rw [pow_add, pow_add]
    ring
  rw [bits.read_eq, hv, Nat.mul_div_cancel _ (Nat.two_pow_pos _), Nat.mul_mod_left]

end Bitfields

def Descriptors.ObjectKind.toBitfield : Descriptors.ObjectKind → ℕ
  | .composite => 0
  | .withDescr kind => 2 + kind

namespace ObjectSizes

open Allocation ObjectReferences
open Descriptors (ObjectKind)

def minAlignment : ℕ := 8

/-- The bits of the fields: the size takes 37, the kind six more, the atomic bit the next one. -/
def sizeBits : ℕ := 37

def kindBits : ℕ := 6

section Source

variable (bits : Bitfields)

def encodeSize (words : ℕ) : Option ℕ := bits.encode 0 sizeBits words

def encodeKind (kind : ObjectKind) : Option ℕ := bits.encode sizeBits kindBits kind.toBitfield

def encodeIsAtomic (isAtomic : Bool) : Option ℕ :=
  bits.encode (sizeBits + kindBits) 1 isAtomic.toNat

/-- `CONSERVATIVE_METADATA`, the descriptor of every object. -/
def conservativeMetadata (addressBasedHashing : Bool) : GCMetadata where
  instanceSize := 0
  computeSize := some fun m o =>
    let header := bits.read 0 (metadataBitLimit addressBasedHashing)
      (m.load (o.address - objectRefOffset) headerBytes)
    bits.read 0 sizeBits header * minAlignment
  alignment := 8
  computeAlignment := none

def bdwgc (conv : Conversions) (addressBasedHashing : Bool) : VirtualMachine where
  bitfield := bits.toBitfieldContainer
  conversions := conv
  addressBasedHashing := addressBasedHashing
  gcMetadata _ := conservativeMetadata bits addressBasedHashing
  maxAlignment := 32
  computeHashcode o := o.address

variable (conv : UsizeConversions) (alloc : Request → ℕ) (t : Thread) (m : ByteMemory)

/-- The block of the object, and the memory with its header. -/
def allocateWith (size : ℕ) (vtable : ℕ) (semantics : AllocationSemantics) : Region × ByteMemory :=
  let b := allocate conv alloc t size minAlignment semantics
  (b, m.store b.start headerBytes vtable)

def gcMalloc (size : ℕ) : Option (Region × ByteMemory) := do
  let vtable ← encodeSize bits (size / minAlignment)
  some (allocateWith conv alloc t m size vtable .default)

def gcMallocAtomic (size : ℕ) : Option (Region × ByteMemory) := do
  let vtable := (← encodeSize bits (size / minAlignment)) ||| (← encodeKind bits .composite) |||
    (← encodeIsAtomic bits true)
  some (allocateWith conv alloc t m size vtable .default)

def gcMallocUncollectable (size : ℕ) : Option (Region × ByteMemory) := do
  let vtable ← encodeSize bits (size / minAlignment)
  some (allocateWith conv alloc t m size vtable .immortal)

def gcGenericMalloc (size : ℕ) (k : ℤ) : Option (Region × ByteMemory) := do
  let vtable := (← encodeSize bits (size / minAlignment)) |||
    -- the cast to `u8` keeps the low byte
    (← encodeKind bits (.withDescr (k % 256).toNat))
  some (allocateWith conv alloc t m size vtable .default)

/-- The functions that a client asks for an object. -/
inductive Malloc
  | malloc | mallocAtomic | mallocUncollectable | genericMalloc (k : ℤ)
  deriving DecidableEq, Repr

def Malloc.call (f : Malloc) (size : ℕ) : Option (Region × ByteMemory) :=
  match f with
  | .malloc => gcMalloc bits conv alloc t m size
  | .mallocAtomic => gcMallocAtomic bits conv alloc t m size
  | .mallocUncollectable => gcMallocUncollectable bits conv alloc t m size
  | .genericMalloc k => gcGenericMalloc bits conv alloc t m size k

end Source

variable {bits : Bitfields} {conv : UsizeConversions} {alloc : Request → ℕ} {t : Thread}
  {m m' : ByteMemory} {f : Malloc} {n size k : ℕ} {semantics : AllocationSemantics} {b : Region}

theorem allocateWith_eq {w : ℕ} : allocateWith conv alloc t m n w semantics = (b, m') ↔
    b = allocate conv alloc t n minAlignment semantics ∧ m' = m.store b.start headerBytes w := by
  rw [allocateWith, Prod.mk.injEq]
  constructor
  · rintro ⟨rfl, rfl⟩
    exact ⟨rfl, rfl⟩
  · rintro ⟨rfl, rfl⟩
    exact ⟨rfl, rfl⟩

theorem gcMalloc_eq_some : gcMalloc bits conv alloc t m n = some (b, m') ↔
    ∃ w, encodeSize bits (n / minAlignment) = some w ∧
      b = allocate conv alloc t n (2 ^ 3) .default ∧ m' = m.store b.start headerBytes w := by
  rw [gcMalloc, Option.bind_eq_bind, Option.bind_eq_some_iff]
  refine exists_congr fun w => and_congr_right fun _ => ?_
  rw [Option.some.injEq, allocateWith_eq]
  exact Iff.rfl

section Sized

/-- A header word with the size in words; the bits from the hash state on are zero. -/
structure Sized (n w : ℕ) : Prop where
  words : w % 2 ^ sizeBits = n / minAlignment
  lt : w < 2 ^ 62

theorem Sized.of_encode (hn : n < 2 ^ 40) {w : ℕ}
    (h : encodeSize bits (n / minAlignment) = some w) :
    Sized n w := by
  have hlt : n / minAlignment < 2 ^ sizeBits := Nat.div_lt_of_lt_mul hn
  rw [encodeSize, bits.encode_of_lt (by decide) hlt, pow_zero, mul_one, Option.some.injEq] at h
  subst h
  exact ⟨Nat.mod_eq_of_lt hlt, hlt.trans (by decide)⟩

/-- Fields above the size leave it as it is. -/
theorem Sized.or {w u : ℕ} (h : Sized n w) (hu : 2 ^ sizeBits ∣ u ∧ u < 2 ^ 62) :
    Sized n (w ||| u) where
  words := by rw [Nat.or_mod_two_pow, Nat.mod_eq_zero_of_dvd hu.1, Nat.or_zero, h.words]
  lt := Nat.or_lt_two_pow h.lt hu.2

theorem encode_above {shift size v u : ℕ} (hs : sizeBits ≤ shift) (hv : v * 2 ^ shift < 2 ^ 62)
    (h : bits.encode shift size v = some u) : 2 ^ sizeBits ∣ u ∧ u < 2 ^ 62 := by
  obtain ⟨v', hle, rfl⟩ := bits.encode_le h
  exact ⟨Dvd.dvd.mul_left (pow_dvd_pow 2 hs) v', (Nat.mul_le_mul_right _ hle).trans_lt hv⟩

theorem encodeKind_above {kind : ObjectKind} {u : ℕ} (hk : kind.toBitfield < 2 ^ 9)
    (h : encodeKind bits kind = some u) : 2 ^ sizeBits ∣ u ∧ u < 2 ^ 62 :=
  encode_above le_rfl ((Nat.mul_lt_mul_of_pos_right hk (Nat.two_pow_pos _)).trans (by decide)) h

theorem encodeIsAtomic_above {u : ℕ} (h : encodeIsAtomic bits true = some u) :
    2 ^ sizeBits ∣ u ∧ u < 2 ^ 62 :=
  encode_above (Nat.le_add_right _ _) (by decide) h

/-- Each function stores the size in words, below what else it stores. -/
theorem call_sized (hn : n < 2 ^ 40) (h : f.call bits conv alloc t m n = some (b, m')) :
    ∃ w, Sized n w ∧ m' = m.store b.start headerBytes w := by
  cases f with
  | malloc =>
    obtain ⟨w, hw, h⟩ := Option.bind_eq_some_iff.mp h
    cases h
    exact ⟨w, .of_encode hn hw, rfl⟩
  | mallocAtomic =>
    obtain ⟨w, hw, h⟩ := Option.bind_eq_some_iff.mp h
    obtain ⟨u, hu, h⟩ := Option.bind_eq_some_iff.mp h
    obtain ⟨a, ha, h⟩ := Option.bind_eq_some_iff.mp h
    cases h
    exact ⟨_, ((Sized.of_encode hn hw).or (encodeKind_above (by decide) hu)).or
      (encodeIsAtomic_above ha), rfl⟩
  | mallocUncollectable =>
    obtain ⟨w, hw, h⟩ := Option.bind_eq_some_iff.mp h
    cases h
    exact ⟨w, .of_encode hn hw, rfl⟩
  | genericMalloc k =>
    obtain ⟨w, hw, h⟩ := Option.bind_eq_some_iff.mp h
    obtain ⟨u, hu, h⟩ := Option.bind_eq_some_iff.mp h
    cases h
    have hk : (ObjectKind.withDescr (k % 256).toNat).toBitfield < 2 ^ 9 := by
      change 2 + (k % 256).toNat < 2 ^ 9
      omega
    exact ⟨_, (Sized.of_encode hn hw).or (encodeKind_above hk hu), rfl⟩

/-- The metadata field has every bit of the word, whether objects have hash states or not. -/
theorem read_metadata {w : ℕ} (hw : w < 2 ^ 62) (addressBasedHashing : Bool) :
    bits.read 0 (metadataBitLimit addressBasedHashing) w = w := by
  have hle : 2 ^ 62 ≤ 2 ^ metadataBitLimit addressBasedHashing := by
    cases addressBasedHashing <;> decide
  exact bits.read_zero_of_lt (hw.trans_le hle)

theorem Sized.read_size {w : ℕ} (h : Sized n w) : bits.read 0 sizeBits w = n / minAlignment := by
  rw [bits.read_eq, pow_zero, Nat.div_one, h.words]

theorem rawAlignUp_of_dvd {conv : Conversions} {v : ℕ} (h : 2 ^ k ∣ v) :
    conv.rawAlignUp v (2 ^ k) = v := by
  have hle := conv.le_rawAlignUp v k
  have hlt := conv.rawAlignUp_lt v k
  have hd := Nat.eq_zero_of_dvd_of_lt (Nat.dvd_sub (conv.dvd_rawAlignUp v k) h) (by omega)
  omega

@[simp] theorem bdwgc_gcMetadata {conv : Conversions} {addressBasedHashing : Bool} {w : ℕ} :
    (bdwgc bits conv addressBasedHashing).gcMetadata w =
      conservativeMetadata bits addressBasedHashing := rfl

/-- The size read from the header, with the header itself and a stored hash on top of it. -/
theorem bytesUsed_of_metadata {conv : Conversions} {addressBasedHashing : Bool} {o : VMKitObject}
    {w : ℕ} {state : HashState} (ho : objectRefOffset ≤ o.address)
    (hmeta : o.metadata (bdwgc bits conv addressBasedHashing) m = some w)
    (hstate : o.hashState (bdwgc bits conv addressBasedHashing) m = some state) :
    o.bytesUsed (bdwgc bits conv addressBasedHashing) m =
      some (bits.read 0 sizeBits w * minAlignment + headerBytes +
        if state = .hashedAndMoved then 8 else 0) := by
  have hread : bits.read 0 (metadataBitLimit addressBasedHashing)
      (m.load (o.address - objectRefOffset) headerBytes) = w := by
    rw [VMKitObject.metadata, VMKitObject.header_eq ho] at hmeta
    exact Option.some.inj hmeta
  have hoverhead : o.hashcodeOverhead (bdwgc bits conv addressBasedHashing) m false =
      some (if state = .hashedAndMoved then 8 else 0) := by
    cases addressBasedHashing with
    | false =>
      rw [VMKitObject.hashState, VMKitObject.header_eq ho] at hstate
      cases hstate
      rfl
    | true => exact VMKitObject.hashcodeOverhead_eq rfl hstate false
  have hsize : (conservativeMetadata bits addressBasedHashing).computeSize.map
      (fun g => g m o) = some (bits.read 0 sizeBits w * minAlignment) := by
    simp only [conservativeMetadata, Option.map_some, hread]
  rw [VMKitObject.bytesUsed, VMKitObject.bytesWith, VMKitObject.gcMetadata, hmeta, hoverhead]
  simp only [Option.map_some, Option.bind_eq_bind, Option.bind_some, bdwgc_gcMetadata, hsize,
    Option.getD_some]
  have hinstance : (conservativeMetadata bits addressBasedHashing).instanceSize = 0 := rfl
  have hdvd : 2 ^ 3 ∣ (if state = .hashedAndMoved then 8 else 0) := by split <;> decide
  rw [hinstance, Nat.add_zero, Nat.add_assoc,
    Nat.add_comm (if state = .hashedAndMoved then 8 else 0)]
  exact congrArg some (rawAlignUp_of_dvd (k := 3)
    (Nat.dvd_add (Nat.dvd_add (Nat.dvd_mul_left _ _) (Nat.dvd_refl _)) hdvd))

theorem objectRefOffset_le_object (hb : b.start + objectRefOffset < 2 ^ 64) :
    objectRefOffset ≤ object b := by
  rw [object_eq hb]
  exact Nat.le_add_left _ _

/-- The word that an allocation stores is the one that the header of the object holds. -/
theorem load_header {w : ℕ} (hw : w < 2 ^ 62) (hb : b.start + objectRefOffset < 2 ^ 64) :
    (m.store b.start headerBytes w).load (object b - objectRefOffset) headerBytes = w := by
  rw [object_eq hb, Nat.add_sub_cancel]
  exact ByteMemory.load_store_of_lt m (hw.trans (by decide))

theorem metadata_store {conv : Conversions} {addressBasedHashing : Bool} {w : ℕ}
    (hw : w < 2 ^ 62) (hb : b.start + objectRefOffset < 2 ^ 64) :
    VMKitObject.metadata (bdwgc bits conv addressBasedHashing)
      (m.store b.start headerBytes w) ⟨object b⟩ = some w := by
  rw [VMKitObject.metadata, VMKitObject.header_eq (o := ⟨object b⟩) (objectRefOffset_le_object hb),
    Option.bind_eq_bind, Option.bind_some, load_header hw hb]
  exact congrArg some (read_metadata hw addressBasedHashing)

theorem hashState_store {conv : Conversions} {addressBasedHashing : Bool} {w : ℕ}
    (hw : w < 2 ^ 62) (hb : b.start + objectRefOffset < 2 ^ 64) :
    VMKitObject.hashState (bdwgc bits conv addressBasedHashing)
      (m.store b.start headerBytes w) ⟨object b⟩ = some .unhashed := by
  rw [VMKitObject.hashState, VMKitObject.header_eq (o := ⟨object b⟩) (objectRefOffset_le_object hb),
    Option.bind_eq_bind, Option.bind_some, load_header hw hb]
  cases addressBasedHashing with
  | false => rfl
  | true => exact congrArg HashState.fromBitfield (bits.read_of_lt hw)

/-- Words are rounded down on the way in, and only the header comes on top of them. -/
theorem bytesUsed_eq {conv : Conversions} {addressBasedHashing : Bool} {w : ℕ} (hw : Sized n w)
    (hb : b.start + objectRefOffset < 2 ^ 64) :
    VMKitObject.bytesUsed (bdwgc bits conv addressBasedHashing)
        (m.store b.start headerBytes w) ⟨object b⟩ =
      some (n / minAlignment * minAlignment + headerBytes) := by
  rw [bytesUsed_of_metadata (o := ⟨object b⟩) (objectRefOffset_le_object hb)
    (metadata_store hw.lt hb) (hashState_store hw.lt hb), hw.read_size]
  rfl

/--
The collector's extent covers a request exactly if it is whole words: `size / MIN_ALIGNMENT`
drops the rest, and `bytes_used` adds nothing back for it.
-/
theorem bytesUsed_covers_iff {conv : Conversions} {addressBasedHashing : Bool} (hn : n < 2 ^ 40)
    (h : f.call bits conv.usize alloc t m n = some (b, m'))
    (hb : b.start + objectRefOffset < 2 ^ 64) :
    ∃ bytes, VMKitObject.bytesUsed (bdwgc bits conv addressBasedHashing) m' ⟨object b⟩ =
      some bytes ∧ (n + headerBytes ≤ bytes ↔ minAlignment ∣ n) := by
  obtain ⟨w, hw, rfl⟩ := call_sized hn h
  refine ⟨_, bytesUsed_eq hw hb, ?_⟩
  rw [Nat.add_le_add_iff_right]
  constructor
  · intro hle
    exact Dvd.intro_left _ (le_antisymm (Nat.div_mul_le_self _ _) hle)
  · intro hd
    exact (Nat.div_mul_cancel hd).ge

/-- A thread whose buffer is the second page. -/
def pageThread : Thread := ⟨⟨4096, 8192⟩, .tlab, 2 ^ 15⟩

theorem bytesUsed_covers_iff_atomic : ∃ bytes,
    VMKitObject.bytesUsed (bdwgc .masks .byDivision true)
      (ByteMemory.store (fun _ => 0) 4096 headerBytes (2 ^ 43 + 2)) ⟨4104⟩ = some bytes ∧
    (16 + headerBytes ≤ bytes ↔ minAlignment ∣ 16) :=
  have hcall : Malloc.call .masks Conversions.byDivision.usize secondPage pageThread (fun _ => 0)
      .mallocAtomic 16 = some (⟨4096, 4120⟩, _) := rfl
  bytesUsed_covers_iff (by decide) hcall (by decide)

/-- Nine bytes are stored as one word. -/
theorem bytesUsed_short : ¬ ∀ (bits : Bitfields) (conv : Conversions) (alloc : Request → ℕ)
    (t : Thread) (m m' : ByteMemory) (f : Malloc) (n : ℕ) (b : Region), n < 2 ^ 40 →
    f.call bits conv.usize alloc t m n = some (b, m') → b.start + objectRefOffset < 2 ^ 64 →
    ∃ bytes, VMKitObject.bytesUsed (bdwgc bits conv true) m' ⟨object b⟩ = some bytes ∧
      n + headerBytes ≤ bytes := by
  intro h
  have hw : Sized 9 1 := ⟨by decide, by decide⟩
  obtain ⟨bytes, hbytes, hle⟩ := h .masks .byDivision secondPage pageThread (fun _ => 0)
    (ByteMemory.store (fun _ => 0) 4096 headerBytes 1) .malloc 9 ⟨4096, 4120⟩ (by decide) rfl
    (by decide)
  have hsixteen := hbytes.symm.trans (bytesUsed_eq (m := fun _ => 0) (b := ⟨4096, 4120⟩) hw
    (by decide))
  cases hsixteen
  exact absurd hle (by decide)

end Sized

section Payload

theorem fits_gcMalloc_iff :
    (∀ b m', gcMalloc bits conv alloc t m size = some (b, m') → Fits b size) ↔
      encodeSize bits (size / minAlignment) = none ∨ Representable size 3 ∧
        ¬ (Fast t size .default ∧ EndWraps t.tlab (blockSize conv size minAlignment) 3) := by
  have hfits : Fits (allocate conv alloc t size (2 ^ 3) .default) size ↔ _ :=
    fits_allocate_iff (by decide)
  cases hencode : encodeSize bits (size / minAlignment) with
  | none => simp [gcMalloc, hencode]
  | some w =>
    constructor
    · intro h
      exact .inr (hfits.mp (h _ _ (gcMalloc_eq_some.mpr ⟨w, hencode, rfl, rfl⟩)))
    · intro h b m' hb
      obtain ⟨-, -, rfl, -⟩ := gcMalloc_eq_some.mp hb
      exact hfits.mpr (h.resolve_left nofun)

/--
A block holds what was asked for as long as the header and the rounding leave the size below
`2 ^ 64`, and the end of the block does not wrap around in the buffer.
-/
theorem payload_fits_iff (hk : k < 64) :
    (Fits (allocate conv alloc t size (2 ^ k) semantics) size ↔ Representable size k ∧
      ¬ (Fast t size semantics ∧ EndWraps t.tlab (blockSize conv size (2 ^ k)) k)) ∧
    ((∀ b m', gcMalloc bits conv alloc t m size = some (b, m') → Fits b size) ↔
      encodeSize bits (size / minAlignment) = none ∨ Representable size 3 ∧
        ¬ (Fast t size .default ∧ EndWraps t.tlab (blockSize conv size minAlignment) 3)) :=
  ⟨fits_allocate_iff hk, fits_gcMalloc_iff⟩

theorem payload_fits_iff_word :
    Fits (allocate Conversions.byDivision.usize secondPage pageThread 8 (2 ^ 3) .default) 8 :=
  (@payload_fits_iff .masks _ _ _ (fun _ => 0) _ _ _ (by decide)).1.mpr
    ⟨by unfold Representable; decide, fun h => absurd h.2.1 (by decide)⟩

/-- The size of `-8` in a `usize` leaves nothing of the block but its address. -/
theorem payload_missing : ¬ ∀ (conv : UsizeConversions) (alloc : Request → ℕ) (t : Thread)
    (size k : ℕ) (semantics : AllocationSemantics), size < 2 ^ 64 → k < 64 →
    Fits (allocate conv alloc t size (2 ^ k) semantics) size := by
  intro h
  have hfits := h Conversions.byDivision.usize secondPage pageThread (2 ^ 64 - 8) 3 .default
    (by decide) (by decide)
  revert hfits
  decide

end Payload

end ObjectSizes

end VmkitCore
