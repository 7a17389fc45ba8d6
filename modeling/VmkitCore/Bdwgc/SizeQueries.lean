import VmkitCore.Bdwgc.ObjectSizes

/-! # The size that a client asks for

`GC_size` answers with the size the collector uses, which counts the header in front of the
object. How far a client may read and write is decided by the block behind it.
-/

namespace VmkitCore

/-- A value that is too large for its field loses its high bits, or is refused. -/
def Bitfields.Truncates (bits : Bitfields) : Prop :=
  ∀ {shift size v w}, bits.encode shift size v = some w → w = v % 2 ^ size * 2 ^ shift

theorem Bitfields.Truncates.read {bits : Bitfields} (h : bits.Truncates) {shift size v w : ℕ}
    (hw : bits.encode shift size v = some w) : bits.read shift size w = v % 2 ^ size := by
  rw [bits.read_eq, h hw, Nat.mul_div_cancel _ (Nat.two_pow_pos _), Nat.mod_mod]

theorem Bitfields.truncates_masks : Bitfields.masks.Truncates := fun h => (Option.some.inj h).symm

namespace ObjectSizes

open Allocation ObjectReferences

/-- The search looks at most 128 bytes below the pointer. -/
def gcSize (find : (pointer limit : ℕ) → Option ℕ) (vm : VirtualMachine) (m : ByteMemory)
    (ptr : ℕ) : Option ℕ :=
  match find ptr 128 with
  | some object => VMKitObject.bytesUsed vm m ⟨object⟩
  | none => some 0

variable {bits : Bitfields} {conv : UsizeConversions} {alloc : Request → ℕ} {t : Thread}
  {m m' : ByteMemory} {n w : ℕ} {b : Region}

/-- The header word after the call is the size, and its upper bits are zero. -/
theorem encodeSize_lt (hn : n < 2 ^ 64) (h : encodeSize bits (n / minAlignment) = some w) :
    w < 2 ^ 62 := by
  obtain ⟨u, hu, rfl⟩ := bits.encode_le h
  unfold minAlignment at hu
  omega

/-- A block with room for the header and the rounding is the request rounded up. -/
theorem blockSize_spec (h : Representable n 3) :
    n + headerBytes ≤ blockSize conv n (2 ^ 3) ∧ blockSize conv n (2 ^ 3) < n + headerBytes + 8 ∧
      8 ∣ blockSize conv n (2 ^ 3) := by
  have hle : n + headerBytes ≤ blockSize conv n (2 ^ 3) := (le_blockSize_iff (by decide)).mpr h
  refine ⟨hle, ?_, conv.dvd_rawAlignUp _ (by decide)⟩
  unfold Representable headerBytes at h
  have hup := (conv.rawAlignUp_least (v := (n + headerBytes) % 2 ^ 64) (w := (n + 15) / 8 * 8)
    (k := 3) (by decide) (by unfold headerBytes; omega) (Nat.dvd_mul_left _ _) (by omega)).2
  unfold blockSize headerBytes at *
  omega

section Query

variable {conv' : Conversions} {addressBasedHashing : Bool} {state : HashState}
  {find : (pointer limit : ℕ) → Option ℕ} {heap : ByteMemory}

/-- The size in the header, with what comes on top of it in each hash state. -/
theorem bytesUsed_gcMalloc (hbits : bits.Truncates) (hn : n < 2 ^ 64)
    (h : gcMalloc bits conv alloc t m n = some (b, m'))
    (hb : b.start + objectRefOffset < 2 ^ 64)
    (hmeta : VMKitObject.metadata (bdwgc bits conv' addressBasedHashing) heap ⟨object b⟩ =
      VMKitObject.metadata (bdwgc bits conv' addressBasedHashing) m' ⟨object b⟩)
    (hstate : VMKitObject.hashState (bdwgc bits conv' addressBasedHashing) heap ⟨object b⟩ =
      some state) :
    VMKitObject.bytesUsed (bdwgc bits conv' addressBasedHashing) heap ⟨object b⟩ =
      some (n / minAlignment % 2 ^ sizeBits * minAlignment + headerBytes +
        if state = .hashedAndMoved then 8 else 0) := by
  obtain ⟨w, hw, -, rfl⟩ := gcMalloc_eq_some.mp h
  rw [metadata_store (encodeSize_lt hn hw) hb] at hmeta
  rw [← hbits.read hw]
  exact bytesUsed_of_metadata (o := ⟨object b⟩) (objectRefOffset_le_object hb) hmeta hstate

/-- The bytes from the object on are inside the block if the block holds as many. -/
theorem inside_iff_fits (hb : b.start + objectRefOffset < 2 ^ 64) {size : ℕ} :
    (Region.mk (object b) (object b + size)).Inside b ↔ Fits b size := by
  have hobject := object_eq hb
  simp only [Region.Inside, Fits, hobject, and_iff_right_iff_imp]
  exact fun _ => Nat.le_add_right _ _

/-- The size is between the request and the end of the block. -/
theorem covers_iff (hn : n < 2 ^ 64) {overhead : ℕ} (ho : overhead = 0 ∨ overhead = 8) :
    (n ≤ n / minAlignment % 2 ^ sizeBits * minAlignment + headerBytes + overhead ∧
      n / minAlignment % 2 ^ sizeBits * minAlignment + headerBytes + overhead + headerBytes ≤
        blockSize conv n (2 ^ 3)) ↔
    n < 2 ^ 40 ∧ ¬ minAlignment ∣ n ∧ overhead = 0 := by
  rcases Nat.lt_or_ge n (2 ^ 40) with hlt | hge
  · have hspec : n + headerBytes ≤ blockSize conv n (2 ^ 3) ∧ _ ∧ _ :=
      blockSize_spec (by unfold Representable headerBytes; omega)
    have hwords : n / minAlignment % 2 ^ sizeBits = n / minAlignment :=
      Nat.mod_eq_of_lt (Nat.div_lt_of_lt_mul hlt)
    generalize blockSize conv n (2 ^ 3) = size at hspec ⊢
    rw [hwords, and_iff_right hlt]
    unfold minAlignment headerBytes at *
    omega
  · -- a field of 37 bits has lost the size
    refine iff_of_false (fun hcov => ?_) fun hc => absurd hc.1 (Nat.not_lt.mpr hge)
    have hle := hcov.1
    have hlost : n / minAlignment % 2 ^ sizeBits ≤ n / minAlignment - 2 ^ 37 := by
      unfold minAlignment sizeBits
      omega
    unfold minAlignment headerBytes at *
    omega

/--
The answer covers the request and stays inside the block exactly if the rounding of the block
makes up for the header, that is if the request is not whole words. A stored hash is counted
as well, and where the search finds nothing the answer is zero.
-/
theorem gcSize_within_block_iff (hbits : bits.Truncates) (hn : n < 2 ^ 64)
    (h : gcMalloc bits conv alloc t m n = some (b, m'))
    (hb : b.start + objectRefOffset < 2 ^ 64) (hfind : ∀ r ∈ find (object b) 128, r = object b)
    (hmeta : VMKitObject.metadata (bdwgc bits conv' addressBasedHashing) heap ⟨object b⟩ =
      VMKitObject.metadata (bdwgc bits conv' addressBasedHashing) m' ⟨object b⟩)
    (hstate : VMKitObject.hashState (bdwgc bits conv' addressBasedHashing) heap ⟨object b⟩ =
      some state) :
    (∃ size, gcSize find (bdwgc bits conv' addressBasedHashing) heap (object b) = some size ∧
      n ≤ size ∧ (Region.mk (object b) (object b + size)).Inside b) ↔
    (if (find (object b) 128).isSome then
        n < 2 ^ 40 ∧ ¬ minAlignment ∣ n ∧ state ≠ .hashedAndMoved
      else n = 0) ∧
      ¬ (Fast t n .default ∧ EndWraps t.tlab (blockSize conv n (2 ^ 3)) 3) := by
  have hused := bytesUsed_gcMalloc hbits hn h hb hmeta hstate
  obtain ⟨w, -, hblock, -⟩ := gcMalloc_eq_some.mp h
  have hfits : ∀ {size}, Fits b size ↔ size + headerBytes ≤ blockSize conv n (2 ^ 3) ∧
      ¬ (Fast t n .default ∧ EndWraps t.tlab (blockSize conv n (2 ^ 3)) 3) := by
    intro size
    rw [hblock, fits_allocate_iff_blockSize (by decide)]
  simp only [inside_iff_fits hb, hfits]
  rw [gcSize]
  cases hr : find (object b) 128 with
  | none =>
    have hzero : n = 0 → headerBytes ≤ blockSize conv n (2 ^ 3) := by
      rintro rfl
      exact (Nat.le_add_left ..).trans (blockSize_spec (by unfold Representable; decide)).1
    simp only [Option.some.injEq, exists_eq_left', Option.isSome_none, Bool.false_eq_true,
      if_false, Nat.zero_add, Nat.le_zero]
    exact and_congr_right fun hn => and_iff_right (hzero hn)
  | some r =>
    obtain rfl := hfind r hr
    simp only [hused, Option.some.injEq, exists_eq_left', Option.isSome_some, if_true]
    rw [← and_assoc, covers_iff hn (by split <;> simp)]
    simp

/-- A request of nine bytes gets two words, and the answer is two words. -/
theorem gcSize_within_block_nine : ∃ size, gcSize (fun p _ => if p = 4104 then some p else none)
      (bdwgc .masks .byDivision true) (ByteMemory.store (fun _ => 0) 4096 headerBytes 1) 4104 =
        some size ∧ 9 ≤ size ∧ (Region.mk 4104 (4104 + size)).Inside ⟨4096, 4120⟩ := by
  have hcall : gcMalloc .masks Conversions.byDivision.usize secondPage pageThread (fun _ => 0) 9 =
      some (⟨4096, 4120⟩, ByteMemory.store (fun _ => 0) 4096 headerBytes 1) := rfl
  refine (gcSize_within_block_iff Bitfields.truncates_masks (by decide) hcall (by decide)
    (by decide) rfl (hashState_store (by decide) (by decide))).mpr ?_
  rw [if_pos (by decide)]
  exact ⟨by decide, fun h => absurd h.2.1 (by decide)⟩

/-- Of a request of a word, the answer is the word and the header. -/
theorem gcSize_exceeds_block : ¬ ∀ (bits : Bitfields) (conv : Conversions) (alloc : Request → ℕ)
    (t : Thread) (m m' : ByteMemory) (n : ℕ) (b : Region) (find : ℕ → ℕ → Option ℕ),
    bits.Truncates → n < 2 ^ 64 → gcMalloc bits conv.usize alloc t m n = some (b, m') →
    b.start + objectRefOffset < 2 ^ 64 → find (object b) 128 = some (object b) →
    ∃ size, gcSize find (bdwgc bits conv true) m' (object b) = some size ∧
      n ≤ size ∧ (Region.mk (object b) (object b + size)).Inside b := by
  intro h
  have hcall : gcMalloc .masks Conversions.byDivision.usize secondPage pageThread (fun _ => 0) 8 =
      some (⟨4096, 4112⟩, ByteMemory.store (fun _ => 0) 4096 headerBytes 1) := rfl
  have hused : VMKitObject.bytesUsed (bdwgc .masks .byDivision true)
      (ByteMemory.store (fun _ => 0) 4096 headerBytes 1) ⟨object ⟨4096, 4112⟩⟩ = some 16 :=
    bytesUsed_gcMalloc Bitfields.truncates_masks (by decide) hcall (by decide) rfl
      (hashState_store (by decide) (by decide))
  obtain ⟨size, hsize, -, -, hle⟩ := h .masks .byDivision secondPage pageThread (fun _ => 0) _ 8
    ⟨4096, 4112⟩ (fun p _ => some p) Bitfields.truncates_masks (by decide) hcall (by decide) rfl
  cases hsize.symm.trans hused
  revert hle
  decide

end Query

end ObjectSizes

end VmkitCore
