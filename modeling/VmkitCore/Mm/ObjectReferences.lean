import VmkitCore.Mm.Allocation

/-! # The references that allocation returns

An object starts one header word after its block. Here the paths of allocation are
followed to the block they return; what flushing and refilling do to the buffer does not matter
for it.
-/

namespace VmkitCore

namespace ObjectReferences

open Allocation

/-- What the paths read of the current thread. -/
structure Thread where
  tlab : TLAB
  allocFastpath : AllocFastPath
  maxNonLosDefaultAllocBytes : ℕ
  deriving DecidableEq, Repr

section Source

variable (conv : UsizeConversions) (alloc : Request → ℕ) (t : Thread)

/-- MMTk returns a block of the size that it was asked for. -/
def mmtkBlock (r : Request) : Region := ⟨alloc r, alloc r + r.size⟩

def allocateLos (size alignment : ℕ) : Region :=
  mmtkBlock alloc ⟨size, alignment, objectRefOffset, .los, false⟩

def allocateNonmoving (size alignment : ℕ) : Region :=
  mmtkBlock alloc ⟨size, alignment, objectRefOffset, .nonMoving, false⟩

def allocateImmortal (size alignment : ℕ) : Region :=
  mmtkBlock alloc ⟨size, alignment, objectRefOffset, .immortal, false⟩

def allocateSlow (size alignment : ℕ) (semantics : AllocationSemantics) : Region :=
  mmtkBlock alloc ⟨size, alignment, objectRefOffset, semantics, true⟩

/-- The size with a header, and the semantics for that size. -/
def withHeader (size : ℕ) (semantics : AllocationSemantics) : ℕ × AllocationSemantics :=
  let size := (size + headerBytes) % 2 ^ 64
  (size, if semantics = .default ∧ t.maxNonLosDefaultAllocBytes ≤ size then .los else semantics)

def allocateOutOfLine (size alignment : ℕ) (semantics : AllocationSemantics) : Region :=
  let (size, semantics) := withHeader t size semantics
  let size := conv.rawAlignUp size alignment
  match semantics with
  | .los => allocateLos alloc size alignment
  | .nonMoving => allocateNonmoving alloc size alignment
  | .immortal => allocateImmortal alloc size alignment
  | semantics => mmtkBlock alloc ⟨size, alignment, 0, semantics, false⟩

/-- A block of the buffer ends at its new cursor. -/
def allocate (origSize alignment : ℕ) (origSemantics : AllocationSemantics) : Region :=
  let (size, semantics) := withHeader t origSize origSemantics
  let size := conv.rawAlignUp size alignment
  if semantics = .default ∧ t.allocFastpath = .tlab then
    let served := t.tlab.allocate conv size alignment objectRefOffset
    let objectStart := served.1
    if objectStart ≠ 0 then ⟨objectStart, served.2.cursor⟩
    else allocateSlow alloc size alignment semantics
  else allocateOutOfLine conv alloc t origSize alignment origSemantics

end Source

/-- The reference to the object in a block. -/
def object (b : Region) : ℕ := (b.start + objectRefOffset) % 2 ^ 64

variable {conv : UsizeConversions} {alloc : Request → ℕ} {t : Thread} {size k : ℕ}
  {semantics : AllocationSemantics}

theorem object_eq {b : Region} (hb : b.start + objectRefOffset < 2 ^ 64) :
    object b = b.start + objectRefOffset := Nat.mod_eq_of_lt hb

/-- The size of the block, in the wrapping arithmetic. -/
def blockSize (conv : UsizeConversions) (size alignment : ℕ) : ℕ :=
  conv.rawAlignUp ((size + headerBytes) % 2 ^ 64) alignment

/-- The offset that `allocate_out_of_line` passes to MMTk. -/
def outOfLineOffset : AllocationSemantics → ℕ
  | .los | .nonMoving | .immortal => objectRefOffset
  | _ => 0

theorem allocateOutOfLine_eq {alignment : ℕ} :
    allocateOutOfLine conv alloc t size alignment semantics =
      mmtkBlock alloc ⟨blockSize conv size alignment, alignment,
        outOfLineOffset (withHeader t size semantics).2,
        (withHeader t size semantics).2, false⟩ := by
  change allocateOutOfLine conv alloc t size alignment semantics =
    mmtkBlock alloc ⟨conv.rawAlignUp (withHeader t size semantics).1 alignment, alignment, _, _, _⟩
  unfold allocateOutOfLine
  generalize withHeader t size semantics = p
  obtain ⟨n, s⟩ := p
  cases s <;> rfl

/-- The buffer serves the request. -/
def Fast (t : Thread) (size : ℕ) (semantics : AllocationSemantics) : Prop :=
  (withHeader t size semantics).2 = .default ∧ t.allocFastpath = .tlab

instance : Decidable (Fast t size semantics) := inferInstanceAs (Decidable (_ ∧ _))

theorem allocate_eq {alignment : ℕ} :
    allocate conv alloc t size alignment semantics =
      if Fast t size semantics then
        let p := t.tlab.allocate conv (blockSize conv size alignment) alignment objectRefOffset
        if p.1 ≠ 0 then ⟨p.1, p.2.cursor⟩
        else allocateSlow alloc (blockSize conv size alignment) alignment .default
      else allocateOutOfLine conv alloc t size alignment semantics := by
  by_cases hfast : Fast t size semantics
  · have hsem : (withHeader t size semantics).2 = .default := hfast.1
    simp only [allocate, if_pos hfast, hsem, hfast.2, and_self, if_true]
    rfl
  · exact (if_neg hfast).trans (if_neg hfast).symm

section Aligned

/-- What MMTk documents of `alloc` and `alloc_slow`. -/
def Aligns (alloc : Request → ℕ) : Prop :=
  ∀ r k, k < 64 → r.alignment = 2 ^ k → r.alignment ∣ alloc r + r.offset

/-- The object is in the large object space, or of a semantics with a path of its own. -/
def OwnPath (t : Thread) (size : ℕ) (semantics : AllocationSemantics) : Prop :=
  semantics = .los ∨ semantics = .nonMoving ∨ semantics = .immortal ∨
    semantics = .default ∧ t.maxNonLosDefaultAllocBytes ≤ (size + headerBytes) % 2 ^ 64

theorem outOfLineOffset_eq_iff :
    outOfLineOffset (withHeader t size semantics).2 = objectRefOffset ↔
      OwnPath t size semantics := by
  simp only [withHeader, OwnPath]
  split_ifs with h
  · exact iff_of_true rfl (.inr (.inr (.inr h)))
  · cases semantics <;> simp_all [outOfLineOffset, objectRefOffset]

theorem outOfLineOffset_eq_zero (h : ¬ OwnPath t size semantics) :
    outOfLineOffset (withHeader t size semantics).2 = 0 := by
  rw [← outOfLineOffset_eq_iff] at h
  generalize (withHeader t size semantics).2 = s at h ⊢
  cases s <;> first | rfl | exact absurd rfl h

theorem dvd_object_iff {start stop : ℕ} (hk : k < 64) :
    2 ^ k ∣ object ⟨start, stop⟩ ↔ 2 ^ k ∣ start + 8 :=
  Nat.dvd_mod_iff (pow_dvd_pow 2 (Nat.le_of_lt hk))

theorem dvd_eight_iff : 2 ^ k ∣ 8 ↔ k ≤ 3 :=
  Nat.pow_dvd_pow_iff_le_right (x := 2) (l := 3) (by decide)

/-- A block from MMTk is aligned with the offset that was asked for. -/
theorem dvd_mmtkBlock (halloc : Aligns alloc) (hk : k < 64) {size : ℕ} {slow : Bool} :
    2 ^ k ∣ object (mmtkBlock alloc ⟨size, 2 ^ k, objectRefOffset, semantics, slow⟩) :=
  (dvd_object_iff hk).mpr (halloc ⟨size, 2 ^ k, objectRefOffset, semantics, slow⟩ k hk rfl)

theorem dvd_mmtkBlock_zero (halloc : Aligns alloc) (hk : k < 64) {size : ℕ} {slow : Bool} :
    2 ^ k ∣ object (mmtkBlock alloc ⟨size, 2 ^ k, 0, semantics, slow⟩) ↔ k ≤ 3 := by
  have hz : 2 ^ k ∣ alloc ⟨size, 2 ^ k, 0, semantics, slow⟩ :=
    halloc ⟨size, 2 ^ k, 0, semantics, slow⟩ k hk rfl
  rw [mmtkBlock, dvd_object_iff hk, Nat.dvd_add_right hz, dvd_eight_iff]

theorem dvd_allocateOutOfLine_iff (halloc : Aligns alloc) (hk : k < 64) :
    2 ^ k ∣ object (allocateOutOfLine conv alloc t size (2 ^ k) semantics) ↔
      k ≤ 3 ∨ OwnPath t size semantics := by
  rw [allocateOutOfLine_eq]
  by_cases hown : OwnPath t size semantics
  · rw [outOfLineOffset_eq_iff.mpr hown]
    exact iff_of_true (dvd_mmtkBlock halloc hk) (.inr hown)
  · rw [outOfLineOffset_eq_zero hown, dvd_mmtkBlock_zero halloc hk, or_iff_left hown]

/-- A block from the buffer is aligned with the offset that was asked for. -/
theorem dvd_tlabAllocate (hk : k < 64) {tlab : TLAB} {n : ℕ}
    (hz : (tlab.allocate conv n (2 ^ k) objectRefOffset).1 ≠ 0) :
    2 ^ k ∣ (tlab.allocate conv n (2 ^ k) objectRefOffset).1 + 8 := by
  simp only [TLAB.allocate] at hz ⊢
  split_ifs at hz ⊢
  · exact absurd rfl hz
  exact TLAB.dvd_alignedCursor hk tlab objectRefOffset

theorem fast_iff : Fast t size semantics ↔
    (semantics = .default ∧ t.allocFastpath = .tlab) ∧ ¬ OwnPath t size semantics := by
  simp only [Fast, withHeader, OwnPath]
  split_ifs with h
  · exact iff_of_false (by rintro ⟨⟨⟩⟩) fun hown => hown.2 (.inr (.inr (.inr h)))
  · constructor
    · rintro ⟨rfl, hfast⟩
      exact ⟨⟨rfl, hfast⟩, by simpa using h⟩
    · exact fun hfast => hfast.1

theorem dvd_allocate_iff (halloc : Aligns alloc) (hk : k < 64) :
    2 ^ k ∣ object (allocate conv alloc t size (2 ^ k) semantics) ↔
      k ≤ 3 ∨ OwnPath t size semantics ∨ semantics = .default ∧ t.allocFastpath = .tlab := by
  rw [allocate_eq]
  by_cases hfast : Fast t size semantics
  · rw [if_pos hfast]
    refine iff_of_true ?_ (.inr (.inr (fast_iff.mp hfast).1))
    dsimp only
    split_ifs with hz
    · exact (dvd_object_iff hk).mpr (dvd_tlabAllocate hk hz)
    · exact dvd_mmtkBlock halloc hk
  · rw [if_neg hfast, dvd_allocateOutOfLine_iff halloc hk]
    rw [fast_iff] at hfast
    tauto

/--
The reference is aligned in the offset the path passes: small alignments divide the header word,
and only the last arm of `allocate_out_of_line` asks MMTk for an offset of zero.
-/
theorem object_aligned_iff (halloc : Aligns alloc) (hk : k < 64) :
    (2 ^ k ∣ object (allocate conv alloc t size (2 ^ k) semantics) ↔
      k ≤ 3 ∨ OwnPath t size semantics ∨ semantics = .default ∧ t.allocFastpath = .tlab) ∧
    (2 ^ k ∣ object (allocateOutOfLine conv alloc t size (2 ^ k) semantics) ↔
      k ≤ 3 ∨ OwnPath t size semantics) :=
  ⟨dvd_allocate_iff halloc hk, dvd_allocateOutOfLine_iff halloc hk⟩

/-- MMTk that takes the least such address from the second page on. -/
def secondPage (r : Request) : ℕ :=
  Conversions.byDivision.rawAlignUp (4096 + r.offset) r.alignment - r.offset

theorem aligns_secondPage : Aligns secondPage := by
  intro r k _ hr
  have hle := Conversions.byDivision.le_rawAlignUp (4096 + r.offset) k
  rw [secondPage, hr, Nat.sub_add_cancel (by omega)]
  exact Conversions.byDivision.dvd_rawAlignUp (4096 + r.offset) k

theorem object_aligned_iff_freeList :
    2 ^ 4 ∣ object (allocate Conversions.byDivision.usize secondPage ⟨⟨0, 0⟩, .freeList, 2 ^ 15⟩ 8
      (2 ^ 4) .nonMoving) :=
  (object_aligned_iff aligns_secondPage (by decide)).1.mpr (.inr (.inl (.inr (.inl rfl))))

/-- A free list serves the default semantics through the arm that passes no offset. -/
theorem object_misaligned :
    ¬ ∀ (conv : UsizeConversions) (alloc : Request → ℕ) (t : Thread) (size k : ℕ)
      (semantics : AllocationSemantics), Aligns alloc → 3 ≤ k → k ≤ 5 →
      2 ^ k ∣ object (allocate conv alloc t size (2 ^ k) semantics) ∧
      2 ^ k ∣ object (allocateOutOfLine conv alloc t size (2 ^ k) semantics) := by
  intro h
  have h16 := (h Conversions.byDivision.usize secondPage ⟨⟨0, 0⟩, .freeList, 2 ^ 15⟩ 8 4 .default
    aligns_secondPage (by decide) (by decide)).1
  revert h16
  decide

end Aligned

section Sized

/-- The block holds as many bytes after the reference. -/
def Fits (b : Region) (size : ℕ) : Prop := b.start + objectRefOffset + size ≤ b.stop

instance {b : Region} {size : ℕ} : Decidable (Fits b size) := inferInstanceAs (Decidable (_ ≤ _))

/-- A `usize` holds the size with its header, rounded up. -/
def Representable (size k : ℕ) : Prop := size + headerBytes + 2 ^ k ≤ 2 ^ 64

instance {size k : ℕ} : Decidable (Representable size k) := inferInstanceAs (Decidable (_ ≤ _))

/-- The end of a block at the aligned cursor wraps around and lands below the limit. -/
def EndWraps (tlab : TLAB) (n k : ℕ) : Prop :=
  let stop := tlab.alignedCursor (2 ^ k) objectRefOffset + n
  2 ^ 64 ≤ stop ∧ stop ≤ 2 ^ 64 + tlab.limit

/-- Rounding in a `usize` reaches the size with its header if one more alignment fits above it. -/
theorem le_blockSize_iff (hk : k < 64) :
    size + headerBytes ≤ blockSize conv size (2 ^ k) ↔ Representable size k := by
  have hd64 : 2 ^ k ∣ 2 ^ 64 := pow_dvd_pow 2 (Nat.le_of_lt hk)
  have hlt64 : 2 ^ k < 2 ^ 64 := Nat.pow_lt_pow_right (by decide) hk
  constructor
  · intro hle
    unfold blockSize at hle
    have hlt := conv.rawAlignUp_lt ((size + headerBytes) % 2 ^ 64) k
    have hd := Nat.dvd_sub hd64 (conv.dvd_rawAlignUp ((size + headerBytes) % 2 ^ 64) hk)
    have hgap := Nat.le_of_dvd (by omega) hd
    unfold Representable
    omega
  · intro h
    have hpos := Nat.two_pow_pos k
    unfold Representable at h
    rw [blockSize, Nat.mod_eq_of_lt (by omega)]
    exact (conv.rawAlignUp_least hk (by omega) (Nat.dvd_sub hd64 (Nat.dvd_refl _))
      (Nat.sub_lt (Nat.two_pow_pos 64) hpos)).1

theorem blockSize_lt (size : ℕ) : blockSize conv size (2 ^ k) < 2 ^ 64 := conv.rawAlignUp_lt _ _

/-- The buffer rounds up once more, which leaves the size as it is. -/
theorem rawAlignUp_blockSize (hk : k < 64) (size : ℕ) :
    conv.rawAlignUp (blockSize conv size (2 ^ k)) (2 ^ k) = blockSize conv size (2 ^ k) :=
  conv.rawAlignUp_of_dvd hk (conv.dvd_rawAlignUp _ hk) (blockSize_lt size)

theorem fits_mmtkBlock_iff {r : Request} : Fits (mmtkBlock alloc r) size ↔
    size + headerBytes ≤ r.size := by
  simp only [Fits, mmtkBlock, objectRefOffset, headerBytes]
  omega

theorem fits_allocateOutOfLine_iff {n : ℕ} :
    Fits (allocateOutOfLine conv alloc t size (2 ^ k) semantics) n ↔
      n + headerBytes ≤ blockSize conv size (2 ^ k) := by
  rw [allocateOutOfLine_eq, fits_mmtkBlock_iff]

/-- A block from the buffer is as large as its size, unless its end wraps around. -/
theorem fits_tlabAllocate_iff {tlab : TLAB} {n : ℕ} (hn : n < 2 ^ 64)
    (hr : conv.rawAlignUp n (2 ^ k) = n)
    (hz : (tlab.allocate conv n (2 ^ k) objectRefOffset).1 ≠ 0) :
    Fits ⟨(tlab.allocate conv n (2 ^ k) objectRefOffset).1,
        (tlab.allocate conv n (2 ^ k) objectRefOffset).2.cursor⟩ size ↔
      size + headerBytes ≤ n ∧ ¬ EndWraps tlab n k := by
  have hlt : tlab.alignedCursor (2 ^ k) objectRefOffset < 2 ^ 64 := TLAB.alignedCursor_lt
  simp only [TLAB.allocate, hr, EndWraps] at hz ⊢
  generalize tlab.alignedCursor (2 ^ k) objectRefOffset = result at *
  split_ifs at hz ⊢ with hlimit
  · exact absurd rfl hz
  simp only [Fits, objectRefOffset, headerBytes]
  rcases Nat.lt_or_ge (result + n) (2 ^ 64) with hend | hend
  · rw [Nat.mod_eq_of_lt hend]
    omega
  · rw [Nat.mod_eq_sub_mod hend, Nat.mod_eq_of_lt (by omega)] at hlimit ⊢
    omega

theorem not_endWraps {tlab : TLAB} {n : ℕ} (hn : n < 2 ^ 64) (hr : conv.rawAlignUp n (2 ^ k) = n)
    (hz : (tlab.allocate conv n (2 ^ k) objectRefOffset).1 = 0) : ¬ EndWraps tlab n k := by
  have hlt : tlab.alignedCursor (2 ^ k) objectRefOffset < 2 ^ 64 := TLAB.alignedCursor_lt
  simp only [TLAB.allocate, hr, EndWraps] at hz ⊢
  generalize tlab.alignedCursor (2 ^ k) objectRefOffset = result at *
  rintro ⟨hend, hle⟩
  rw [Nat.mod_eq_sub_mod hend, Nat.mod_eq_of_lt (by omega)] at hz
  split_ifs at hz with hlimit <;> omega

/-- What a block holds, whatever it was asked for. -/
theorem fits_allocate_iff_blockSize (hk : k < 64) {s : ℕ} :
    Fits (allocate conv alloc t size (2 ^ k) semantics) s ↔
      s + headerBytes ≤ blockSize conv size (2 ^ k) ∧
        ¬ (Fast t size semantics ∧ EndWraps t.tlab (blockSize conv size (2 ^ k)) k) := by
  have hn : blockSize conv size (2 ^ k) < 2 ^ 64 := blockSize_lt size
  have hr : conv.rawAlignUp (blockSize conv size (2 ^ k)) (2 ^ k) = blockSize conv size (2 ^ k) :=
    rawAlignUp_blockSize hk size
  rw [allocate_eq]
  by_cases hfast : Fast t size semantics
  · rw [if_pos hfast, and_iff_right hfast]
    dsimp only
    split_ifs with hz
    · exact fits_tlabAllocate_iff hn hr hz
    · rw [allocateSlow, fits_mmtkBlock_iff]
      exact (and_iff_left (not_endWraps hn hr (not_not.mp hz))).symm
  · rw [if_neg hfast, fits_allocateOutOfLine_iff, and_iff_left fun h => hfast h.1]

theorem fits_allocate_iff (hk : k < 64) :
    Fits (allocate conv alloc t size (2 ^ k) semantics) size ↔ Representable size k ∧
      ¬ (Fast t size semantics ∧ EndWraps t.tlab (blockSize conv size (2 ^ k)) k) := by
  rw [fits_allocate_iff_blockSize hk, le_blockSize_iff hk]

end Sized

end ObjectReferences

end VmkitCore
