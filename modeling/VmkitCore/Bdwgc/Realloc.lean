import VmkitCore.Bdwgc.SizeQueries

/-! # Reallocation

`GC_realloc` copies as many bytes as the new object has, whatever the size of the old one.
-/

namespace VmkitCore.ObjectSizes

open Allocation ObjectReferences
open Descriptors (ObjectKind)

/-- The memory after the call, the new block, and the bytes that were read on the way. -/
structure Reallocated where
  block : Region
  memory : ByteMemory
  reads : List Region

/-- `GC_malloc_atomic` or `GC_malloc` -/
def Malloc.ofAtomic (isAtomic : Bool) : Malloc := if isAtomic then .mallocAtomic else .malloc

section Source

variable (bits : Bitfields) (vm : VirtualMachine) (conv : UsizeConversions) (alloc : Request → ℕ)
  (t : Thread) (m : ByteMemory)

/-- `BDWGCMetadata::is_atomic` -/
def isAtomic (metadata : ℕ) : Bool := bits.read (sizeBits + kindBits) 1 metadata ≠ 0

def gcRealloc (old size : ℕ) : Option Reallocated := do
  let header ← VMKitObject.metadata vm m ⟨old⟩
  let (b, m) ← (Malloc.ofAtomic (isAtomic bits header)).call bits conv alloc t m size
  some {
    block := b
    memory := m.copy old (object b) size
    reads := [⟨old - objectRefOffset, old⟩, ⟨old, old + size⟩] }

end Source

variable {bits : Bitfields} {conv : UsizeConversions} {alloc : Request → ℕ} {t : Thread}
  {m m' : ByteMemory} {n : ℕ} {b : Region} {atomic : Bool}

/-- The header that each of the two functions stores. -/
def encodeHeader (bits : Bitfields) (n : ℕ) (atomic : Bool) : Option ℕ := do
  let size ← encodeSize bits (n / minAlignment)
  if atomic then
    some (size ||| (← encodeKind bits .composite) ||| (← encodeIsAtomic bits true))
  else some size

theorem call_eq_some : (Malloc.ofAtomic atomic).call bits conv alloc t m n = some (b, m') ↔
    ∃ w, encodeHeader bits n atomic = some w ∧ b = allocate conv alloc t n (2 ^ 3) .default ∧
      m' = m.store b.start headerBytes w := by
  have hcall : (Malloc.ofAtomic atomic).call bits conv alloc t m n =
      (encodeHeader bits n atomic).map fun w => allocateWith conv alloc t m n w .default := by
    cases atomic
    · cases h : encodeSize bits (n / minAlignment) <;>
        simp [Malloc.ofAtomic, Malloc.call, gcMalloc, encodeHeader, h]
    · cases h : encodeSize bits (n / minAlignment) <;> cases hk : encodeKind bits .composite <;>
        cases ha : encodeIsAtomic bits true <;>
        simp [Malloc.ofAtomic, Malloc.call, gcMallocAtomic, encodeHeader, h, hk, ha]
  rw [hcall, Option.map_eq_some_iff]
  exact exists_congr fun w => and_congr_right fun _ => allocateWith_eq

/-- The size leaves the other bits zero, and the atomic bit tells the two functions apart. -/
theorem encodeHeader_spec {w : ℕ} (hbits : bits.Truncates)
    (h : encodeHeader bits n atomic = some w) : w < 2 ^ 62 ∧ isAtomic bits w = atomic := by
  obtain ⟨size, hsize, h⟩ := Option.bind_eq_some_iff.mp h
  have hlt : size < 2 ^ 37 := by
    rw [hbits hsize, pow_zero, mul_one]
    exact Nat.mod_lt _ (by decide)
  have hzero : bits.read (sizeBits + kindBits) 1 size = 0 :=
    bits.read_of_lt (hlt.trans (by decide))
  cases atomic with
  | false =>
    obtain rfl := Option.some.inj h
    refine ⟨hlt.trans (by decide), ?_⟩
    rw [isAtomic, hzero]
    rfl
  | true =>
    obtain ⟨k, hk, h⟩ := Option.bind_eq_some_iff.mp h
    obtain ⟨a, ha, h⟩ := Option.bind_eq_some_iff.mp h
    obtain rfl : k = 0 := hbits hk
    obtain rfl : a = 2 ^ 43 := hbits ha
    obtain rfl := Option.some.inj h
    rw [Nat.or_zero]
    refine ⟨Nat.or_lt_two_pow (hlt.trans (by decide)) (by decide), ?_⟩
    have hone : bits.read (sizeBits + kindBits) 1 (2 ^ 43) = 1 :=
      bits.read_shifted (v := 1) (by decide)
    rw [isAtomic, bits.read_or, hzero, hone]
    rfl

section Realloc

variable {conv' : Conversions} {addressBasedHashing : Bool} {alloc' : Request → ℕ} {t' : Thread}
  {heap heap' : ByteMemory} {request size w : ℕ} {r : Reallocated}

/-- The result has the atomicity and the first bytes of the old object; only its block counts. -/
structure Reallocates (bits : Bitfields) (vm : VirtualMachine) (conv : UsizeConversions)
    (alloc : Request → ℕ) (t : Thread) (heap : ByteMemory) (b : Region) (request size : ℕ)
    (atomic : Bool) (r : Reallocated) : Prop where
  reads : ∀ window ∈ r.reads, window.Inside b
  atomic : (VMKitObject.metadata vm r.memory ⟨object r.block⟩).map (isAtomic bits) = some atomic
  bytes : ∀ i < min request size, r.memory (object r.block + i) = heap (object b + i)
  independent : ∀ heap', (∀ x, b.Has x → heap' x = heap x) →
    ∃ r', gcRealloc bits vm conv alloc t heap' (object b) size = some r' ∧ r'.block = r.block ∧
      ∀ x, (Region.mk r.block.start (object r.block + size)).Has x → r'.memory x = r.memory x

/-- The result, given what the header of the old object says. -/
theorem gcRealloc_eq_some
    (hmeta : VMKitObject.metadata (bdwgc bits conv' addressBasedHashing) heap ⟨object b⟩ = some w) :
    gcRealloc bits (bdwgc bits conv' addressBasedHashing) conv alloc t heap (object b) size =
        some r ↔
      ∃ b' w', encodeHeader bits size (isAtomic bits w) = some w' ∧
        b' = allocate conv alloc t size (2 ^ 3) .default ∧
        r = ⟨b', (heap.store b'.start headerBytes w').copy (object b) (object b') size,
          [⟨object b - objectRefOffset, object b⟩, ⟨object b, object b + size⟩]⟩ := by
  simp only [gcRealloc, hmeta, Option.bind_eq_bind, Option.bind_some, Option.bind_eq_some_iff,
    Option.some.injEq, Prod.exists, call_eq_some]
  constructor
  · rintro ⟨b', _, ⟨w', hw', hb', rfl⟩, rfl⟩
    exact ⟨b', w', hw', hb', rfl⟩
  · rintro ⟨b', w', hw', hb', rfl⟩
    exact ⟨b', _, ⟨w', hw', hb', rfl⟩, rfl⟩

/-- The header of a live object is what tells its atomicity. -/
theorem metadata_congr {o : VMKitObject} {vm : VirtualMachine}
    (h : ∀ x, o.address - objectRefOffset ≤ x → x < o.address - objectRefOffset + headerBytes →
      heap' x = heap x) : o.metadata vm heap' = o.metadata vm heap := by
  have hload : heap'.load (o.address - objectRefOffset) headerBytes =
      heap.load (o.address - objectRefOffset) headerBytes :=
    ByteMemory.load_congr fun i hi => h _ (Nat.le_add_right _ _) (Nat.add_lt_add_left hi _)
  unfold VMKitObject.metadata VMKitObject.header
  split <;> simp [hload]

/-- The copy leaves the new header alone. -/
theorem metadata_copy {b' : Region} {vm : VirtualMachine} {src : ℕ}
    (hb' : b'.start + objectRefOffset < 2 ^ 64) :
    VMKitObject.metadata vm (heap.copy src (object b') size) ⟨object b'⟩ =
      VMKitObject.metadata vm heap ⟨object b'⟩ := by
  have hobject := object_eq hb'
  refine metadata_congr fun x _ hx => ByteMemory.copy_apply_outside (.inr ?_)
  simp only [hobject, objectRefOffset, headerBytes] at *
  omega

/-- Outside the new header, the bytes of the new object are those of the old one. -/
theorem copied_byte {b' : Region} (hfits : Fits b size) (hb : b.start + objectRefOffset < 2 ^ 64)
    (hfresh : (Region.mk b'.start (b'.start + headerBytes)).Apart b) {i : ℕ} (hi : i < size) :
    (heap.store b'.start headerBytes w).copy (object b) (object b') size (object b' + i) =
      heap (object b + i) := by
  have hobject := object_eq hb
  rw [ByteMemory.copy_apply_inside hi]
  refine ByteMemory.store_apply_outside ?_
  simp only [Region.Apart, Fits, ByteMemory.Disjoint, hobject] at *
  omega

theorem fits_of_reads (hb : b.start + objectRefOffset < 2 ^ 64)
    (h : Reallocates bits (bdwgc bits conv' addressBasedHashing) conv alloc t heap b request size
      atomic r)
    (hr : gcRealloc bits (bdwgc bits conv' addressBasedHashing) conv alloc t heap (object b) size =
      some r) (hmeta : VMKitObject.metadata (bdwgc bits conv' addressBasedHashing) heap ⟨object b⟩ =
      some w) : Fits b size := by
  obtain ⟨b', w', -, -, rfl⟩ := (gcRealloc_eq_some hmeta).mp hr
  exact (inside_iff_fits hb).mp (h.reads _ (List.mem_cons_of_mem _ List.mem_cons_self))

theorem reallocates_of_fits (hbits : bits.Truncates) (hb : b.start + objectRefOffset < 2 ^ 64)
    (hfits : Fits b size)
    (hmeta : VMKitObject.metadata (bdwgc bits conv' addressBasedHashing) heap ⟨object b⟩ = some w)
    (hr : gcRealloc bits (bdwgc bits conv' addressBasedHashing) conv alloc t heap (object b) size =
      some r)
    (hb' : r.block.start + objectRefOffset < 2 ^ 64)
    (hfresh : (Region.mk r.block.start (r.block.start + headerBytes)).Apart b) :
    Reallocates bits (bdwgc bits conv' addressBasedHashing) conv alloc t heap b request size
      (isAtomic bits w) r := by
  have hobject := object_eq hb
  obtain ⟨b', w', hw', hblock, rfl⟩ := (gcRealloc_eq_some hmeta).mp hr
  obtain ⟨hlt, hatomic⟩ := encodeHeader_spec hbits hw'
  refine ⟨?_, ?_, fun i hi => ?_, fun heap' hheap => ?_⟩
  · simp only [List.forall_mem_cons, List.not_mem_nil, false_implies, implies_true, and_true,
      inside_iff_fits hb, hfits]
    simp only [Region.Inside, Fits, hobject] at *
    omega
  · rw [metadata_copy hb', metadata_store hlt hb', Option.map_some, hatomic]
  · exact copied_byte hfits hb hfresh (Nat.lt_of_lt_of_le hi (Nat.min_le_right _ _))
  · have hmeta' : VMKitObject.metadata (bdwgc bits conv' addressBasedHashing) heap' ⟨object b⟩ =
        some w := by
      rw [metadata_congr fun x hx hx' => hheap x ?_, hmeta]
      simp only [Region.Has, Fits, hobject, objectRefOffset, headerBytes] at *
      omega
    refine ⟨_, (gcRealloc_eq_some hmeta').mpr ⟨b', w', hw', hblock, rfl⟩, rfl, fun x hx => ?_⟩
    have hobject' := object_eq hb'
    dsimp only at hx ⊢
    rcases Nat.lt_or_ge x (object b') with hx' | hx'
    · -- in the header, which is the same number
      rw [ByteMemory.copy_apply_outside (.inr hx'), ByteMemory.copy_apply_outside (.inr hx')]
      have hin : b'.start ≤ x ∧ x < b'.start + headerBytes := ⟨hx.1, hobject' ▸ hx'⟩
      simp only [ByteMemory.store, hin, and_self, if_true]
    · obtain ⟨i, rfl⟩ := Nat.exists_eq_add_of_le hx'
      have hi : i < size := Nat.lt_of_add_lt_add_left hx.2
      rw [copied_byte hfits hb hfresh hi, copied_byte hfits hb hfresh hi]
      refine hheap _ ?_
      simp only [Region.Has, Fits, hobject] at *
      omega

/--
Reallocation keeps to the old block exactly if the new size fits in there: it copies the new
size, and never looks at the old one.
-/
theorem gcRealloc_confined_iff (hbits : bits.Truncates)
    (h : (Malloc.ofAtomic atomic).call bits conv alloc t m request = some (b, m'))
    (hb : b.start + objectRefOffset < 2 ^ 64)
    (hmeta : VMKitObject.metadata (bdwgc bits conv' addressBasedHashing) heap ⟨object b⟩ =
      VMKitObject.metadata (bdwgc bits conv' addressBasedHashing) m' ⟨object b⟩)
    (hr : gcRealloc bits (bdwgc bits conv' addressBasedHashing) conv alloc' t' heap (object b)
      size = some r)
    (hb' : r.block.start + objectRefOffset < 2 ^ 64)
    (hfresh : (Region.mk r.block.start (r.block.start + headerBytes)).Apart b) :
    Reallocates bits (bdwgc bits conv' addressBasedHashing) conv alloc' t' heap b request size
        atomic r ↔
      size + headerBytes ≤ blockSize conv request (2 ^ 3) ∧
        ¬ (Fast t request .default ∧ EndWraps t.tlab (blockSize conv request (2 ^ 3)) 3) := by
  obtain ⟨w, hw, hblock, rfl⟩ := call_eq_some.mp h
  obtain ⟨hlt, rfl⟩ := encodeHeader_spec hbits hw
  rw [metadata_store hlt hb] at hmeta
  rw [← fits_allocate_iff_blockSize (by decide), ← hblock]
  exact ⟨fun hre => fits_of_reads hb hre hr hmeta,
    fun hfits => reallocates_of_fits hbits hb hfits hmeta hr hb' hfresh⟩

/-- The thread after a block of three words from the page. -/
def nextThread : Thread := ⟨⟨4120, 8192⟩, .tlab, 2 ^ 15⟩

/-- Memory with the given header in the first block of the page. -/
def headerAtPage (w : ℕ) : ByteMemory := ByteMemory.store (fun _ => 0) 4096 headerBytes w

/-- An atomic object of two words becomes one of one word. -/
theorem gcRealloc_confined_shrink : ∃ r,
    gcRealloc .masks (bdwgc .masks .byDivision true) Conversions.byDivision.usize secondPage
      nextThread (headerAtPage (2 ^ 43 + 2)) (object ⟨4096, 4120⟩) 8 = some r ∧
    Reallocates .masks (bdwgc .masks .byDivision true) Conversions.byDivision.usize secondPage
      nextThread (headerAtPage (2 ^ 43 + 2)) ⟨4096, 4120⟩ 16 8 true r := by
  have hcall : (Malloc.ofAtomic true).call .masks Conversions.byDivision.usize secondPage pageThread
      (fun _ => 0) 16 = some (⟨4096, 4120⟩, headerAtPage (2 ^ 43 + 2)) := rfl
  have hmeta : VMKitObject.metadata (bdwgc .masks .byDivision true) (headerAtPage (2 ^ 43 + 2))
      ⟨object ⟨4096, 4120⟩⟩ = some (2 ^ 43 + 2) := metadata_store (by decide) (by decide)
  have hr : gcRealloc .masks (bdwgc .masks .byDivision true) Conversions.byDivision.usize secondPage
      nextThread (headerAtPage (2 ^ 43 + 2)) (object ⟨4096, 4120⟩) 8 = some ⟨⟨4120, 4136⟩, _, _⟩ :=
    (gcRealloc_eq_some hmeta).mpr ⟨_, _, rfl, rfl, rfl⟩
  refine ⟨_, hr, (gcRealloc_confined_iff Bitfields.truncates_masks hcall (by decide) rfl hr
    (by decide) (by decide)).mpr ?_⟩
  exact ⟨by decide, fun h => absurd h.2.1 (by decide)⟩

/-- Growing from one word to two reads past the block. -/
theorem gcRealloc_overreads : ¬ ∀ (bits : Bitfields) (conv : Conversions)
    (alloc alloc' : Request → ℕ) (t t' : Thread) (m m' heap : ByteMemory) (request size : ℕ)
    (atomic : Bool) (b : Region) (r : Reallocated), bits.Truncates →
    (Malloc.ofAtomic atomic).call bits conv.usize alloc t m request = some (b, m') →
    b.start + objectRefOffset < 2 ^ 64 →
    VMKitObject.metadata (bdwgc bits conv true) heap ⟨object b⟩ =
      VMKitObject.metadata (bdwgc bits conv true) m' ⟨object b⟩ →
    gcRealloc bits (bdwgc bits conv true) conv.usize alloc' t' heap (object b) size = some r →
    r.block.start + objectRefOffset < 2 ^ 64 → r.block.Apart b →
    Reallocates bits (bdwgc bits conv true) conv.usize alloc' t' heap b request size atomic r := by
  intro h
  have hcall : (Malloc.ofAtomic false).call .masks Conversions.byDivision.usize secondPage
      pageThread (fun _ => 0) 8 = some (⟨4096, 4112⟩, headerAtPage 1) := rfl
  have hmeta : VMKitObject.metadata (bdwgc .masks .byDivision true) (headerAtPage 1)
      ⟨object ⟨4096, 4112⟩⟩ = some 1 := metadata_store (by decide) (by decide)
  have hr : gcRealloc .masks (bdwgc .masks .byDivision true) Conversions.byDivision.usize secondPage
      nextThread (headerAtPage 1) (object ⟨4096, 4112⟩) 16 = some ⟨⟨4120, 4144⟩, _, _⟩ :=
    (gcRealloc_eq_some hmeta).mpr ⟨_, _, rfl, rfl, rfl⟩
  have hre := h .masks .byDivision secondPage secondPage pageThread nextThread (fun _ => 0) _ _ 8 16
    false ⟨4096, 4112⟩ _ Bitfields.truncates_masks hcall (by decide) rfl hr (by decide) (by decide)
  exact absurd (fits_of_reads (by decide) hre hr hmeta) (by decide)

end Realloc

end VmkitCore.ObjectSizes
