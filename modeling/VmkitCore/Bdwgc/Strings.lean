import VmkitCore.Bdwgc.Realloc
import VmkitCore.Lib.Utf8Lossy

/-! # Copies of strings

`GC_strdup` and `GC_strndup` copy a string into a new atomic object. Neither asks for a byte
more than it copies.
-/

namespace VmkitCore

/-- A string in memory: bytes that are not zero, and a zero after them. -/
structure CStr (m : ByteMemory) (a : ℕ) where
  bytes : List UInt8
  getElem_eq : ∀ i (h : i < bytes.length), m (a + i) = bytes[i]
  ne_zero : ∀ x ∈ bytes, x ≠ 0
  nul : m (a + bytes.length) = 0
  length_lt : bytes.length < 2 ^ 63

namespace ObjectSizes

open Allocation ObjectReferences

section Source

variable (bits : Bitfields) (conv : UsizeConversions) (alloc : Request → ℕ) (t : Thread)
  (m : ByteMemory)

/-- The block, or the null pointer, and the memory after the call. -/
def gcStrdup {a : ℕ} (s : CStr m a) : Option (Option Region × ByteMemory) :=
  if a = 0 then some (none, m)
  else do
    -- `to_string_lossy`
    let bytes := Utf8.lossy s.bytes
    let (b, m) ← gcMallocAtomic bits conv alloc t m bytes.length
    some (some b, m.write (object b) bytes)

/-- Like a reallocation, with what was read of the string. -/
def gcStrndup (s n : ℕ) : Option Reallocated := do
  let (b, m) ← gcMallocAtomic bits conv alloc t m n
  some ⟨b, m.copy s (object b) n, [⟨s, s + n⟩]⟩

end Source

/-- The block holds the bytes, and a zero after them. -/
structure Holds (b : Region) (m : ByteMemory) (l : List UInt8) : Prop where
  room : Fits b (l.length + 1)
  getElem_eq : ∀ i (h : i < l.length), m (object b + i) = l[i]
  nul : m (object b + l.length) = 0

variable {bits : Bitfields} {conv : UsizeConversions} {alloc : Request → ℕ} {t : Thread}
  {m m' : ByteMemory} {n : ℕ} {b : Region}

theorem gcMallocAtomic_eq_some : gcMallocAtomic bits conv alloc t m n = some (b, m') ↔
    ∃ w, encodeHeader bits n true = some w ∧ b = allocate conv alloc t n (2 ^ 3) .default ∧
      m' = m.store b.start headerBytes w := by
  have h : (Malloc.ofAtomic true).call bits conv alloc t m n = some (b, m') ↔ _ := call_eq_some
  exact h

/-- The rounding leaves room for one more byte than asked for, if the request is not whole words. -/
theorem fits_succ_iff (hn : Representable n 3) :
    Fits (allocate conv alloc t n (2 ^ 3) .default) (n + 1) ↔ ¬ 8 ∣ n ∧
      ¬ (Fast t n .default ∧ EndWraps t.tlab (blockSize conv n (2 ^ 3)) 3) := by
  rw [fits_allocate_iff_blockSize (by decide)]
  refine and_congr_left fun _ => ?_
  have hspec : n + headerBytes ≤ blockSize conv n (2 ^ 3) ∧ _ ∧ _ := blockSize_spec hn
  unfold headerBytes at *
  omega

/-- Behind the header, the memory is what it was. -/
theorem store_apply_object {w i : ℕ} (hb : b.start + objectRefOffset < 2 ^ 64) :
    m.store b.start headerBytes w (object b + i) = m (object b + i) := by
  have hobject := object_eq hb
  refine ByteMemory.store_apply_outside (.inl ?_)
  simp only [hobject, objectRefOffset, headerBytes]
  omega

section Strdup

variable {a w : ℕ} {s : CStr m a}

theorem gcStrdup_eq_some : gcStrdup bits conv alloc t m s = some (some b, m') ↔
    a ≠ 0 ∧ ∃ w, encodeHeader bits (Utf8.lossy s.bytes).length true = some w ∧
      b = allocate conv alloc t (Utf8.lossy s.bytes).length (2 ^ 3) .default ∧
      m' = (m.store b.start headerBytes w).write (object b) (Utf8.lossy s.bytes) := by
  by_cases ha : a = 0
  · simp [gcStrdup, ha]
  simp only [gcStrdup, ha, if_false, ne_eq, not_false_eq_true, true_and, Option.bind_eq_bind,
    Option.bind_eq_some_iff, Option.some.injEq, Prod.mk.injEq, Prod.exists,
    gcMallocAtomic_eq_some]
  constructor
  · rintro ⟨b', _, ⟨w, hw, hb, rfl⟩, rfl, rfl⟩
    exact ⟨w, hw, hb, rfl⟩
  · rintro ⟨w, hw, hb, rfl⟩
    exact ⟨b, _, ⟨w, hw, hb, rfl⟩, rfl, rfl⟩

theorem write_apply_past {l : List UInt8} (hb : b.start + objectRefOffset < 2 ^ 64) :
    (m.store b.start headerBytes w).write (object b) l (object b + l.length) =
      m (object b + l.length) := by
  rw [ByteMemory.write_apply_outside (.inl (Nat.le_refl _)), store_apply_object hb]

/-- What is written after the string, or in place of it, is never zero. -/
theorem valid_of_holds (h : Holds b ((m.store b.start headerBytes w).write (object b)
    (Utf8.lossy s.bytes)) s.bytes) : Utf8.valid s.bytes = true := by
  rw [← Utf8.lossy_eq_self_iff]
  have hle := Utf8.length_le_length_lossy s.bytes
  have hlength : (Utf8.lossy s.bytes).length = s.bytes.length := by
    by_contra hne
    have hlt : s.bytes.length < (Utf8.lossy s.bytes).length := by omega
    have hnul := h.nul
    rw [ByteMemory.write_apply_inside hlt] at hnul
    exact Utf8.ne_zero_of_mem_lossy s.ne_zero (List.getElem_mem hlt) hnul
  refine List.ext_getElem hlength fun i hi hi' => ?_
  rw [← h.getElem_eq i hi', ByteMemory.write_apply_inside hi]

theorem holds_strdup_iff (hb : b.start + objectRefOffset < 2 ^ 64)
    (h : gcStrdup bits conv alloc t m s = some (some b, m')) :
    Holds b m' s.bytes ↔ Utf8.valid s.bytes = true ∧
      Fits b (s.bytes.length + 1) ∧ m (object b + s.bytes.length) = 0 := by
  obtain ⟨-, w, -, -, rfl⟩ := gcStrdup_eq_some.mp h
  constructor
  · intro hholds
    have hvalid := valid_of_holds hholds
    have hnul := hholds.nul
    rw [(Utf8.lossy_eq_self_iff _).mpr hvalid, write_apply_past hb] at hnul
    exact ⟨hvalid, hholds.room, hnul⟩
  · rintro ⟨hvalid, hroom, hnul⟩
    rw [(Utf8.lossy_eq_self_iff _).mpr hvalid]
    exact ⟨hroom, fun i hi => ByteMemory.write_apply_inside hi, by rw [write_apply_past hb, hnul]⟩

end Strdup

section Strndup

variable {a : ℕ} {s : CStr m a} {r : Reallocated}

/-- The block has the first bytes of the string, and nothing past its terminator is read. -/
structure Duplicates (s : CStr m a) (n : ℕ) (r : Reallocated) : Prop where
  reads : ∀ window ∈ r.reads, window.Inside ⟨a, a + s.bytes.length + 1⟩
  holds : Holds r.block r.memory (s.bytes.take n)

theorem gcStrndup_eq_some : gcStrndup bits conv alloc t m a n = some r ↔
    ∃ b w, encodeHeader bits n true = some w ∧ b = allocate conv alloc t n (2 ^ 3) .default ∧
      r = ⟨b, (m.store b.start headerBytes w).copy a (object b) n, [⟨a, a + n⟩]⟩ := by
  simp only [gcStrndup, Option.bind_eq_bind, Option.bind_eq_some_iff, Option.some.injEq,
    Prod.exists, gcMallocAtomic_eq_some]
  constructor
  · rintro ⟨b, _, ⟨w, hw, hb, rfl⟩, rfl⟩
    exact ⟨b, w, hw, hb, rfl⟩
  · rintro ⟨b, w, hw, hb, rfl⟩
    exact ⟨b, _, ⟨w, hw, hb, rfl⟩, rfl⟩

/-- A byte of the string, or its terminator, in the copy. -/
theorem copied_char {w i : ℕ} (hi : i < n) (his : i ≤ s.bytes.length)
    (hfresh : (Region.mk b.start (b.start + headerBytes)).Apart ⟨a, a + s.bytes.length + 1⟩) :
    (m.store b.start headerBytes w).copy a (object b) n (object b + i) = m (a + i) := by
  rw [ByteMemory.copy_apply_inside hi]
  refine ByteMemory.store_apply_outside ?_
  simp only [Region.Apart, ByteMemory.Disjoint] at *
  omega

/-- A copy that stays in the string has the terminator, or a zero that was there before. -/
theorem holds_copy_iff {w : ℕ} (hb : b.start + objectRefOffset < 2 ^ 64)
    (hfresh : (Region.mk b.start (b.start + headerBytes)).Apart ⟨a, a + s.bytes.length + 1⟩)
    (hn : n ≤ s.bytes.length + 1) :
    Holds b ((m.store b.start headerBytes w).copy a (object b) n) (s.bytes.take n) ↔
      Fits b (min n s.bytes.length + 1) ∧ (n = s.bytes.length + 1 ∨ m (object b + n) = 0) := by
  have hpast : (m.store b.start headerBytes w).copy a (object b) n (object b + n) =
      m (object b + n) := by
    rw [ByteMemory.copy_apply_outside (.inl (Nat.le_refl _)), store_apply_object hb]
  constructor
  · rintro ⟨hroom, -, hnul⟩
    rw [List.length_take] at hroom hnul
    refine ⟨hroom, ?_⟩
    rcases Nat.lt_or_eq_of_le hn with hlt | heq
    · rw [Nat.min_eq_left (by omega), hpast] at hnul
      exact .inr hnul
    · exact .inl heq
  · rintro ⟨hroom, hnul⟩
    refine ⟨by rwa [List.length_take], fun i hi => ?_, ?_⟩
    · have hi' := hi
      rw [List.length_take, Nat.lt_min] at hi'
      rw [copied_char hi'.1 (Nat.le_of_lt hi'.2) hfresh, s.getElem_eq i hi'.2, List.getElem_take]
    · rw [List.length_take]
      rcases Nat.lt_or_eq_of_le hn with hlt | rfl
      · rw [Nat.min_eq_left (by omega), hpast]
        exact hnul.resolve_left (Nat.ne_of_lt hlt)
      · rw [Nat.min_eq_right (Nat.le_succ _), copied_char (Nat.lt_succ_self _) (Nat.le_refl _)
          hfresh, s.nul]

theorem duplicates_strndup_iff (hb : r.block.start + objectRefOffset < 2 ^ 64)
    (hfresh : (Region.mk r.block.start (r.block.start + headerBytes)).Apart
      ⟨a, a + s.bytes.length + 1⟩)
    (h : gcStrndup bits conv alloc t m a n = some r) :
    Duplicates s n r ↔ n ≤ s.bytes.length + 1 ∧ Fits r.block (min n s.bytes.length + 1) ∧
      (n = s.bytes.length + 1 ∨ m (object r.block + n) = 0) := by
  obtain ⟨b, w, -, -, rfl⟩ := gcStrndup_eq_some.mp h
  have hreads : (∀ window ∈ [Region.mk a (a + n)],
      window.Inside ⟨a, a + s.bytes.length + 1⟩) ↔ n ≤ s.bytes.length + 1 := by
    simp only [List.mem_singleton, forall_eq, Region.Inside]
    omega
  constructor
  · rintro ⟨hr, hholds⟩
    have hn := hreads.mp hr
    exact ⟨hn, (holds_copy_iff hb hfresh hn).mp hholds⟩
  · rintro ⟨hn, hholds⟩
    exact ⟨hreads.mpr hn, (holds_copy_iff hb hfresh hn).mpr hholds⟩

end Strndup

/-! ### Both copies -/

/-- The block for `n` bytes of a string. -/
def stringBlock (conv : UsizeConversions) (alloc : Request → ℕ) (t : Thread) (n : ℕ) : Region :=
  allocate conv alloc t n (2 ^ 3) .default

/-- The rounding left a byte behind the `n` bytes, and it was zero before. -/
structure SpareNul (conv : UsizeConversions) (alloc : Request → ℕ) (t : Thread) (m : ByteMemory)
    (n : ℕ) : Prop where
  spare : ¬ 8 ∣ n
  nul : m (object (stringBlock conv alloc t n) + n) = 0

section Copies

variable {a : ℕ} {s : CStr m a}

theorem representable_length (h : n ≤ s.bytes.length + 1) : Representable n 3 := by
  have hlt := s.length_lt
  unfold Representable headerBytes
  omega

theorem strdup_iff (ha : a ≠ 0)
    (hb : (stringBlock conv alloc t (Utf8.lossy s.bytes).length).start + objectRefOffset < 2 ^ 64) :
    (∃ b m', gcStrdup bits conv alloc t m s = some (some b, m') ∧ Holds b m' s.bytes) ↔
      Utf8.valid s.bytes = true ∧ (encodeHeader bits s.bytes.length true).isSome ∧
        SpareNul conv alloc t m s.bytes.length ∧ ¬ (Fast t s.bytes.length .default ∧
          EndWraps t.tlab (blockSize conv s.bytes.length (2 ^ 3)) 3) := by
  have hroom : Fits (stringBlock conv alloc t s.bytes.length) (s.bytes.length + 1) ↔ _ :=
    fits_succ_iff (representable_length (Nat.le_succ _))
  constructor
  · rintro ⟨b, m', h, hholds⟩
    obtain ⟨-, w, hw, rfl, -⟩ := gcStrdup_eq_some.mp h
    obtain ⟨hvalid, hfits, hnul⟩ := (holds_strdup_iff hb h).mp hholds
    have hlossy : Utf8.lossy s.bytes = s.bytes := (Utf8.lossy_eq_self_iff _).mpr hvalid
    rw [hlossy] at hw hfits hnul
    obtain ⟨hspare, hwraps⟩ := hroom.mp hfits
    exact ⟨hvalid, hw ▸ rfl, ⟨hspare, hnul⟩, hwraps⟩
  · rintro ⟨hvalid, hsome, hspare, hwraps⟩
    obtain ⟨w, hw⟩ := Option.isSome_iff_exists.mp hsome
    have hlossy : Utf8.lossy s.bytes = s.bytes := (Utf8.lossy_eq_self_iff _).mpr hvalid
    rw [hlossy] at hb
    have h : gcStrdup bits conv alloc t m s =
        some (some (stringBlock conv alloc t s.bytes.length), _) :=
      gcStrdup_eq_some.mpr ⟨ha, w, hlossy.symm ▸ hw, hlossy.symm ▸ rfl, rfl⟩
    exact ⟨_, _, h, (holds_strdup_iff hb h).mpr
      ⟨hvalid, hroom.mpr ⟨hspare.spare, hwraps⟩, hspare.nul⟩⟩

/-- With the terminator among the `n` bytes, no room is needed after them. -/
theorem fits_copy_iff (hn : n ≤ s.bytes.length + 1) :
    Fits (stringBlock conv alloc t n) (min n s.bytes.length + 1) ↔
      (n = s.bytes.length + 1 ∨ ¬ 8 ∣ n) ∧
        ¬ (Fast t n .default ∧ EndWraps t.tlab (blockSize conv n (2 ^ 3)) 3) := by
  have hr : Representable n 3 := representable_length hn
  unfold stringBlock
  rcases Nat.lt_or_eq_of_le hn with hlt | rfl
  · rw [Nat.min_eq_left (Nat.le_of_lt_succ hlt), fits_succ_iff hr,
      or_iff_right (Nat.ne_of_lt hlt)]
  · rw [Nat.min_eq_right (Nat.le_succ _), fits_allocate_iff (by decide), and_iff_right hr,
      and_iff_right (Or.inl rfl)]

theorem strndup_iff
    (hb : (stringBlock conv alloc t n).start + objectRefOffset < 2 ^ 64)
    (hfresh : (Region.mk (stringBlock conv alloc t n).start
      ((stringBlock conv alloc t n).start + headerBytes)).Apart ⟨a, a + s.bytes.length + 1⟩) :
    (∃ r, gcStrndup bits conv alloc t m a n = some r ∧ Duplicates s n r) ↔
      (encodeHeader bits n true).isSome ∧
        (n = s.bytes.length + 1 ∨ n ≤ s.bytes.length ∧ SpareNul conv alloc t m n) ∧
        ¬ (Fast t n .default ∧ EndWraps t.tlab (blockSize conv n (2 ^ 3)) 3) := by
  constructor
  · rintro ⟨r, h, hdup⟩
    obtain ⟨b, w, hw, rfl, rfl⟩ := gcStrndup_eq_some.mp h
    obtain ⟨hn, hfits, hnul⟩ := (duplicates_strndup_iff hb hfresh h).mp hdup
    obtain ⟨hends, hwraps⟩ := (fits_copy_iff hn).mp hfits
    refine ⟨hw ▸ rfl, ?_, hwraps⟩
    rcases Nat.lt_or_eq_of_le hn with hlt | heq
    · exact .inr ⟨Nat.le_of_lt_succ hlt, hends.resolve_left (Nat.ne_of_lt hlt),
        hnul.resolve_left (Nat.ne_of_lt hlt)⟩
    · exact .inl heq
  · rintro ⟨hsome, hends, hwraps⟩
    obtain ⟨w, hw⟩ := Option.isSome_iff_exists.mp hsome
    have h : gcStrndup bits conv alloc t m a n = some ⟨stringBlock conv alloc t n, _, _⟩ :=
      gcStrndup_eq_some.mpr ⟨_, w, hw, rfl, rfl⟩
    have hn : n ≤ s.bytes.length + 1 := hends.elim Nat.le_of_eq fun h => Nat.le_succ_of_le h.1
    refine ⟨_, h, (duplicates_strndup_iff hb hfresh h).mpr ⟨hn, ?_, ?_⟩⟩
    · exact (fits_copy_iff hn).mpr ⟨hends.imp_right fun h => h.2.spare, hwraps⟩
    · exact hends.imp_right fun h => h.2.nul

/--
Neither call asks for room for the terminator, and `GC_strndup` does not look for one: the copies
are right where the rounding and what was there before supply it.
-/
theorem string_copies_iff (ha : a ≠ 0)
    (hdup : (stringBlock conv alloc t (Utf8.lossy s.bytes).length).start + objectRefOffset < 2 ^ 64)
    (hndup : (stringBlock conv alloc t n).start + objectRefOffset < 2 ^ 64)
    (hfresh : (Region.mk (stringBlock conv alloc t n).start
      ((stringBlock conv alloc t n).start + headerBytes)).Apart ⟨a, a + s.bytes.length + 1⟩) :
    ((∃ b m', gcStrdup bits conv alloc t m s = some (some b, m') ∧ Holds b m' s.bytes) ↔
      Utf8.valid s.bytes = true ∧ (encodeHeader bits s.bytes.length true).isSome ∧
        SpareNul conv alloc t m s.bytes.length ∧ ¬ (Fast t s.bytes.length .default ∧
          EndWraps t.tlab (blockSize conv s.bytes.length (2 ^ 3)) 3)) ∧
    ((∃ r, gcStrndup bits conv alloc t m a n = some r ∧ Duplicates s n r) ↔
      (encodeHeader bits n true).isSome ∧
        (n = s.bytes.length + 1 ∨ n ≤ s.bytes.length ∧ SpareNul conv alloc t m n) ∧
        ¬ (Fast t n .default ∧ EndWraps t.tlab (blockSize conv n (2 ^ 3)) 3)) :=
  ⟨strdup_iff ha hdup, strndup_iff hndup hfresh⟩

/-- Memory with so many letters at 256, and zeros elsewhere. -/
def lettersAt256 (k : ℕ) : ByteMemory := ByteMemory.write (fun _ => 0) 256 (List.replicate k 97)

theorem lettersAt256_past {k x : ℕ} (h : 256 + k ≤ x) : lettersAt256 k x = 0 :=
  ByteMemory.write_apply_outside (.inl (by rwa [List.length_replicate]))

def letters (k : ℕ) (hk : k < 2 ^ 63) : CStr (lettersAt256 k) 256 where
  bytes := List.replicate k 97
  getElem_eq i h := ByteMemory.write_apply_inside h
  ne_zero x hx := by rw [List.eq_of_mem_replicate hx]; decide
  nul := lettersAt256_past (by rw [List.length_replicate])
  length_lt := by rwa [List.length_replicate]

theorem lossy_letters (k : ℕ) : Utf8.lossy (List.replicate k 97) = List.replicate k 97 := by
  induction k with
  | zero => exact Utf8.lossy_nil
  | succ k ih =>
    have hscan : Utf8.scan 97 (List.replicate k 97) = (true, 0) := rfl
    rw [List.replicate_succ, Utf8.lossy_cons_of_scan (by rw [hscan]), hscan, List.drop_zero, ih]
    rfl

/-- Two letters are copied, and then one of them. -/
theorem string_copies_letters :
    (∃ b m', gcStrdup .masks Conversions.byDivision.usize secondPage pageThread
        (lettersAt256 2) (letters 2 (by decide)) = some (some b, m') ∧ Holds b m' [97, 97]) ∧
    (∃ r, gcStrndup .masks Conversions.byDivision.usize secondPage pageThread
        (lettersAt256 2) 256 1 = some r ∧ Duplicates (letters 2 (by decide)) 1 r) := by
  have hlossy : Utf8.lossy (letters 2 (by decide)).bytes = [97, 97] := lossy_letters 2
  refine And.imp
    (fun h => Iff.mpr h ⟨(Utf8.lossy_eq_self_iff _).mp hlossy, rfl,
      ⟨by decide, lettersAt256_past (by decide)⟩, fun h => absurd h.2.1 (by decide)⟩)
    (fun h => Iff.mpr h ⟨rfl, .inr ⟨by decide, by decide, lettersAt256_past (by decide)⟩,
      fun h => absurd h.2.1 (by decide)⟩)
    (string_copies_iff (by decide) ?_ (by decide) (by decide))
  rw [hlossy]
  decide

/-- Of eight letters, nothing is left for the terminator. -/
theorem string_copies_unterminated : ¬ ∀ (bits : Bitfields) (conv : Conversions)
    (alloc : Request → ℕ) (t : Thread) (m : ByteMemory) (a n : ℕ) (s : CStr m a), a ≠ 0 →
    (encodeHeader bits s.bytes.length true).isSome → (encodeHeader bits n true).isSome →
    (stringBlock conv.usize alloc t (Utf8.lossy s.bytes).length).start + objectRefOffset < 2 ^ 64 →
    (stringBlock conv.usize alloc t n).start + objectRefOffset < 2 ^ 64 →
    (stringBlock conv.usize alloc t n).Apart ⟨a, a + s.bytes.length + 1⟩ →
    (∃ b m', gcStrdup bits conv.usize alloc t m s = some (some b, m') ∧ Holds b m' s.bytes) ∧
    (∃ r, gcStrndup bits conv.usize alloc t m a n = some r ∧ Duplicates s n r) := by
  intro h
  have hlossy : Utf8.lossy (letters 8 (by decide)).bytes = List.replicate 8 97 := lossy_letters 8
  have hb : (stringBlock Conversions.byDivision.usize secondPage pageThread
      (Utf8.lossy (letters 8 (by decide)).bytes).length).start + objectRefOffset < 2 ^ 64 := by
    rw [hlossy]
    decide
  have hcopies := h .masks .byDivision secondPage pageThread (lettersAt256 8) 256 1
    (letters 8 (by decide)) (by decide) rfl rfl hb (by decide) (by decide)
  obtain ⟨-, -, hspare, -⟩ := (strdup_iff (by decide) hb).mp hcopies.1
  exact hspare.spare (by decide)

end Copies

end ObjectSizes

end VmkitCore
