import VmkitCore.ObjectModel.Object

/-! # Compressed object pointers

A narrow pointer is the distance of an object from a base, scaled by a shift and cut
to 32 bits. `init` chooses base and shift from the bounds of the heap range. It never
looks at the width of the range, so the cut loses bits of a wide range that is not
encoded from address zero.
-/

namespace VmkitCore

/-- A heap range of MMTk, which starts and ends at a chunk boundary. -/
structure HeapRange where
  start : ℕ
  finish : ℕ
  start_pos : 0 < start
  start_lt_finish : start < finish
  finish_lt : finish < 2 ^ 64
  dvd_start : 2 ^ 22 ∣ start
  dvd_finish : 2 ^ 22 ∣ finish

structure CompressedOps where
  base : ℕ
  shift : ℕ
  range : HeapRange

namespace CompressedOps

def unscaledOpHeapMax : ℕ := 2 ^ 32

/-- `init`, where `MIN_ALIGNMENT` is the power of two with the given exponent. -/
def init (taggedPointers : Bool) (logMinAlignment : ℕ) (range : HeapRange) : CompressedOps :=
  if taggedPointers then
    { base := (range.start + 2 ^ 64 - 4096) % 2 ^ 64, shift := 2, range }
  else
    let shift := if range.finish > unscaledOpHeapMax then logMinAlignment else 0
    let max := (unscaledOpHeapMax <<< logMinAlignment) % 2 ^ 64
    let base := if range.finish ≤ max then 0 else (range.start + 2 ^ 64 - 4096) % 2 ^ 64
    { base, shift, range }

def decodeRaw (ops : CompressedOps) (v : ℕ) : VMKitObject :=
  ⟨(ops.base + (v <<< ops.shift) % 2 ^ 64) % 2 ^ 64⟩

def decode (ops : CompressedOps) (v : ℕ) : VMKitObject :=
  if v = 0 then ⟨0⟩ else ops.decodeRaw v

def encode (ops : CompressedOps) (o : VMKitObject) : ℕ :=
  if o.address = 0 then 0
  else
    let pd := (o.address + 2 ^ 64 - ops.base) % 2 ^ 64
    (pd >>> ops.shift) % 2 ^ 32

variable {ops : CompressedOps} {range : HeapRange} {logMinAlignment : ℕ} {o : VMKitObject}

/-- Null, or an aligned address of the range. -/
def IsObject (range : HeapRange) (logMinAlignment : ℕ) (o : VMKitObject) : Prop :=
  o.address = 0 ∨
    range.start ≤ o.address ∧ o.address < range.finish ∧ 2 ^ logMinAlignment ∣ o.address

/-- Objects survive encoding, have different narrow values, and only null is zero. -/
structure Faithful (ops : CompressedOps) (logMinAlignment : ℕ) : Prop where
  decode_encode : ∀ o, IsObject ops.range logMinAlignment o → ops.decode (ops.encode o) = o
  encode_injective : ∀ o o', IsObject ops.range logMinAlignment o →
    IsObject ops.range logMinAlignment o' → ops.encode o = ops.encode o' → o = o'
  encode_eq_zero : ∀ o, IsObject ops.range logMinAlignment o → ops.encode o = 0 → o.address = 0

/-- The distance from the base is a multiple of the scale that fits in 32 bits and is not zero. -/
structure Fits (ops : CompressedOps) (o : VMKitObject) : Prop where
  scaled : 2 ^ ops.shift ∣ o.address - ops.base
  nonzero : ops.base < o.address
  narrow : o.address - ops.base < 2 ^ (32 + ops.shift)

theorem encode_eq (hb : ops.base ≤ o.address) (ho : o.address < 2 ^ 64) (h0 : o.address ≠ 0) :
    ops.encode o = (o.address - ops.base) / 2 ^ ops.shift % 2 ^ 32 := by
  have hpd : (o.address + 2 ^ 64 - ops.base) % 2 ^ 64 = o.address - ops.base := by omega
  simp only [encode, h0, ↓reduceIte, hpd, Nat.shiftRight_eq_div_pow]

/-- An object survives encoding exactly when its distance from the base fits. -/
theorem decode_encode_iff (hb : ops.base ≤ o.address) (ho : o.address < 2 ^ 64)
    (h0 : o.address ≠ 0) : ops.decode (ops.encode o) = o ↔ ops.Fits o := by
  obtain ⟨d, hd⟩ := Nat.exists_eq_add_of_le hb
  have hdist : o.address - ops.base = d := by omega
  have hp := Nat.two_pow_pos ops.shift
  have hdiv := Nat.div_add_mod d (2 ^ ops.shift)
  have hmod := Nat.mod_le (d / 2 ^ ops.shift) (2 ^ 32)
  have hcut : 2 ^ ops.shift * (d / 2 ^ ops.shift % 2 ^ 32) ≤ d :=
    (Nat.mul_le_mul_left _ hmod).trans (by omega)
  have hraw : ops.decodeRaw (d / 2 ^ ops.shift % 2 ^ 32) =
      ⟨ops.base + 2 ^ ops.shift * (d / 2 ^ ops.shift % 2 ^ 32)⟩ := by
    rw [decodeRaw, Nat.shiftLeft_eq, Nat.mul_comm, Nat.mod_eq_of_lt (by omega),
      Nat.mod_eq_of_lt (by omega)]
  rw [encode_eq hb ho h0, hdist, decode]
  constructor
  · intro h
    split at h
    · exact absurd (congrArg VMKitObject.address h).symm h0
    · next hne =>
      rw [hraw] at h
      have heq := congrArg VMKitObject.address h
      dsimp only at heq
      have hr := Nat.mod_lt (d / 2 ^ ops.shift) (Nat.two_pow_pos 32)
      have hlt := (Nat.mul_lt_mul_left hp).mpr hr
      have hd' : d = 2 ^ ops.shift * (d / 2 ^ ops.shift % 2 ^ 32) := by omega
      have hpos := Nat.mul_pos hp (Nat.pos_of_ne_zero hne)
      refine ⟨?_, ?_, ?_⟩
      · rw [hdist]
        exact ⟨_, hd'⟩
      · omega
      · rw [hdist, Nat.add_comm, Nat.pow_add]
        omega
  · rintro ⟨hscaled, hnonzero, hnarrow⟩
    rw [hdist] at hscaled hnarrow
    obtain ⟨q, rfl⟩ := hscaled
    rw [Nat.add_comm 32, Nat.pow_add] at hnarrow
    have hq : q < 2 ^ 32 := Nat.lt_of_mul_lt_mul_left hnarrow
    have hq0 : q ≠ 0 := by
      rintro rfl
      omega
    rw [Nat.mul_div_cancel_left q hp, Nat.mod_eq_of_lt hq] at hraw ⊢
    rw [if_neg hq0, hraw, ← hd]

/-- Objects are faithfully encoded exactly when each of them fits. -/
theorem faithful_iff_fits (hb : ops.base ≤ ops.range.start) :
    ops.Faithful logMinAlignment ↔ ∀ o, ops.range.start ≤ o.address →
      o.address < ops.range.finish → 2 ^ logMinAlignment ∣ o.address → ops.Fits o := by
  have hpos := ops.range.start_pos
  have hlt := ops.range.finish_lt
  constructor
  · intro h o hs hf hd
    refine (decode_encode_iff (by omega) (by omega) (by omega)).mp ?_
    exact h.decode_encode o (.inr ⟨hs, hf, hd⟩)
  · intro h
    have hdec : ∀ o, IsObject ops.range logMinAlignment o → ops.decode (ops.encode o) = o := by
      rintro o (h0 | ⟨hs, hf, hd⟩)
      · obtain ⟨address⟩ := o
        dsimp only at h0
        simp [h0, encode, decode]
      · exact (decode_encode_iff (by omega) (by omega) (by omega)).mpr (h o hs hf hd)
    refine ⟨hdec, fun o o' ho ho' he => ?_, fun o ho he => ?_⟩
    · rw [← hdec o ho, he, hdec o' ho']
    · rw [← hdec o ho, he]
      rfl

/-- The last aligned address below the end of the range. -/
def lastObject (range : HeapRange) (logMinAlignment : ℕ) : ℕ :=
  (range.finish - 1) / 2 ^ logMinAlignment * 2 ^ logMinAlignment

theorem lastObject_lt : lastObject range logMinAlignment < range.finish := by
  have := Nat.div_mul_le_self (range.finish - 1) (2 ^ logMinAlignment)
  have := range.start_lt_finish
  unfold lastObject
  omega

theorem le_lastObject (hf : o.address < range.finish) (hd : 2 ^ logMinAlignment ∣ o.address) :
    o.address ≤ lastObject range logMinAlignment := by
  obtain ⟨q, hq⟩ := hd
  have hle : q ≤ (range.finish - 1) / 2 ^ logMinAlignment := by
    rw [Nat.le_div_iff_mul_le (Nat.two_pow_pos _), Nat.mul_comm]
    omega
  rw [hq, Nat.mul_comm]
  exact Nat.mul_le_mul_right _ hle

theorem chunk_le_start (range : HeapRange) : 2 ^ 22 ≤ range.start :=
  Nat.le_of_dvd range.start_pos range.dvd_start

theorem chunk_le_width (range : HeapRange) : range.start + 2 ^ 22 ≤ range.finish := by
  obtain ⟨i, hi⟩ := range.dvd_start
  obtain ⟨j, hj⟩ := range.dvd_finish
  have := range.start_lt_finish
  omega

theorem start_sub_page (range : HeapRange) :
    (range.start + 2 ^ 64 - 4096) % 2 ^ 64 = range.start - 4096 := by
  have := chunk_le_start range
  have := range.start_lt_finish
  have := range.finish_lt
  omega

/-- Tagged narrow values of 4-byte units, counted from a page below the range. -/
theorem faithful_tagged_iff (hb : ops.base = ops.range.start - 4096) (hs : ops.shift = 2) :
    ops.Faithful logMinAlignment ↔ 2 ≤ logMinAlignment ∧
      lastObject ops.range logMinAlignment + 4096 < ops.range.start + 2 ^ 34 := by
  have hstart := chunk_le_start ops.range
  have hwidth := chunk_le_width ops.range
  obtain ⟨i, hi⟩ := ops.range.dvd_start
  rw [faithful_iff_fits (by omega)]
  constructor
  · intro h
    constructor
    · by_contra ha
      -- the second aligned address of the range is no multiple of four
      have hd : 2 ^ logMinAlignment ∣ ops.range.start + 2 ^ logMinAlignment := by
        rw [hi]
        exact Nat.dvd_add (Dvd.dvd.mul_right (pow_dvd_pow 2 (by omega)) i) (Nat.dvd_refl _)
      have hpow : 2 ^ logMinAlignment = 1 ∨ 2 ^ logMinAlignment = 2 := by
        obtain rfl | rfl : logMinAlignment = 0 ∨ logMinAlignment = 1 := by omega
        · exact .inl rfl
        · exact .inr rfl
      have hscaled := (h ⟨ops.range.start + 2 ^ logMinAlignment⟩ (Nat.le_add_right _ _)
        (by dsimp only; omega) hd).scaled
      rw [hs, hb] at hscaled
      dsimp only at hscaled
      omega
    · by_contra hlast
      have hnarrow := (h ⟨lastObject ops.range logMinAlignment⟩ (by dsimp only; omega)
        lastObject_lt ⟨_, Nat.mul_comm _ _⟩).narrow
      rw [hs, hb] at hnarrow
      dsimp only at hnarrow
      omega
  · rintro ⟨ha, hlast⟩ o ho hf hd
    have hle := le_lastObject hf hd
    have h4 : 4 ∣ o.address := (pow_dvd_pow 2 ha).trans hd
    refine ⟨?_, by omega, ?_⟩
    · rw [hs, hb]
      omega
    · rw [hs, hb]
      omega

/-- Narrow values in units of the alignment, counted from a page below the range. -/
theorem faithful_heapBased_iff (hb : ops.base = ops.range.start - 4096)
    (hs : ops.shift = logMinAlignment) :
    ops.Faithful logMinAlignment ↔ lastObject ops.range logMinAlignment < ops.range.start ∨
      logMinAlignment ≤ 12 ∧
        lastObject ops.range logMinAlignment + 4096 <
          ops.range.start + 2 ^ (32 + logMinAlignment) := by
  have hstart := chunk_le_start ops.range
  obtain ⟨i, hi⟩ := ops.range.dvd_start
  rw [faithful_iff_fits (by omega)]
  constructor
  · intro h
    rw [or_iff_not_imp_left]
    intro hlast
    have hdvd : 2 ^ logMinAlignment ∣ lastObject ops.range logMinAlignment := ⟨_, Nat.mul_comm _ _⟩
    obtain ⟨hscaled, -, hnarrow⟩ := h ⟨lastObject ops.range logMinAlignment⟩ (by dsimp only; omega)
      lastObject_lt hdvd
    rw [hs, hb] at hscaled hnarrow
    dsimp only at hscaled hnarrow
    refine ⟨?_, by omega⟩
    by_contra ha
    -- the base is no multiple of two pages
    have hbase : 2 ^ logMinAlignment ∣ ops.range.start - 4096 := by
      have := Nat.dvd_sub hdvd hscaled
      rwa [Nat.sub_sub_self (by omega)] at this
    have h13 : 2 ^ 13 ∣ ops.range.start - 4096 := (pow_dvd_pow 2 (by omega)).trans hbase
    omega
  · rintro h o ho hf hd
    have hle := le_lastObject hf hd
    rcases h with h | ⟨ha, hlast⟩
    · omega
    · have hpage : 2 ^ logMinAlignment ∣ 4096 := pow_dvd_pow 2 ha
      have hbase : 2 ^ logMinAlignment ∣ ops.range.start - 4096 := by
        refine Nat.dvd_sub ?_ hpage
        rw [hi]
        exact Dvd.dvd.mul_right (pow_dvd_pow 2 (by omega)) i
      refine ⟨?_, by omega, ?_⟩
      · rw [hs, hb]
        exact Nat.dvd_sub hd hbase
      · rw [hs, hb]
        omega

/-- The bounds of the range and the alignment under which every object keeps its address. -/
def RoundTrips (taggedPointers : Bool) (logMinAlignment : ℕ) (range : HeapRange) : Prop :=
  if taggedPointers then
    2 ≤ logMinAlignment ∧ lastObject range logMinAlignment + 4096 < range.start + 2 ^ 34
  else
    range.finish ≤ 2 ^ 32 ∨ range.finish ≤ 2 ^ (32 + logMinAlignment) % 2 ^ 64 ∨
      lastObject range logMinAlignment < range.start ∨
      (logMinAlignment ≤ 12 ∧
        lastObject range logMinAlignment + 4096 < range.start + 2 ^ (32 + logMinAlignment))

theorem init_tagged : init true logMinAlignment range = ⟨range.start - 4096, 2, range⟩ := by
  rw [init, if_pos rfl, start_sub_page]

theorem init_untagged : init false logMinAlignment range =
    ⟨if range.finish ≤ 2 ^ (32 + logMinAlignment) % 2 ^ 64 then 0 else range.start - 4096,
      if 2 ^ 32 < range.finish then logMinAlignment else 0, range⟩ := by
  rw [init, if_neg (by decide), start_sub_page, Nat.shiftLeft_eq, unscaledOpHeapMax, ← Nat.pow_add]

/-- A range below 4 GiB is encoded byte by byte. -/
theorem faithful_unscaled (hb : ops.base ≤ ops.range.start - 4096) (hs : ops.shift = 0)
    (hf : ops.range.finish ≤ 2 ^ 32) : ops.Faithful logMinAlignment := by
  have hstart := chunk_le_start ops.range
  refine (faithful_iff_fits (by omega)).mpr fun o ho ho' _ => ⟨?_, by omega, ?_⟩
  · rw [hs]
    exact Nat.one_dvd _
  · rw [hs]
    omega

/-- A range that ends below the scaled limit is encoded from address zero. -/
theorem faithful_zeroBased (hb : ops.base = 0) (hs : ops.shift = logMinAlignment)
    (hf : ops.range.finish ≤ 2 ^ (32 + logMinAlignment)) : ops.Faithful logMinAlignment := by
  have hpos := ops.range.start_pos
  refine (faithful_iff_fits (by omega)).mpr fun o ho ho' hd => ⟨?_, by omega, ?_⟩
  · rwa [hs, hb]
  · rw [hs, hb]
    omega

/-- Encoding is faithful exactly on ranges that end low enough or are narrow enough. -/
theorem compressed_faithful_iff (taggedPointers : Bool) (logMinAlignment : ℕ) (range : HeapRange) :
    (init taggedPointers logMinAlignment range).Faithful logMinAlignment ↔
      RoundTrips taggedPointers logMinAlignment range := by
  cases taggedPointers with
  | true =>
    rw [init_tagged]
    simp only [RoundTrips, ↓reduceIte]
    exact faithful_tagged_iff rfl rfl
  | false =>
    rw [init_untagged]
    simp only [RoundTrips, Bool.false_eq_true, ↓reduceIte]
    by_cases hlow : range.finish ≤ 2 ^ 32
    · refine iff_of_true (faithful_unscaled ?_ (if_neg (by omega)) hlow) (.inl hlow)
      dsimp only
      split <;> omega
    · rw [if_pos (by omega : 2 ^ 32 < range.finish)]
      by_cases hzero : range.finish ≤ 2 ^ (32 + logMinAlignment) % 2 ^ 64
      · rw [if_pos hzero]
        exact iff_of_true (faithful_zeroBased rfl rfl (hzero.trans (Nat.mod_le _ _)))
          (.inr (.inl hzero))
      · rw [if_neg hzero]
        simp only [hlow, hzero, false_or]
        exact faithful_heapBased_iff rfl rfl

/-- The range that MMTk lays out by default on 64-bit machines. -/
def defaultRange : HeapRange where
  start := 2 ^ 41
  finish := 2 ^ 41 + 2 ^ 45
  start_pos := by decide
  start_lt_finish := by decide
  finish_lt := by decide
  dvd_start := by decide
  dvd_finish := by decide

/-- In the default range the object one page short of 32 GiB encodes to zero and decodes to null. -/
theorem compressed_wide_range :
    IsObject defaultRange 3 ⟨2 ^ 41 + 2 ^ 35 - 4096⟩ ∧
      (init false 3 defaultRange).encode ⟨2 ^ 41 + 2 ^ 35 - 4096⟩ = 0 ∧
      (init false 3 defaultRange).decode 0 = ⟨0⟩ ∧
      ¬ (init false 3 defaultRange).Faithful 3 := by
  have hobj : IsObject defaultRange 3 ⟨2 ^ 41 + 2 ^ 35 - 4096⟩ :=
    .inr ⟨by decide, by decide, by decide⟩
  have hzero : (init false 3 defaultRange).encode ⟨2 ^ 41 + 2 ^ 35 - 4096⟩ = 0 := by
    decide
  exact ⟨hobj, hzero, rfl, fun h => absurd (h.encode_eq_zero _ hobj hzero) (by decide)⟩

end CompressedOps

end VmkitCore
