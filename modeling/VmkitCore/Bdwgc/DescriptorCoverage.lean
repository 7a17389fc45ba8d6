import VmkitCore.Bdwgc.Descriptors

/-! # Descriptors made from bitmaps

`GC_make_descriptor` turns a bitmap of the reference words of an object into a kind
descriptor. It reads its bits eight to a word, counts a length in words where the
tracer counts bytes, leaves the length untagged, and drops the bitmap it has built.
The tracer covers the bitmap only where these slips happen to cancel.
-/

namespace VmkitCore.Descriptors

/-- `gc_get_bit`, which divides by the bytes of a word. -/
def gcGetBit (bm : ℕ → ℕ) (i : ℕ) : Bool := decide ((bm (i / 8) >>> (i % 8)) &&& 1 ≠ 0)

def bitmapBits : ℕ := 64 - 2

/-- Bit `i` of a bitmap as BDWGC packs it. -/
def bitmapBit (bm : ℕ → ℕ) (i : ℕ) : Bool := (bm (i / 64)).testBit (i % 64)

/-- The last set bit below the length, found from the top down. -/
def lastSetBit (bm : ℕ → ℕ) : ℕ → Option ℕ
  | 0 => none
  | n + 1 => if gcGetBit bm n then some n else lastSetBit bm n

/-- The first clear bit among the next bits, or the end of them. -/
def firstClearBit (bm : ℕ → ℕ) : (remaining i : ℕ) → ℕ
  | 0, i => i
  | n + 1, i => if gcGetBit bm i then firstClearBit bm n (i + 1) else i

/-- The bitmap word that is built from the bits below the last one. -/
def bitmapWord (bm : ℕ → ℕ) : (remaining d : ℕ) → ℕ
  | 0, d => d
  | i + 1, d => bitmapWord bm i (if gcGetBit bm i then d >>> 1 ||| signb else d >>> 1)

/-- `GC_make_descriptor` -/
def gcMakeDescriptor (bm : ℕ → ℕ) (len : ℕ) : ℕ :=
  match lastSetBit bm len with
  | none => 0
  | some last =>
    if firstClearBit bm last 0 = last then last + 1
    else if last < bitmapBits then
      -- the word is never returned
      let _d := bitmapWord bm last signb
      0
    else last + 1

/-- The bits end at the length, without a gap or beyond the room of a bitmap word. -/
structure LengthEncoded (bm : ℕ → ℕ) (len n : ℕ) : Prop where
  pos : 0 < n
  le : n ≤ len
  last : gcGetBit bm (n - 1)
  above : ∀ i, n ≤ i → i < len → ¬ gcGetBit bm i
  dense : (∀ i < n - 1, gcGetBit bm i) ∨ bitmapBits < n

variable {bm : ℕ → ℕ} {len n i last : ℕ}

theorem lastSetBit_eq_none : lastSetBit bm len = none ↔ ∀ i < len, ¬ gcGetBit bm i := by
  induction len with
  | zero => simp [lastSetBit]
  | succ n ih =>
    by_cases hb : gcGetBit bm n
    · rw [lastSetBit, if_pos hb]
      exact iff_of_false nofun fun h => h n (Nat.lt_succ_self n) hb
    · rw [lastSetBit, if_neg hb, ih]
      constructor
      · intro h i hi
        rcases Nat.lt_succ_iff_lt_or_eq.mp hi with hi | rfl
        · exact h i hi
        · exact hb
      · exact fun h i hi => h i (by omega)

theorem lastSetBit_eq_some : lastSetBit bm len = some last ↔
    last < len ∧ gcGetBit bm last ∧ ∀ i, last < i → i < len → ¬ gcGetBit bm i := by
  induction len with
  | zero => simp [lastSetBit]
  | succ n ih =>
    by_cases hb : gcGetBit bm n
    · rw [lastSetBit, if_pos hb, Option.some.injEq]
      constructor
      · rintro rfl
        exact ⟨Nat.lt_succ_self _, hb, fun i hi hi' => by omega⟩
      · rintro ⟨hlt, -, habove⟩
        by_contra hne
        exact habove n (by omega) (Nat.lt_succ_self n) hb
    · rw [lastSetBit, if_neg hb, ih]
      constructor
      · rintro ⟨hlt, hset, habove⟩
        refine ⟨by omega, hset, fun i hi hi' => ?_⟩
        rcases Nat.lt_succ_iff_lt_or_eq.mp hi' with hi' | rfl
        · exact habove i hi hi'
        · exact hb
      · rintro ⟨hlt, hset, habove⟩
        have hne : last ≠ n := by
          rintro rfl
          exact hb hset
        exact ⟨by omega, hset, fun i hi hi' => habove i hi (by omega)⟩

theorem firstClearBit_eq_end : firstClearBit bm n i = i + n ↔ ∀ j < n, gcGetBit bm (i + j) := by
  induction n generalizing i with
  | zero => simp [firstClearBit]
  | succ n ih =>
    by_cases hb : gcGetBit bm i
    · rw [firstClearBit, if_pos hb, show i + (n + 1) = i + 1 + n by omega, ih]
      constructor
      · rintro h (_ | j) hj
        · exact hb
        · rw [show i + (j + 1) = i + 1 + j by omega]
          exact h j (by omega)
      · intro h j hj
        rw [show i + 1 + j = i + (j + 1) by omega]
        exact h (j + 1) (by omega)
    · rw [firstClearBit, if_neg hb]
      exact iff_of_false (by omega) fun h => hb (h 0 (Nat.succ_pos n))

/-- The descriptor is a positive length exactly when the bits are encoded by that length. -/
theorem gcMakeDescriptor_eq (hn : 0 < n) :
    gcMakeDescriptor bm len = n ↔ LengthEncoded bm len n := by
  cases hlast : lastSetBit bm len with
  | none =>
    have hzero : gcMakeDescriptor bm len = 0 := by simp only [gcMakeDescriptor, hlast]
    refine iff_of_false (by omega) fun h => ?_
    exact lastSetBit_eq_none.mp hlast (n - 1) (by have := h.le; omega) h.last
  | some last =>
    obtain ⟨hlt, hset, habove⟩ := lastSetBit_eq_some.mp hlast
    have hdense : firstClearBit bm last 0 = 0 + last ↔ _ := firstClearBit_eq_end
    simp only [Nat.zero_add] at hdense
    -- a length encodes the bits only if it ends at the last one
    have hend : ∀ {k}, LengthEncoded bm len k → k = last + 1 := by
      intro k hk
      by_contra hne
      rcases Nat.lt_or_gt_of_ne hne with h | h
      · exact hk.above last (by omega) hlt hset
      · exact habove (k - 1) (by omega) (by have := hk.le; omega) hk.last
    have hencoded : (∀ j < last, gcGetBit bm j) ∨ bitmapBits ≤ last →
        LengthEncoded bm len (last + 1) := fun h =>
      ⟨by omega, hlt, hset, fun i hi hi' => habove i (by omega) hi', h.imp id Nat.lt_succ_of_le⟩
    by_cases hd : ∀ j < last, gcGetBit bm j
    · have he : gcMakeDescriptor bm len = last + 1 := by
        simp only [gcMakeDescriptor, hlast, hdense.mpr hd, ↓reduceIte]
      rw [he]
      constructor
      · rintro rfl
        exact hencoded (.inl hd)
      · exact fun h => (hend h).symm
    · have hgap : firstClearBit bm last 0 ≠ last := fun h => hd (hdense.mp h)
      by_cases hb : last < bitmapBits
      · have he : gcMakeDescriptor bm len = 0 := by
          simp only [gcMakeDescriptor, hlast, hgap, ↓reduceIte, hb]
        refine iff_of_false (by omega) fun h => ?_
        have := hend h
        rcases h.dense with hall | hlong
        · exact hd fun j hj => hall j (by omega)
        · omega
      · have he : gcMakeDescriptor bm len = last + 1 := by
          simp only [gcMakeDescriptor, hlast, hgap, ↓reduceIte, hb]
        rw [he]
        constructor
        · rintro rfl
          exact hencoded (.inr (by omega))
        · exact fun h => (hend h).symm

theorem gcMakeDescriptor_le : gcMakeDescriptor bm len ≤ len := by
  rcases Nat.eq_zero_or_pos (gcMakeDescriptor bm len) with h | h
  · omega
  · exact ((gcMakeDescriptor_eq h).mp rfl).le

/--
A trace covers the bitmap: it examines the words of all set bits, exactly these if it was given
a bitmap, and all words up to the last of them if it was given a length.
-/
structure Covers (bm : ℕ → ℕ) (len descr address : ℕ) (r : Trace) : Prop where
  marked : ∀ i < len, bitmapBit bm i → address + 8 * i ∈ r.examined
  exact_of_bitmap : descr % 4 = 1 →
    ∀ a ∈ r.examined, ∃ i < len, bitmapBit bm i ∧ a = address + 8 * i
  upto_of_length : descr % 4 = 0 →
    ∀ i j, i ≤ j → j < len → bitmapBit bm j → address + 8 * i ∈ r.examined

/--
Every object of a kind with the descriptor of the bitmap that has a word for each bit is traced
and covered. Its header lies in front of it and its words in the address space.
-/
def CoversObjects (bm : ℕ → ℕ) (len : ℕ) : Prop :=
  ∀ (vm : BDWGC) (heap : Heap) (object : Object) (kind : ℕ) (entry : ObjKind),
    vm.objKinds kind = some entry → entry.okDescriptor = gcMakeDescriptor bm len →
    object.kind = .withDescr kind → object.isAtomic = false →
    8 ≤ object.address → object.address + 8 * len < 2 ^ 64 →
    ∃ r, TraceReturns vm heap object r ∧ Covers bm len entry.okDescriptor object.address r

/--
The bits are encoded by a length that is a multiple of four and eight times as long as the
bitmap reaches, or no bit is set and the length does not read as a bitmap or another place,
or no object has as many words.
-/
def CoveredInput (bm : ℕ → ℕ) (len : ℕ) : Prop :=
  (∃ n, LengthEncoded bm len n ∧ n % 4 = 0 ∧ ∀ i < len, bitmapBit bm i → 8 * i < n) ∨
    ((∀ i < len, ¬ bitmapBit bm i) ∧ ∀ n, LengthEncoded bm len n → n = 1 ∨ n % 2 = 0) ∨
    2 ^ 64 ≤ 8 * (len + 1)

variable {vm : BDWGC} {heap : Heap} {object : Object} {kind : ℕ} {entry : ObjKind} {r : Trace}

/-- A length descriptor makes the callback scan that many bytes of the object. -/
theorem traceReturns_length (hkind : object.kind = .withDescr kind)
    (ha : object.isAtomic = false) (hk : vm.objKinds kind = some entry)
    (htag : entry.okDescriptor % 4 = 0) (hle : entry.okDescriptor ≤ len)
    (hobj : object.address + 8 * len < 2 ^ 64) :
    ∃ r, TraceReturns vm heap object r ∧ ∀ a, a ∈ r.examined ↔
      ∃ i, 8 * i < entry.okDescriptor ∧ a = object.address + 8 * i := by
  have hlt := object.address_lt
  have hend : (object.address + entry.okDescriptor) % 2 ^ 64 =
      object.address + entry.okDescriptor := by omega
  have hrange : ∃ r, Loop.Returns (traceRound vm heap object)
      (.range object.address (object.address + entry.okDescriptor), .start) r ∧ _ :=
    range_returns hlt (by omega)
  obtain ⟨r, hr, hmem⟩ := hrange
  refine ⟨r, ?_, fun a => ?_⟩
  · rw [traceReturns_iff hkind ha, Loop.returns_of_inl (retryRound_length hk htag), hend]
    exact hr
  · rw [hmem]
    simp [Trace.start]

theorem traceReturns_empty_bitmap (hkind : object.kind = .withDescr kind)
    (ha : object.isAtomic = false) (hk : vm.objKinds kind = some entry)
    (hone : entry.okDescriptor = 1) : TraceReturns vm heap object r ↔ r = .start := by
  rw [traceReturns_iff hkind ha, Loop.returns_of_inl (retryRound_bitmap hk (by omega)), hone]
  exact Loop.returns_of_inr traceRound_bitmap_end

theorem traceReturns_proc (hkind : object.kind = .withDescr kind)
    (ha : object.isAtomic = false) (hk : vm.objKinds kind = some entry)
    (htag : entry.okDescriptor % 4 = 2) : TraceReturns vm heap object r ↔
      r = match vm.proc entry.okDescriptor with
        | none => .start
        | some proc => proc heap object.address (BDWGC.env entry.okDescriptor) .start := by
  rw [traceReturns_iff hkind ha]
  exact Loop.returns_of_inr (retryRound_proc hk htag)

/-- A bitmap is covered wherever its length happens to read as enough bytes. -/
theorem CoveredInput.coversObjects (h : CoveredInput bm len) : CoversObjects bm len := by
  intro vm heap object kind entry hk hdescr hkind ha hheader hobj
  have hle : entry.okDescriptor ≤ len := hdescr ▸ gcMakeDescriptor_le
  rcases h with ⟨n, hn, htag, hbits⟩ | ⟨hclear, hn⟩ | hlong
  · have hd : entry.okDescriptor = n := hdescr.trans ((gcMakeDescriptor_eq hn.pos).mpr hn)
    obtain ⟨r, hr, hmem⟩ : ∃ r, TraceReturns vm heap object r ∧ _ :=
      traceReturns_length hkind ha hk (by omega) hle hobj
    refine ⟨r, hr, fun i hi hb => ?_, fun h1 => by omega, fun _ i j hij hj hb => ?_⟩
    · exact (hmem _).mpr ⟨i, by have := hbits i hi hb; omega, rfl⟩
    · exact (hmem _).mpr ⟨i, by have := hbits j hj hb; omega, rfl⟩
  · have hcover : ∀ r : Trace, (entry.okDescriptor % 4 = 1 → r.examined = []) →
        Covers bm len entry.okDescriptor object.address r := fun r hr =>
      ⟨fun i hi hb => absurd hb (hclear i hi), fun h1 a ha => by simp [hr h1] at ha,
        fun _ _ j _ hj hb => absurd hb (hclear j hj)⟩
    have hread : entry.okDescriptor = 1 ∨ entry.okDescriptor % 2 = 0 := by
      rcases Nat.eq_zero_or_pos (gcMakeDescriptor bm len) with h0 | hpos
      · omega
      · rw [hdescr]
        exact hn _ ((gcMakeDescriptor_eq hpos).mp rfl)
    rcases hread with hone | heven
    · exact ⟨.start, (traceReturns_empty_bitmap hkind ha hk hone).mpr rfl, hcover _ fun _ => rfl⟩
    · obtain htag | htag : entry.okDescriptor % 4 = 0 ∨ entry.okDescriptor % 4 = 2 := by omega
      · obtain ⟨r, hr, -⟩ : ∃ r, TraceReturns vm heap object r ∧ _ :=
          traceReturns_length hkind ha hk htag hle hobj
        exact ⟨r, hr, hcover r fun h1 => by omega⟩
      · exact ⟨_, (traceReturns_proc hkind ha hk htag).mpr rfl, hcover _ fun h1 => by omega⟩
  · omega

/-- One covered object is enough when there are no mark procedures. -/
theorem Covers.coveredInput (hk : vm.objKinds kind = some entry)
    (hdescr : entry.okDescriptor = gcMakeDescriptor bm len)
    (hkind : object.kind = .withDescr kind) (ha : object.isAtomic = false)
    (hobj : object.address + 8 * len < 2 ^ 64) (hproc : ∀ d, vm.proc d = none)
    (hr : TraceReturns vm heap object r)
    (hc : Covers bm len entry.okDescriptor object.address r) : CoveredInput bm len := by
  have hle : entry.okDescriptor ≤ len := hdescr ▸ gcMakeDescriptor_le
  have hencoded : ∀ {n}, LengthEncoded bm len n → n = entry.okDescriptor := fun hn =>
    ((hdescr.trans ((gcMakeDescriptor_eq hn.pos).mpr hn))).symm
  have hends : TraceEnds heap object entry.okDescriptor :=
    (retry_terminates_iff hk).mp ⟨r, (traceReturns_iff hkind ha).mp hr⟩
  have hclear : r.examined = [] → ∀ i < len, ¬ bitmapBit bm i := fun he i hi hb => by
    have := hc.marked i hi hb
    simp [he] at this
  obtain htag | htag | htag | htag : entry.okDescriptor % 4 = 0 ∨ entry.okDescriptor % 4 = 1 ∨
      entry.okDescriptor % 4 = 2 ∨ entry.okDescriptor % 4 = 3 := by omega
  · obtain ⟨r', hr', hmem⟩ : ∃ r, TraceReturns vm heap object r ∧ _ :=
      traceReturns_length hkind ha hk htag hle hobj
    rw [traceReturns_iff hkind ha] at hr hr'
    obtain rfl := hr.unique hr'
    have hbits : ∀ i < len, bitmapBit bm i → 8 * i < entry.okDescriptor := fun i hi hb => by
      obtain ⟨j, hj, he⟩ := (hmem _).mp (hc.marked i hi hb)
      omega
    rcases Nat.eq_zero_or_pos entry.okDescriptor with h0 | hpos
    · refine .inr (.inl ⟨fun i hi hb => ?_, fun n hn => .inr ?_⟩)
      · have := hbits i hi hb
        omega
      · rw [hencoded hn, h0]
    · exact .inl ⟨_, (gcMakeDescriptor_eq hpos).mp hdescr.symm, htag, hbits⟩
  · have hlow : entry.okDescriptor - entry.okDescriptor % 4 = 0 := by
      simp only [TraceEnds, htag] at hends
      rw [htag]
      exact hends.eq_zero (by omega)
    have hone : entry.okDescriptor = 1 := by omega
    obtain rfl := (traceReturns_empty_bitmap hkind ha hk hone).mp hr
    exact .inr (.inl ⟨hclear rfl, fun n hn => .inl ((hencoded hn).trans hone)⟩)
  · rw [traceReturns_proc hkind ha hk htag, hproc] at hr
    subst hr
    exact .inr (.inl ⟨hclear rfl, fun n hn => .inr (by rw [hencoded hn]; omega)⟩)
  · simp only [TraceEnds, htag] at hends
    omega

theorem CoversObjects.coveredInput (h : CoversObjects bm len) : CoveredInput bm len := by
  by_cases hlen : 2 ^ 64 ≤ 8 * (len + 1)
  · exact .inr (.inr hlen)
  · have hle : gcMakeDescriptor bm len ≤ len := gcMakeDescriptor_le
    have hd : gcMakeDescriptor bm len < 2 ^ 64 := by omega
    have hobj : 8 + 8 * len < 2 ^ 64 := by omega
    obtain ⟨r, hr, hc⟩ := h ⟨fun _ => none, fun _ => some ⟨_, false, true, hd⟩, 1⟩ .empty
      ⟨8, 0, 8 * (len + 1), .withDescr 0, false, by decide⟩ 0 _ rfl rfl rfl rfl (Nat.le_refl 8) hobj
    exact hc.coveredInput rfl rfl rfl rfl hobj (fun _ => rfl) hr

/-- Every object is covered exactly when the slips of the encoding cancel for the bitmap. -/
theorem descriptor_covers_iff (bm : ℕ → ℕ) (len : ℕ) :
    CoversObjects bm len ↔ CoveredInput bm len :=
  ⟨CoversObjects.coveredInput, CoveredInput.coversObjects⟩

/-- The bitmap of an object whose second word is its only reference becomes an empty length. -/
theorem descriptor_drops_bitmap :
    gcMakeDescriptor (fun i => if i = 0 then 2 else 0) 2 = 0 ∧
      bitmapBit (fun i => if i = 0 then 2 else 0) 1 ∧
      ¬ CoversObjects (fun i => if i = 0 then 2 else 0) 2 := by
  refine ⟨by decide, by decide, fun h => ?_⟩
  rcases h.coveredInput with ⟨n, hn, htag, -⟩ | ⟨hclear, -⟩ | hlong
  · have := hn.pos
    have := hn.le
    omega
  · exact hclear 1 (by decide) (by decide)
  · omega

end VmkitCore.Descriptors
