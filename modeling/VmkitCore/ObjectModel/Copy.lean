import VmkitCore.ObjectModel.Hashing

/-! # Copying objects

`copy` moves an object to a block of the copy allocator, `copy_to` to a reference
that was computed before. Both size the move with `bytes_required_when_copied`.
`copy` asks the source for it, `copy_to` asks the destination, whose header has not
been written yet.
-/

namespace VmkitCore

open VMKitObject

/-- `alloc_copy`, which aligns the block at the given offset into it. -/
structure CopyAllocator where
  allocCopy : (bytes align offset : ℕ) → ℕ
  dvd_allocCopy : ∀ bytes k offset, 3 ≤ k → 2 ^ k ∣ allocCopy bytes (2 ^ k) offset + offset

/-- The allocator that starts looking at the given address. -/
def CopyAllocator.startingAt (address : ℕ) : CopyAllocator where
  allocCopy _ align offset := Conversions.byDivision.rawAlignUp (address + offset) align - offset
  dvd_allocCopy _ k offset _ := by
    have hle := Conversions.byDivision.le_rawAlignUp (address + offset) k
    rw [Nat.sub_add_cancel (by omega)]
    exact Conversions.byDivision.dvd_rawAlignUp _ _

/-- `fill_alignment_gap`, which writes between the two addresses. -/
structure GapFiller where
  fillAlignmentGap : ByteMemory → (immutStart finish : ℕ) → ByteMemory
  fill_outside : ∀ {m immutStart finish x}, immutStart ≤ finish → x < immutStart ∨ finish ≤ x →
    fillAlignmentGap m immutStart finish x = m x

/-- The filler that writes zeros. -/
def GapFiller.zeros : GapFiller where
  fillAlignmentGap m immutStart finish x := if immutStart ≤ x ∧ x < finish then 0 else m x
  fill_outside _ hx := if_neg (by omega)

/-- Instance size and computed size, the bytes from the reference on. -/
def VMKitObject.payloadBytes (vm : VirtualMachine) (m : ByteMemory) (o : VMKitObject) :
    Option ℕ := do
  let gc ← o.gcMetadata vm m
  some (gc.instanceSize + (gc.computeSize.map fun f => f m o).getD 0)

/-- `compute_size` depends on the metadata and the payload of an object only. -/
def VirtualMachine.SizesByContents (vm : VirtualMachine) : Prop :=
  ∀ {m m' : ByteMemory} {o o' : VMKitObject} {n : ℕ}, o.payloadBytes vm m = some n →
    o'.metadata vm m' = o.metadata vm m →
    (∀ i < n, m' (o'.address + i) = m (o.address + i)) → o'.payloadBytes vm m' = some n

namespace VMKitObjectModel

/-- The memory after the call and the reference of the copy. -/
def copy (vm : VirtualMachine) (allocCopy : (bytes align offset : ℕ) → ℕ) (m : ByteMemory)
    (fromObj : VMKitObject) : Option (ByteMemory × VMKitObject) := do
  let bytes ← fromObj.bytesRequiredWhenCopied vm m
  let align ← fromObj.alignment vm m
  let offset ← fromObj.getOffsetForAlignment vm m
  let addr := allocCopy bytes align offset
  moveObject vm m fromObj (.toAddress addr) bytes

/-- The byte count that `copy_to` uses, and the memory after the move if there is one. -/
def copyToMove (vm : VirtualMachine) (m : ByteMemory) (fromObj toObj : VMKitObject) :
    Option (ℕ × ByteMemory) := do
  if fromObj ≠ toObj then
    let bytes ← toObj.bytesRequiredWhenCopied vm m
    let (m', _) ← moveObject vm m fromObj (.toObject toObj) bytes
    some (bytes, m')
  else
    let bytes ← fromObj.bytesUsed vm m
    some (bytes, m)

/-- The memory after the call and the returned end of the object. -/
def copyTo (vm : VirtualMachine) (filler : GapFiller) (m : ByteMemory)
    (fromObj toObj : VMKitObject) (region : ℕ) : Option (ByteMemory × ℕ) := do
  let (bytes, m') ← copyToMove vm m fromObj toObj
  let start ← toObj.objectStart vm m'
  some (filler.fillAlignmentGap m' region start, start + bytes)

end VMKitObjectModel

namespace VMKitObject

variable {vm : VirtualMachine} {m m₂ m' : ByteMemory} {o o' : VMKitObject} {state : HashState}
  {n numBytes : ℕ}

theorem exists_payloadBytes (ho : objectRefOffset ≤ o.address) :
    ∃ n, o.payloadBytes vm m = some n := by
  obtain ⟨bits, hb⟩ : ∃ bits, o.metadata vm m = some bits :=
    ⟨_, by rw [metadata, header_eq ho]; rfl⟩
  exact ⟨_, by rw [payloadBytes, gcMetadata, hb]; rfl⟩

/-- The size of a block is the aligned sum of its hash word, payload and header. -/
theorem bytesWith_eq (hp : o.payloadBytes vm m = some n) {whenCopied : Bool} {overhead : ℕ}
    (hv : o.hashcodeOverhead vm m whenCopied = some overhead) :
    o.bytesWith vm m whenCopied =
      some (vm.conversions.rawAlignUp (overhead + n + headerBytes) 8) := by
  unfold payloadBytes at hp
  obtain ⟨gc, hgc, hn⟩ := Option.bind_eq_some_iff.mp hp
  obtain rfl := Option.some.inj hn
  simp only [bytesWith, hgc, hv, Option.bind_eq_bind, Option.bind_some, Nat.add_assoc]

theorem setHashState_outside {x : ℕ} (h : o.setHashState vm m state = some m')
    (hx : ByteMemory.Disjoint (o.address - objectRefOffset) headerBytes x 1) : m' x = m x := by
  unfold setHashState at h
  obtain ⟨a, ha, hm⟩ := Option.bind_eq_some_iff.mp h
  obtain rfl := Option.some.inj hm
  unfold header at ha
  split at ha
  · cases ha
  · obtain rfl := Option.some.inj ha
    exact ByteMemory.store_apply_outside hx

/-- The aligned size of header and payload, and a word for the hash code where one is counted. -/
theorem bytesWith_eq_base (habh : vm.addressBasedHashing = true)
    (hs : o.hashState vm m = some state) (hp : o.payloadBytes vm m = some n) (whenCopied : Bool) :
    o.bytesWith vm m whenCopied = some (vm.conversions.rawAlignUp (headerBytes + n) 8 +
      if (if whenCopied then state ≠ .unhashed else state = .hashedAndMoved) then 8 else 0) := by
  have hround : vm.conversions.rawAlignUp (8 + n + headerBytes) 8 =
      vm.conversions.rawAlignUp (headerBytes + n) 8 + 8 := by
    rw [Nat.add_assoc, Nat.add_comm 8, Nat.add_comm n]
    exact vm.conversions.rawAlignUp_add _ 3
  rw [bytesWith_eq hp (hashcodeOverhead_eq habh hs whenCopied)]
  cases whenCopied <;> cases state <;> simp [hround, Nat.add_comm n]

/-- A copied object needs as many more bytes as it gets in front of its reference. -/
theorem bytesUsed_add (habh : vm.addressBasedHashing = true) (hs : o.hashState vm m = some state)
    (hp : o.payloadBytes vm m = some n) {used : ℕ} (hu : o.bytesUsed vm m = some used)
    (hb : o.bytesRequiredWhenCopied vm m = some numBytes) :
    used + state.frontBytesWhenCopied = numBytes + state.frontBytes := by
  rw [bytesUsed, bytesWith_eq_base habh hs hp, Option.some.injEq] at hu
  rw [bytesRequiredWhenCopied, bytesWith_eq_base habh hs hp, Option.some.injEq] at hb
  cases state <;>
    simp [HashState.frontBytes, HashState.frontBytesWhenCopied, hashcodeOffset,
      objectRefOffset] at hu hb ⊢ <;>
    omega

/-- A block that is large enough for the copy holds the front bytes and the payload. -/
theorem payload_le (habh : vm.addressBasedHashing = true) (hs : o.hashState vm m = some state)
    (hp : o.payloadBytes vm m = some n) (hb : o.bytesRequiredWhenCopied vm m = some numBytes) :
    state.frontBytesWhenCopied + n ≤ numBytes := by
  rw [bytesRequiredWhenCopied, bytesWith_eq hp (hashcodeOverhead_eq habh hs true)] at hb
  obtain rfl := Option.some.inj hb
  refine le_trans ?_ (vm.conversions.le_rawAlignUp _ 3)
  cases state <;>
    simp [HashState.frontBytesWhenCopied, hashcodeOffset, objectRefOffset, headerBytes] <;> omega

end VMKitObject

namespace VMKitObjectModel

variable {vm : VirtualMachine} {m m₂ m' : ByteMemory} {o o' : VMKitObject} {state : HashState}
  {n numBytes addr align : ℕ} {target : MoveTarget}

/-- A move carries the payload and a stored hash word, and writes only its block. -/
theorem moveObject_bytes (hs : o.hashState vm m = some state) (ho : state.frontBytes ≤ o.address)
    (ht : state.frontBytesWhenCopied ≤ (target.reference state).address)
    (hn : state.frontBytesWhenCopied ≤ numBytes)
    (h : moveObject vm m o target numBytes = some (m', o')) :
    o' = target.reference state ∧
      (∀ i, state.frontBytesWhenCopied + i < numBytes →
        m' (o'.address + i) = m (o.address + i)) ∧
      (state = .hashedAndMoved → m'.load (o'.address - hashcodeOffset) 8 =
        m.load (o.address - hashcodeOffset) 8) ∧
      ∀ x, ByteMemory.Disjoint (o'.address - state.frontBytesWhenCopied) numBytes x 1 →
        m' x = m x := by
  rw [moveObject_eq hs ht hn] at h
  obtain ⟨_, hset, heq⟩ := Option.map_eq_some_iff.mp h
  obtain ⟨rfl, rfl⟩ := Prod.mk.inj heq
  have hf := objectRefOffset_le_frontBytes state
  have hfw : state.frontBytes ≤ state.frontBytesWhenCopied := by
    cases state <;> simp [HashState.frontBytesWhenCopied, HashState.frontBytes, hashcodeOffset]
  generalize target.reference state = o' at *
  refine ⟨rfl, fun i hi => ?_, ?_, fun x hx => ?_⟩
  · have hto : o'.address + i = o'.address - state.frontBytes + (state.frontBytes + i) := by omega
    have hfrom : o.address + i = o.address - state.frontBytes + (state.frontBytes + i) := by omega
    rw [setHashState_outside hset, hto, hfrom]
    · exact placed_apply ht (by omega)
    · unfold ByteMemory.Disjoint objectRefOffset headerBytes at *
      omega
  · rintro rfl
    refine ByteMemory.load_congr fun i hi => ?_
    rw [setHashState_outside hset]
    · refine placed_apply ht ?_
      simp only [HashState.frontBytesWhenCopied, HashState.frontBytes, hashcodeOffset,
        objectRefOffset] at *
      omega
    · simp only [HashState.frontBytesWhenCopied, hashcodeOffset, objectRefOffset, headerBytes,
        ByteMemory.Disjoint] at *
      omega
  · rw [setHashState_outside hset]
    · exact placed_outside ht hn hx
    · have := objectRefOffset_le_frontBytesWhenCopied state
      unfold ByteMemory.Disjoint objectRefOffset headerBytes at *
      omega

/-- What a copy to a block leaves at its reference, and that it stays inside the block. -/
structure CopiedTo (vm : VirtualMachine) (m : ByteMemory) (o : VMKitObject)
    (addr bytes align : ℕ) (m' : ByteMemory) (o' : VMKitObject) : Prop where
  reference : getReferenceWhenCopiedTo vm m o addr = some o'
  aligned : align ∣ o'.address
  payload : ∃ n, o.payloadBytes vm m = some n ∧ ∀ i < n, m' (o'.address + i) = m (o.address + i)
  metadata : o'.metadata vm m' = o.metadata vm m
  hashWord : o.hashState vm m ≠ some .unhashed →
    HashcodeReturns vm (m'.load (o'.address - hashcodeOffset) 8) ⟨m, o⟩
  outside : ∀ x, ByteMemory.Disjoint addr bytes x 1 → m' x = m x

/-- An object copied to an aligned block keeps payload, metadata and stored hash code. -/
theorem copy_spec (habh : vm.addressBasedHashing = true) (hl : ObjectState.Live vm ⟨m, o⟩)
    (allocator : CopyAllocator) {k : ℕ} (hk : 3 ≤ k) (halign : o.alignment vm m = some (2 ^ k)) :
    ∃ bytes offset m' o', o.bytesRequiredWhenCopied vm m = some bytes ∧
      o.getOffsetForAlignment vm m = some offset ∧
      copy vm allocator.allocCopy m o = some (m', o') ∧
      CopiedTo vm m o (allocator.allocCopy bytes (2 ^ k) offset) bytes (2 ^ k) m' o' := by
  obtain ⟨state, hs, ho, hend⟩ := id hl
  dsimp only at hs ho hend
  obtain ⟨bytes, hb, hle⟩ := bytesRequiredWhenCopied_spec hl.front habh hs
  obtain ⟨n, hp⟩ : ∃ n, o.payloadBytes vm m = some n := exists_payloadBytes hl.front
  have hoff : o.getOffsetForAlignment vm m = some state.frontBytesWhenCopied := by
    rw [getOffsetForAlignment, hashcodeOverhead_eq habh hs]
    cases state <;> rfl
  have hdvd := allocator.dvd_allocCopy bytes k state.frontBytesWhenCopied hk
  generalize haddr : allocator.allocCopy bytes (2 ^ k) state.frontBytesWhenCopied = addr at hdvd
  have hfit : state.frontBytesWhenCopied ≤ ((MoveTarget.toAddress addr).reference state).address :=
    Nat.le_add_left _ _
  obtain ⟨m', hm', -, hmd, hhash⟩ := moveObject_spec habh hs ho hfit hle
  obtain ⟨-, hpay, hword, hout⟩ := moveObject_bytes hs ho hfit hle hm'
  refine ⟨bytes, _, m', (MoveTarget.toAddress addr).reference state, hb, hoff, ?_, ?_⟩
  · simp only [copy, hb, halign, hoff, Option.bind_eq_bind, Option.bind_some, haddr, hm']
  · rw [haddr]
    refine ⟨getReferenceWhenCopiedTo_eq habh hs addr, hdvd, ⟨n, hp, fun i hi => ?_⟩, hmd,
      fun hne => ?_, fun x hx => hout x ?_⟩
    · have := payload_le habh hs hp hb
      exact hpay i (by omega)
    · rw [hashcodeReturns_iff habh hl hs]
      cases state with
      | unhashed => exact absurd hs hne
      | hashed =>
        rw [hhash rfl, Nat.mod_eq_of_lt]
        simp only [Nat.shiftRight_eq_div_pow]
        omega
      | hashedAndMoved => exact hword rfl
    · simpa [MoveTarget.reference] using hx

/-- An object with a stored hash word, copied to the next aligned block after 4099. -/
theorem copy_spec_stored_hash : ∃ bytes offset m' o',
    VMKitObject.bytesRequiredWhenCopied (.fixedSize 16) (fun x => if x = 1031 then 128 else 0)
      ⟨1032⟩ = some bytes ∧
    VMKitObject.getOffsetForAlignment (.fixedSize 16) (fun x => if x = 1031 then 128 else 0)
      ⟨1032⟩ = some offset ∧
    copy (.fixedSize 16) (CopyAllocator.startingAt 4099).allocCopy
      (fun x => if x = 1031 then 128 else 0) ⟨1032⟩ = some (m', o') ∧
    CopiedTo (.fixedSize 16) (fun x => if x = 1031 then 128 else 0) ⟨1032⟩
      ((CopyAllocator.startingAt 4099).allocCopy bytes (2 ^ 3) offset) bytes (2 ^ 3) m' o' :=
  copy_spec rfl ⟨.hashedAndMoved, by decide, by decide, by decide⟩ _ (Nat.le_refl 3) (by decide)

/-- `copy_to` moves the bytes the source requires, to `addr`, and returns their end. -/
def CopiesExactly (vm : VirtualMachine) (filler : GapFiller) (o o' : VMKitObject)
    (addr region : ℕ) (m : ByteMemory) : Prop :=
  ∃ bytes m₁ m', o.bytesRequiredWhenCopied vm m = some bytes ∧
    copyToMove vm m o o' = some (bytes, m₁) ∧
    copyTo vm filler m o o' region = some (m', addr + bytes) ∧
    o'.metadata vm m' = o.metadata vm m ∧
    ∃ n, o.payloadBytes vm m = some n ∧ ∀ i < n, m' (o'.address + i) = m (o.address + i)

theorem objectStart_eq (habh : vm.addressBasedHashing = true)
    (hs : o.hashState vm m = some state) :
    o.objectStart vm m = some (o.address - state.frontBytes) := by
  rw [objectStart, hashcodeOverhead_eq habh hs]
  cases state <;> rfl

theorem copyToMove_eq_some (hne : o ≠ o') {m₁ : ByteMemory} {bytes : ℕ} :
    copyToMove vm m o o' = some (bytes, m₁) ↔ o'.bytesRequiredWhenCopied vm m = some bytes ∧
      ∃ r, moveObject vm m o (.toObject o') bytes = some (m₁, r) := by
  simp only [copyToMove, ne_eq, hne, not_false_eq_true, ↓reduceIte, Option.bind_eq_bind,
    Option.bind_eq_some_iff, Option.some.injEq, Prod.mk.injEq, Prod.exists]
  constructor
  · rintro ⟨b, hb, m', r, hm, rfl, rfl⟩
    exact ⟨hb, r, hm⟩
  · rintro ⟨hb, r, hm⟩
    exact ⟨bytes, hb, m₁, r, hm, rfl, rfl⟩

/-- One call is exact when the destination reads as large and the source has no stored hash. -/
theorem copiesExactly_iff (habh : vm.addressBasedHashing = true)
    (hl : ObjectState.Live vm ⟨m, o⟩) (filler : GapFiller)
    (hto : getReferenceWhenCopiedTo vm m o addr = some o') (hne : o ≠ o') {region : ℕ}
    (hregion : region ≤ addr) :
    CopiesExactly vm filler o o' addr region m ↔
      o.hashState vm m ≠ some .hashedAndMoved ∧
        o'.bytesRequiredWhenCopied vm m = o.bytesRequiredWhenCopied vm m := by
  obtain ⟨state, hs, ho, -⟩ := id hl
  dsimp only at hs ho
  obtain ⟨bytes, hb, hle⟩ := bytesRequiredWhenCopied_spec hl.front habh hs
  dsimp only at hb
  rw [getReferenceWhenCopiedTo_eq habh hs, Option.some.injEq] at hto
  have haddr : o'.address = addr + state.frontBytesWhenCopied := by rw [← hto]; rfl
  have hfit : state.frontBytesWhenCopied ≤ ((MoveTarget.toObject o').reference state).address := by
    simp only [MoveTarget.reference]
    omega
  obtain ⟨m₁, hm₁, hst, hmd, -⟩ := moveObject_spec habh hs ho hfit hle
  obtain ⟨-, hpay, -, -⟩ := moveObject_bytes hs ho hfit hle hm₁
  simp only [MoveTarget.reference] at hm₁ hst hmd hpay
  have hstart := objectStart_eq habh hst
  constructor
  · rintro ⟨bytes', m₁', m', hb', hmove, hcopy, -⟩
    obtain rfl : bytes = bytes' := Option.some.inj (hb.symm.trans hb')
    obtain ⟨hto, r, hr⟩ := (copyToMove_eq_some hne).mp hmove
    obtain ⟨rfl, rfl⟩ : m₁ = m₁' ∧ o' = r := by simpa using hm₁.symm.trans hr
    refine ⟨fun hh => ?_, hto.trans hb.symm⟩
    obtain rfl : state = .hashedAndMoved := Option.some.inj (hs.symm.trans hh)
    simp only [copyTo, hmove, hstart, Option.bind_eq_bind, Option.bind_some, Option.some.injEq,
      Prod.mk.injEq, HashState.afterMove, HashState.frontBytes, HashState.frontBytesWhenCopied,
      hashcodeOffset, objectRefOffset] at hcopy haddr
    omega
  · rintro ⟨hne', hto⟩
    have hmove : copyToMove vm m o o' = some (bytes, m₁) :=
      (copyToMove_eq_some hne).mpr ⟨hto.trans hb, _, hm₁⟩
    have hfront : state.afterMove.frontBytes = state.frontBytesWhenCopied := by
      cases state with
      | hashedAndMoved => exact absurd hs hne'
      | unhashed | hashed => rfl
    have hstart' : o'.address - state.afterMove.frontBytes = addr := by omega
    have hfront8 := objectRefOffset_le_frontBytesWhenCopied state
    rw [hstart'] at hstart
    obtain ⟨n, hp⟩ : ∃ n, o.payloadBytes vm m = some n := exists_payloadBytes hl.front
    refine ⟨bytes, m₁, filler.fillAlignmentGap m₁ region addr, hb, hmove, ?_, ?_, n, hp,
      fun i hi => ?_⟩
    · simp only [copyTo, hmove, hstart, Option.bind_eq_bind, Option.bind_some]
    · rw [← hmd]
      refine (hashState_congr (by omega) (by omega) (ByteMemory.load_congr fun i hi => ?_)).2
      exact filler.fill_outside hregion (.inr (by omega))
    · have := payload_le habh hs hp hb
      rw [filler.fill_outside hregion (.inr (by omega))]
      exact hpay i (by omega)

/-- The memories agree outside the block and on the bytes of the source. -/
def AgreeOffBlock (vm : VirtualMachine) (o : VMKitObject) (addr bytes : ℕ) (m m₂ : ByteMemory) :
    Prop :=
  ∃ start used, o.objectStart vm m = some start ∧ o.bytesUsed vm m = some used ∧
    ∀ x, ByteMemory.Disjoint addr bytes x 1 ∨ (start ≤ x ∧ x < start + used) → m x = m₂ x

/-- Memories that agree on the source read the same object there. -/
theorem AgreeOffBlock.source (habh : vm.addressBasedHashing = true) (hsz : vm.SizesByContents)
    {bytes : ℕ} (hs : o.hashState vm m = some state) (ho : state.frontBytes ≤ o.address)
    (hp : o.payloadBytes vm m = some n) (hb : o.bytesRequiredWhenCopied vm m = some bytes)
    (h : AgreeOffBlock vm o addr bytes m m₂) :
    o.hashState vm m₂ = some state ∧ o.payloadBytes vm m₂ = some n ∧
      ∀ i, i + state.frontBytesWhenCopied < bytes + state.frontBytes →
        m (o.address - state.frontBytes + i) = m₂ (o.address - state.frontBytes + i) := by
  obtain ⟨start, used, hstart, hused, h⟩ := h
  rw [objectStart_eq habh hs, Option.some.injEq] at hstart
  have hadd := bytesUsed_add habh hs hp hused hb
  have hfit := payload_le habh hs hp hb
  have hbytes : ∀ i, i + state.frontBytesWhenCopied < bytes + state.frontBytes →
      m (o.address - state.frontBytes + i) = m₂ (o.address - state.frontBytes + i) :=
    fun i hi => h _ (.inr (by omega))
  have hf := objectRefOffset_le_frontBytes state
  have hheader : m₂.load (o.address - objectRefOffset) headerBytes =
      m.load (o.address - objectRefOffset) headerBytes := by
    refine ByteMemory.load_congr fun i hi => ?_
    have hx : o.address - objectRefOffset + i =
        o.address - state.frontBytes + (state.frontBytes - objectRefOffset + i) := by omega
    rw [hx]
    refine (hbytes _ ?_).symm
    have := objectRefOffset_le_frontBytesWhenCopied state
    unfold objectRefOffset headerBytes at *
    omega
  obtain ⟨hst, hmd⟩ : o.hashState vm m₂ = o.hashState vm m ∧ _ :=
    hashState_congr (by omega) (by omega) hheader
  refine ⟨hst.trans hs, hsz hp hmd fun i hi => ?_, hbytes⟩
  have hx : o.address + i = o.address - state.frontBytes + (state.frontBytes + i) := by omega
  rw [hx]
  exact (hbytes _ (by omega)).symm

/--
Two calls whose memories differ only in old bytes of the destination are both exact and give
one result exactly when the destination reads as large as the source in both and the source
has no stored hash.
-/
theorem copy_to_exact_iff (habh : vm.addressBasedHashing = true) (hsz : vm.SizesByContents)
    (hl : ObjectState.Live vm ⟨m, o⟩) (filler : GapFiller)
    (hto : getReferenceWhenCopiedTo vm m o addr = some o') (hne : o ≠ o') {region : ℕ}
    (hregion : region ≤ addr) {bytes : ℕ} (hb : o.bytesRequiredWhenCopied vm m = some bytes)
    (hagree : AgreeOffBlock vm o addr bytes m m₂) :
    (CopiesExactly vm filler o o' addr region m ∧ CopiesExactly vm filler o o' addr region m₂ ∧
        copyTo vm filler m o o' region = copyTo vm filler m₂ o o' region) ↔
      o.hashState vm m ≠ some .hashedAndMoved ∧
        o'.bytesRequiredWhenCopied vm m = some bytes ∧
        o'.bytesRequiredWhenCopied vm m₂ = some bytes := by
  obtain ⟨state, hs, ho, hend⟩ := id hl
  dsimp only at hs ho hend
  obtain ⟨n, hp⟩ : ∃ n, o.payloadBytes vm m = some n := exists_payloadBytes hl.front
  obtain ⟨hs₂, hp₂, hsource⟩ := hagree.source habh hsz hs ho hp hb
  have hl₂ : ObjectState.Live vm ⟨m₂, o⟩ := ⟨state, hs₂, ho, hend⟩
  have hto₂ : getReferenceWhenCopiedTo vm m₂ o addr = some o' := by
    rw [getReferenceWhenCopiedTo_eq habh hs₂, ← getReferenceWhenCopiedTo_eq habh hs, hto]
  have hb₂ : o.bytesRequiredWhenCopied vm m₂ = some bytes := by
    rw [bytesRequiredWhenCopied, bytesWith_eq hp (hashcodeOverhead_eq habh hs true)] at hb
    rw [bytesRequiredWhenCopied, bytesWith_eq hp₂ (hashcodeOverhead_eq habh hs₂ true), hb]
  rw [copiesExactly_iff habh hl filler hto hne hregion,
    copiesExactly_iff habh hl₂ filler hto₂ hne hregion, hs, hs₂, hb, hb₂]
  constructor
  · rintro ⟨⟨hst, hb'⟩, ⟨-, hb₂'⟩, -⟩
    exact ⟨hst, hb', hb₂'⟩
  · rintro ⟨hst, hb', hb₂'⟩
    refine ⟨⟨hst, hb'⟩, ⟨hst, hb₂'⟩, ?_⟩
    obtain ⟨_, _, _, _, hout⟩ := id hagree
    rw [getReferenceWhenCopiedTo_eq habh hs, Option.some.injEq] at hto
    have haddr : o'.address = addr + state.frontBytesWhenCopied := by rw [← hto]; rfl
    have hfit : state.frontBytesWhenCopied ≤ o'.address := by omega
    have hroom := Nat.le_trans (Nat.le_add_right _ _) (payload_le habh hs hp hb)
    have hplaced : placed m state o o' bytes = placed m₂ state o o' bytes :=
      placed_congr hfit hsource fun x hx => hout x (.inl (by simpa [haddr] using hx))
    have hmove : moveObject vm m o (.toObject o') bytes =
        moveObject vm m₂ o (.toObject o') bytes := by
      have hfit' : state.frontBytesWhenCopied ≤
          ((MoveTarget.toObject o').reference state).address := hfit
      rw [moveObject_eq hs hfit' hroom, moveObject_eq hs₂ hfit' hroom]
      simp only [MoveTarget.reference, hplaced]
    simp only [copyTo, copyToMove, ne_eq, hne, not_false_eq_true, ↓reduceIte, hb', hb₂', hmove,
      Option.bind_eq_bind, Option.bind_some]

theorem fixedSize_sizesByContents (size : ℕ) : (VirtualMachine.fixedSize size).SizesByContents := by
  intro m m' o o' n hp hmd _
  unfold payloadBytes at hp
  obtain ⟨gc, hgc, hn⟩ := Option.bind_eq_some_iff.mp hp
  obtain ⟨bits, hbits, rfl⟩ := Option.map_eq_some_iff.mp hgc
  rw [payloadBytes, gcMetadata, hmd, hbits]
  exact hn

/-- A destination full of other payload bytes does not change the result. -/
theorem copy_to_exact_payload_garbage :
    CopiesExactly (.fixedSize 16) .zeros ⟨1032⟩ ⟨2056⟩ 2048 2048 (fun _ => 0) ∧
    CopiesExactly (.fixedSize 16) .zeros ⟨1032⟩ ⟨2056⟩ 2048 2048
      (fun x => if x = 2060 then 7 else 0) ∧
    copyTo (.fixedSize 16) .zeros (fun _ => 0) ⟨1032⟩ ⟨2056⟩ 2048 =
      copyTo (.fixedSize 16) .zeros (fun x => if x = 2060 then 7 else 0) ⟨1032⟩ ⟨2056⟩ 2048 := by
  have hagree : AgreeOffBlock (.fixedSize 16) ⟨1032⟩ 2048 24 (fun _ => 0)
      (fun x => if x = 2060 then 7 else 0) := by
    refine ⟨1024, 24, by decide, by decide, fun x hx => (if_neg ?_).symm⟩
    unfold ByteMemory.Disjoint at hx
    omega
  exact (copy_to_exact_iff rfl (fixedSize_sizesByContents 16)
    ⟨.unhashed, by decide, by decide, by decide⟩ _ (by decide) (by decide) (Nat.le_refl _)
    (by decide) hagree).mpr ⟨by decide, by decide, by decide⟩

/-- One bit of the old destination header changes the size of the move and the returned end. -/
theorem copy_to_reads_destination : ∃ m' m₂',
    AgreeOffBlock (.fixedSize 16) ⟨1032⟩ 2048 24 (fun _ => 0)
      (fun x => if x = 2055 then 64 else 0) ∧
    copyTo (.fixedSize 16) .zeros (fun _ => 0) ⟨1032⟩ ⟨2056⟩ 2048 = some (m', 2072) ∧
    copyTo (.fixedSize 16) .zeros (fun x => if x = 2055 then 64 else 0) ⟨1032⟩ ⟨2056⟩ 2048 =
      some (m₂', 2080) ∧
    ¬ CopiesExactly (.fixedSize 16) .zeros ⟨1032⟩ ⟨2056⟩ 2048 2048
      (fun x => if x = 2055 then 64 else 0) := by
  refine ⟨_, _, ⟨1024, 24, by decide, by decide, fun x hx => (if_neg ?_).symm⟩, rfl, rfl, ?_⟩
  · unfold ByteMemory.Disjoint at hx
    omega
  · rw [copiesExactly_iff rfl ⟨.unhashed, by decide, by decide, by decide⟩ _ (by decide) (by decide)
      (Nat.le_refl _)]
    decide

end VMKitObjectModel

end VmkitCore
