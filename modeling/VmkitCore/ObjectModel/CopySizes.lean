import VmkitCore.ObjectModel.Copy

/-! # Sizes of copied objects

A run of one object interleaves `hashcode()` calls with copies and keeps a record of
the last block. The header of a copied object says where the object starts and how
large it is. Both agree with the block, and the size with the history of the object,
as long as no copy finds a hash state that no call has set and none finds a stored
hash.
-/

namespace VmkitCore

open VMKitObject

/-- The block of a copy, and whether `hashcode()` had been called before it. -/
structure CopyRecord where
  address : ℕ
  bytes : ℕ
  hashTaken : Bool
  deriving DecidableEq, Repr

/-- An object with its history. -/
structure HistoryState extends ObjectState where
  hashTaken : Bool
  lastCopy : Option CopyRecord

inductive CopyOp
  | hashcode
  | copy (addr : ℕ)
  deriving DecidableEq, Repr

def copyStep (vm : VirtualMachine) (s : HistoryState) : CopyOp → Option HistoryState
  | .hashcode => do
    let (_, m) ← s.object.hashcode vm s.memory
    some ⟨⟨m, s.object⟩, true, s.lastCopy⟩
  | .copy addr => do
    let bytes ← s.object.bytesRequiredWhenCopied vm s.memory
    let (m, o) ← VMKitObjectModel.copy vm (fun _ _ _ => addr) s.memory s.object
    if addr + bytes ≤ 2 ^ 64 then
      some ⟨⟨m, o⟩, s.hashTaken, some ⟨addr, bytes, s.hashTaken⟩⟩
    else none

/-- Runs of one object from its allocation on. -/
def copyMachine (vm : VirtualMachine) : Machine HistoryState CopyOp where
  init s := s.Live vm ∧ s.object.hashState vm s.memory = some .unhashed ∧
    s.hashTaken = false ∧ s.lastCopy = none
  step := copyStep vm

/--
The object starts at its block and fills it, and its size is the aligned size of header and
payload, and one word more exactly when `hashcode()` was called before the last copy.
-/
structure SizeExact (vm : VirtualMachine) (payload : ℕ) (s : HistoryState) : Prop where
  block : ∀ c ∈ s.lastCopy, s.object.objectStart vm s.memory = some c.address ∧
    s.object.bytesUsed vm s.memory = some c.bytes
  size : s.object.bytesUsed vm s.memory =
    some (vm.conversions.rawAlignUp (headerBytes + payload) 8 +
      if s.lastCopy.any (·.hashTaken) then 8 else 0)

/-- A copied object is unhashed, or hashed by a call. -/
def CopiesOwnState (vm : VirtualMachine) (s : HistoryState) (op : CopyOp) : Prop :=
  ∀ addr, op = .copy addr → s.object.hashState vm s.memory = some .unhashed ∨
    (s.object.hashState vm s.memory = some .hashed ∧ s.hashTaken = true)

/-- What every step keeps: the payload size, and that the header knows of a call. -/
structure HistoryState.Tracked (vm : VirtualMachine) (payload : ℕ) (s : HistoryState) : Prop where
  live : s.Live vm
  payload : s.object.payloadBytes vm s.memory = some payload
  hashed : s.hashTaken = true → s.object.hashState vm s.memory ≠ some .unhashed

variable {vm : VirtualMachine} {s s' : HistoryState} {state : HashState} {n addr : ℕ}

theorem copyStep_hashcode (habh : vm.addressBasedHashing = true) (hsz : vm.SizesByContents)
    (ht : s.Tracked vm n) (hs : s.object.hashState vm s.memory = some state)
    (hstep : copyStep vm s .hashcode = some s') :
    s'.Tracked vm n ∧ s'.object = s.object ∧ s'.lastCopy = s.lastCopy ∧
      s'.object.hashState vm s'.memory =
        some (if state = .hashedAndMoved then .hashedAndMoved else .hashed) := by
  have hf := ht.live.front
  obtain ⟨⟨h, m⟩, hc, rfl⟩ : ∃ r, s.object.hashcode vm s.memory = some r ∧
      (⟨⟨r.2, s.object⟩, true, s.lastCopy⟩ : HistoryState) = s' := by
    simpa [copyStep, Option.bind_eq_some_iff] using hstep
  obtain ⟨hl, hne, -⟩ := hashcode_step habh ht.live hc
  obtain ⟨m', hm', hst, hmd, hframe⟩ := setHashState_spec (m := s.memory) hf habh .hashed
  cases state with
  | hashedAndMoved =>
    obtain ⟨-, rfl⟩ : _ ∧ s.memory = m := by simpa [VMKitObject.hashcode, habh, hs] using hc
    exact ⟨⟨hl, ht.payload, fun _ => hne⟩, rfl, rfl, hs⟩
  | unhashed | hashed =>
    obtain ⟨-, rfl⟩ : _ ∧ m' = m := by simpa [VMKitObject.hashcode, habh, hs, hm'] using hc
    refine ⟨⟨hl, hsz ht.payload hmd fun i _ => hframe _ (.inl ?_), fun _ => hne⟩, rfl, rfl, hst⟩
    dsimp only [objectRefOffset, headerBytes] at hf ⊢
    omega

theorem copyStep_copy (habh : vm.addressBasedHashing = true) (hsz : vm.SizesByContents)
    (ht : s.Tracked vm n) (hs : s.object.hashState vm s.memory = some state)
    (hstep : copyStep vm s (.copy addr) = some s') :
    ∃ bytes, s.object.bytesRequiredWhenCopied vm s.memory = some bytes ∧ s'.Tracked vm n ∧
      s'.object.address = addr + state.frontBytesWhenCopied ∧
      s'.lastCopy = some ⟨addr, bytes, s.hashTaken⟩ ∧
      s'.object.hashState vm s'.memory = some state.afterMove := by
  obtain ⟨state', hs', ho, hend⟩ := id ht.live
  obtain rfl : state' = state := Option.some.inj (hs'.symm.trans hs)
  obtain ⟨bytes, hb, hle⟩ :=
    VMKitObjectModel.bytesRequiredWhenCopied_spec ht.live.front habh hs
  have hfit : state'.frontBytesWhenCopied ≤
      ((MoveTarget.toAddress addr).reference state').address := Nat.le_add_left _ _
  obtain ⟨m', hm', hst, hmd, -⟩ := VMKitObjectModel.moveObject_spec habh hs ho hfit hle
  obtain ⟨-, hpay, -, -⟩ := VMKitObjectModel.moveObject_bytes hs ho hfit hle hm'
  obtain ⟨-, hroom, rfl⟩ : ((∃ align, s.object.alignment vm s.memory = some align) ∧
      ∃ offset, s.object.getOffsetForAlignment vm s.memory = some offset) ∧ addr + bytes ≤ 2 ^ 64 ∧
      (⟨⟨m', (MoveTarget.toAddress addr).reference state'⟩, s.hashTaken,
        some ⟨addr, bytes, s.hashTaken⟩⟩ : HistoryState) = s' := by
    simpa [copyStep, VMKitObjectModel.copy, hb, hm', Option.bind_eq_some_iff] using hstep
  have hpayload := payload_le habh hs ht.payload hb
  refine ⟨bytes, hb, ⟨⟨_, hst, ?_, ?_⟩, hsz ht.payload hmd fun i hi => hpay i (by omega), ?_⟩,
    rfl, rfl, hst⟩
  · dsimp only [MoveTarget.reference]
    cases state' <;> simp [HashState.afterMove, HashState.frontBytes,
      HashState.frontBytesWhenCopied, hashcodeOffset, objectRefOffset]
  · dsimp only [MoveTarget.reference]
    omega
  · intro _
    rw [hst]
    cases state' <;> simp [HashState.afterMove]

theorem HistoryState.Tracked.step (habh : vm.addressBasedHashing = true)
    (hsz : vm.SizesByContents) (ht : s.Tracked vm n) {op : CopyOp}
    (hstep : copyStep vm s op = some s') : s'.Tracked vm n := by
  obtain ⟨state, hs, -⟩ := id ht.live
  cases op with
  | hashcode => exact (copyStep_hashcode habh hsz ht hs hstep).1
  | copy addr =>
    obtain ⟨_, -, ht', -⟩ := copyStep_copy habh hsz ht hs hstep
    exact ht'

/-- One step keeps the sizes exactly when it copies a state that the history explains. -/
theorem sizeExact_step (habh : vm.addressBasedHashing = true) (hsz : vm.SizesByContents)
    (ht : s.Tracked vm n) (hexact : SizeExact vm n s) {op : CopyOp}
    (hstep : copyStep vm s op = some s') : SizeExact vm n s' ↔ CopiesOwnState vm s op := by
  obtain ⟨state, hs, -⟩ := id ht.live
  cases op with
  | hashcode =>
    obtain ⟨ht', hobj, hlast, hst⟩ := copyStep_hashcode habh hsz ht hs hstep
    have hstart : s'.object.objectStart vm s'.memory = s.object.objectStart vm s.memory := by
      rw [VMKitObjectModel.objectStart_eq habh hst, VMKitObjectModel.objectStart_eq habh hs, hobj]
      cases state <;> rfl
    have hused : s'.object.bytesUsed vm s'.memory = s.object.bytesUsed vm s.memory := by
      rw [bytesUsed, bytesWith_eq_base habh hst ht'.payload, bytesUsed,
        bytesWith_eq_base habh hs ht.payload]
      cases state <;> rfl
    refine iff_of_true ⟨?_, ?_⟩ fun _ he => by cases he
    · rw [hlast, hstart, hused]
      exact hexact.block
    · rw [hlast, hused]
      exact hexact.size
  | copy addr =>
    obtain ⟨bytes, hb, ht', haddr, hlast, hst⟩ := copyStep_copy habh hsz ht hs hstep
    have hstart := VMKitObjectModel.objectStart_eq habh hst
    have hused : s'.object.bytesUsed vm s'.memory = _ :=
      bytesWith_eq_base habh hst ht'.payload false
    rw [bytesRequiredWhenCopied, bytesWith_eq_base habh hs ht.payload, Option.some.injEq] at hb
    rw [haddr] at hstart
    cases state with
    | unhashed =>
      have hfalse : s.hashTaken = false := by
        by_contra hne
        exact ht.hashed (by simpa using hne) hs
      refine iff_of_true ⟨?_, ?_⟩ fun _ _ => .inl hs
      · simp [hlast, hstart, hused, ← hb, HashState.afterMove, HashState.frontBytes,
          HashState.frontBytesWhenCopied]
      · simp [hlast, hused, hfalse, HashState.afterMove]
    | hashed =>
      constructor
      · intro h _ _
        have := h.size
        refine .inr ⟨hs, ?_⟩
        by_contra hne
        simp [hlast, hused, hne, HashState.afterMove] at this
      · intro h
        have htrue : s.hashTaken = true := by simpa [hs] using h addr rfl
        refine ⟨?_, ?_⟩
        · simp [hlast, hstart, hused, ← hb, HashState.afterMove, HashState.frontBytes,
            HashState.frontBytesWhenCopied]
        · simp [hlast, hused, htrue, HashState.afterMove]
    | hashedAndMoved =>
      refine iff_of_false (fun h => ?_) fun h => ?_
      · have := (h.block _ hlast).1
        simp only [hstart, HashState.afterMove, HashState.frontBytes,
          HashState.frontBytesWhenCopied, hashcodeOffset, objectRefOffset,
          Option.some.injEq] at this
        omega
      · simpa [hs] using h addr rfl

/--
Start and size of an object follow its blocks and its history throughout a run exactly when
every copy of the run finds it unhashed, or hashed by a call.
-/
theorem copied_sizes_iff (habh : vm.addressBasedHashing = true) (hsz : vm.SizesByContents)
    (hinit : (copyMachine vm).init s) (hn : s.object.payloadBytes vm s.memory = some n)
    (ops : List CopyOp) :
    (copyMachine vm).Always (SizeExact vm n) s ops ↔
      (copyMachine vm).Meets (CopiesOwnState vm) s ops := by
  obtain ⟨hl, hs, hfalse, hlast⟩ := hinit
  refine Machine.always_iff_meets (J := HistoryState.Tracked vm n)
    (fun _ _ _ ht hstep => ht.step habh hsz hstep)
    (fun _ _ _ ht hexact hstep => sizeExact_step habh hsz ht hexact hstep)
    ⟨hl, hn, fun h => absurd (hfalse.symm.trans h) (by decide)⟩ ⟨?_, ?_⟩
  · rw [hlast]
    exact nofun
  · rw [hlast, bytesUsed, bytesWith_eq_base habh hs hn]
    rfl

/-- An unhashed object with empty metadata that has not been copied. -/
def HistoryState.fresh (address : ℕ) : HistoryState := ⟨.fresh address, false, none⟩

theorem historyFresh_init : (copyMachine (.fixedSize 16)).init (.fresh 1032) :=
  ⟨⟨.unhashed, by decide, by decide, by decide⟩, by decide, rfl, rfl⟩

/-- One copy before the call and one after it keep the sizes. -/
theorem copied_sizes_call_between :
    (copyMachine (.fixedSize 16)).Always (SizeExact (.fixedSize 16) 16) (.fresh 1032)
      [.copy 2048, .hashcode, .copy 4096] := by
  refine (copied_sizes_iff rfl (VMKitObjectModel.fixedSize_sizesByContents 16) historyFresh_init
    (by decide) _).mpr ?_
  rintro s₁ h₁
  refine ⟨fun _ _ => .inl (by decide), fun s₂ h₂ =>
    ⟨nofun, fun s₃ h₃ => ⟨fun _ _ => .inr ?_, trivial⟩⟩⟩
  obtain rfl := Option.some.inj h₁
  obtain rfl := Option.some.inj h₂
  exact ⟨by decide, rfl⟩

/--
The second copy of an object that was never hashed takes 32 bytes instead of 24, and the
second copy of a hashed object starts a word behind its block.
-/
theorem copied_sizes_drift :
    (copyMachine (.fixedSize 16)).init (.fresh 1032) ∧
    (∃ s, (copyMachine (.fixedSize 16)).exec (.fresh 1032) [.copy 2048, .copy 4096] = some s ∧
      s.hashTaken = false ∧ s.object.bytesUsed (.fixedSize 16) s.memory = some 32 ∧
      ¬ SizeExact (.fixedSize 16) 16 s) ∧
    ∃ s, (copyMachine (.fixedSize 16)).exec (.fresh 1032)
        [.hashcode, .copy 2048, .copy 4096] = some s ∧
      s.object.objectStart (.fixedSize 16) s.memory = some 4104 ∧
      ¬ SizeExact (.fixedSize 16) 16 s := by
  refine ⟨historyFresh_init, ⟨_, rfl, rfl, rfl, fun h => ?_⟩, _, rfl, rfl, fun h => ?_⟩
  · exact absurd h.size (by decide)
  · exact absurd (h.block _ rfl).1 (by decide)

end VmkitCore
