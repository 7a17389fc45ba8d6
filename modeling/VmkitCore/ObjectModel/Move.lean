import VmkitCore.ObjectModel.Object

/-! # Moving objects

`move_object` copies the bytes of an object to a new place and rewrites the
hash state there. The place is either the start that the copy allocator
returned or a reference computed from such a start.
-/

namespace VmkitCore

inductive MoveTarget
  | toAddress (address : ℕ)
  | toObject (object : VMKitObject)
  deriving DecidableEq, Repr

namespace VMKitObjectModel

variable (vm : VirtualMachine)

def getReferenceWhenCopiedTo (m : ByteMemory) (fromObj : VMKitObject) (addr : ℕ) :
    Option VMKitObject := do
  let overhead ← fromObj.hashcodeOverhead vm m true
  some ⟨addr + objectRefOffset + overhead⟩

/-- Copied bytes, reference offset and target, adjusted for the hash state of the source. -/
def adjustMove (state : HashState) (target : MoveTarget) (numBytes : ℕ) :
    Option (ℕ × ℕ × MoveTarget) :=
  match state with
  | .hashed =>
    -- for less than a word, the subtraction wraps around and the copy leaves the memory
    if numBytes < 8 then none else
    some (numBytes - 8, objectRefOffset, match target with
      | .toAddress addr => .toAddress (addr + 8)
      | .toObject object => .toObject object)
  | .hashedAndMoved => some (numBytes, objectRefOffset + 8, target)
  | .unhashed => some (numBytes, objectRefOffset, target)

/-- Where the bytes go, and the reference of the moved object. -/
def resolveTarget (objRefOffset : ℕ) : MoveTarget → ℕ × VMKitObject
  | .toAddress addr => (addr, ⟨addr + objRefOffset⟩)
  | .toObject object => (object.address - objRefOffset, object)

def moveObject (m : ByteMemory) (fromObj : VMKitObject) (target : MoveTarget) (numBytes : ℕ) :
    Option (ByteMemory × VMKitObject) := do
  let hashState ← fromObj.hashState vm m
  let (copyBytes, objRefOffset, adjusted) ← adjustMove hashState target numBytes
  let (toAddress, toObj) := resolveTarget objRefOffset adjusted
  let fromAddress := fromObj.address - objRefOffset
  let copied := m.copy fromAddress toAddress copyBytes
  if hashState = .hashed then
    let hashCode := fromObj.address >>> 3
    let m' ← toObj.setHashState vm
      (copied.store (toObj.address - hashcodeOffset) 8 hashCode) .hashedAndMoved
    some (m', toObj)
  else
    let m' ← toObj.setHashState vm copied .hashed
    some (m', toObj)

end VMKitObjectModel

/-- The hash state that `move_object` leaves at the destination. -/
def HashState.afterMove : HashState → HashState
  | .unhashed => .hashed
  | .hashed => .hashedAndMoved
  | .hashedAndMoved => .hashed

/-- Bytes in front of the reference of an object in the given hash state. -/
def HashState.frontBytes : HashState → ℕ
  | .hashedAndMoved => hashcodeOffset
  | _ => objectRefOffset

/-- Bytes in front of the reference once an object in the given state has been copied. -/
def HashState.frontBytesWhenCopied : HashState → ℕ
  | .unhashed => objectRefOffset
  | _ => hashcodeOffset

/-- A reference the collector may move an object in the given state to. -/
def MoveTarget.reference (state : HashState) : MoveTarget → VMKitObject
  | .toAddress addr => ⟨addr + state.frontBytesWhenCopied⟩
  | .toObject object => object

namespace VMKitObjectModel

open VMKitObject

variable {vm : VirtualMachine} {m : ByteMemory} {o : VMKitObject} {state : HashState}

theorem getReferenceWhenCopiedTo_eq (habh : vm.addressBasedHashing = true)
    (hs : o.hashState vm m = some state) (addr : ℕ) :
    getReferenceWhenCopiedTo vm m o addr =
      some ((MoveTarget.toAddress addr).reference state) := by
  simp only [getReferenceWhenCopiedTo, hashcodeOverhead_eq habh hs]
  cases state <;>
    simp [MoveTarget.reference, HashState.frontBytesWhenCopied, hashcodeOffset, objectRefOffset]

theorem objectRefOffset_le_frontBytesWhenCopied (state : HashState) :
    objectRefOffset ≤ state.frontBytesWhenCopied := by
  cases state <;> simp [HashState.frontBytesWhenCopied, hashcodeOffset]

theorem objectRefOffset_le_frontBytes (state : HashState) :
    objectRefOffset ≤ state.frontBytes := by
  cases state <;> simp [HashState.frontBytes, hashcodeOffset]

theorem bytesRequiredWhenCopied_spec (ho : objectRefOffset ≤ o.address)
    (habh : vm.addressBasedHashing = true) (hs : o.hashState vm m = some state) :
    ∃ bytes, o.bytesRequiredWhenCopied vm m = some bytes ∧
      state.frontBytesWhenCopied ≤ bytes := by
  obtain ⟨bytes, hb, hle⟩ := bytesWith_spec ho (hashcodeOverhead_eq habh hs true)
  refine ⟨bytes, hb, le_trans ?_ hle⟩
  cases state <;>
    simp [HashState.frontBytesWhenCopied, hashcodeOffset, objectRefOffset, headerBytes]

/-- The bytes of a move before the hash state at the destination is rewritten. -/
def placed (m : ByteMemory) (state : HashState) (fromObj toObj : VMKitObject) (numBytes : ℕ) :
    ByteMemory :=
  let copied := m.copy (fromObj.address - state.frontBytes) (toObj.address - state.frontBytes)
    (numBytes + state.frontBytes - state.frontBytesWhenCopied)
  if state = .hashed then copied.store (toObj.address - hashcodeOffset) 8 (fromObj.address >>> 3)
  else copied

/-- The copied window reaches from the front bytes of the source to those of the reference. -/
theorem adjustMove_spec {target : MoveTarget} {numBytes : ℕ}
    (ht : state.frontBytesWhenCopied ≤ (target.reference state).address)
    (hn : state.frontBytesWhenCopied ≤ numBytes) :
    ∃ adjusted, adjustMove state target numBytes =
        some (numBytes + state.frontBytes - state.frontBytesWhenCopied, state.frontBytes,
          adjusted) ∧
      resolveTarget state.frontBytes adjusted =
        ((target.reference state).address - state.frontBytes, target.reference state) := by
  cases state <;> cases target <;>
    simp [MoveTarget.reference, HashState.frontBytes, HashState.frontBytesWhenCopied, adjustMove,
      resolveTarget, hashcodeOffset, objectRefOffset] at * <;> omega

theorem moveObject_eq (hs : o.hashState vm m = some state) {target : MoveTarget}
    (ht : state.frontBytesWhenCopied ≤ (target.reference state).address) {numBytes : ℕ}
    (hn : state.frontBytesWhenCopied ≤ numBytes) :
    moveObject vm m o target numBytes =
      ((target.reference state).setHashState vm
        (placed m state o (target.reference state) numBytes) state.afterMove).map
          fun m' => (m', target.reference state) := by
  obtain ⟨adjusted, hadj, hres⟩ := adjustMove_spec ht hn
  cases state <;>
    simp [moveObject, hs, hadj, hres, placed, HashState.afterMove, Option.map_eq_bind]

variable {o' : VMKitObject} {numBytes : ℕ}

theorem placed_apply (ht : state.frontBytesWhenCopied ≤ o'.address) {i : ℕ}
    (hi : i + state.frontBytesWhenCopied < numBytes + state.frontBytes) :
    placed m state o o' numBytes (o'.address - state.frontBytes + i) =
      m (o.address - state.frontBytes + i) := by
  have hcopy : i < numBytes + state.frontBytes - state.frontBytesWhenCopied := by omega
  by_cases hh : state = .hashed
  · subst hh
    simp only [placed, ↓reduceIte]
    rw [ByteMemory.store_apply_outside, ByteMemory.copy_apply_inside hcopy]
    simp only [HashState.frontBytesWhenCopied, HashState.frontBytes, hashcodeOffset,
      objectRefOffset, ByteMemory.Disjoint] at *
    omega
  · simp only [placed, hh, ↓reduceIte]
    exact ByteMemory.copy_apply_inside hcopy

theorem placed_outside (ht : state.frontBytesWhenCopied ≤ o'.address)
    (hn : state.frontBytesWhenCopied ≤ numBytes) {x : ℕ}
    (hx : ByteMemory.Disjoint (o'.address - state.frontBytesWhenCopied) numBytes x 1) :
    placed m state o o' numBytes x = m x := by
  have hcopy : ByteMemory.Disjoint (o'.address - state.frontBytes)
      (numBytes + state.frontBytes - state.frontBytesWhenCopied) x 1 := by
    cases state <;> simp only [HashState.frontBytesWhenCopied, HashState.frontBytes,
      hashcodeOffset, objectRefOffset, ByteMemory.Disjoint] at * <;> omega
  by_cases hh : state = .hashed
  · subst hh
    simp only [placed, ↓reduceIte]
    rw [ByteMemory.store_apply_outside, ByteMemory.copy_apply_outside hcopy]
    simp only [HashState.frontBytesWhenCopied, hashcodeOffset, objectRefOffset,
      ByteMemory.Disjoint] at *
    omega
  · simp only [placed, hh, ↓reduceIte]
    exact ByteMemory.copy_apply_outside hcopy

/-- What is placed depends on the source bytes and on the bytes outside the destination. -/
theorem placed_congr {m₂ : ByteMemory} (ht : state.frontBytesWhenCopied ≤ o'.address)
    (hsource : ∀ i, i + state.frontBytesWhenCopied < numBytes + state.frontBytes →
      m (o.address - state.frontBytes + i) = m₂ (o.address - state.frontBytes + i))
    (hout : ∀ x, ByteMemory.Disjoint (o'.address - state.frontBytesWhenCopied) numBytes x 1 →
      m x = m₂ x) :
    placed m state o o' numBytes = placed m₂ state o o' numBytes := by
  by_cases hh : state = .hashed
  · subst hh
    simp only [placed, ↓reduceIte]
    refine ByteMemory.store_congr fun x hx => ?_
    by_cases hin : ByteMemory.Disjoint (o'.address - hashcodeOffset) numBytes x 1
    · have hcopy : ByteMemory.Disjoint (o'.address - HashState.hashed.frontBytes)
          (numBytes + HashState.hashed.frontBytes - HashState.hashed.frontBytesWhenCopied) x 1 := by
        simp only [HashState.frontBytesWhenCopied, HashState.frontBytes, hashcodeOffset,
          objectRefOffset, ByteMemory.Disjoint] at *
        omega
      rw [ByteMemory.copy_apply_outside hcopy, ByteMemory.copy_apply_outside hcopy]
      exact hout x hin
    · obtain ⟨i, rfl⟩ : ∃ i, x = o'.address - HashState.hashed.frontBytes + i := by
        refine ⟨x - (o'.address - HashState.hashed.frontBytes), ?_⟩
        simp only [HashState.frontBytesWhenCopied, HashState.frontBytes, hashcodeOffset,
          objectRefOffset, ByteMemory.Disjoint] at *
        omega
      have hi : i + HashState.hashed.frontBytesWhenCopied <
          numBytes + HashState.hashed.frontBytes := by
        simp only [HashState.frontBytesWhenCopied, HashState.frontBytes, hashcodeOffset,
          objectRefOffset, ByteMemory.Disjoint] at *
        omega
      rw [ByteMemory.copy_apply_inside (by omega), ByteMemory.copy_apply_inside (by omega)]
      exact hsource i hi
  · simp only [placed, hh, ↓reduceIte]
    refine ByteMemory.copy_congr (fun i hi => hsource i (by omega)) fun x hx => hout x ?_
    cases state with
    | hashed => exact absurd rfl hh
    | unhashed | hashedAndMoved =>
      simpa [HashState.frontBytesWhenCopied, HashState.frontBytes] using hx

/-- The header word reaches the destination before the hash state is rewritten. -/
theorem load_placed_header (ho : state.frontBytes ≤ o.address)
    (ht : state.frontBytesWhenCopied ≤ o'.address) (hn : state.frontBytesWhenCopied ≤ numBytes) :
    (placed m state o o' numBytes).load (o'.address - objectRefOffset) headerBytes =
      m.load (o.address - objectRefOffset) headerBytes := by
  have hf := objectRefOffset_le_frontBytes state
  have hfw : state.frontBytes ≤ state.frontBytesWhenCopied := by
    cases state <;> simp [HashState.frontBytesWhenCopied, HashState.frontBytes, hashcodeOffset]
  refine ByteMemory.load_congr fun i hi => ?_
  have hto : o'.address - objectRefOffset + i =
      o'.address - state.frontBytes + (state.frontBytes - objectRefOffset + i) := by omega
  have hfrom : o.address - objectRefOffset + i =
      o.address - state.frontBytes + (state.frontBytes - objectRefOffset + i) := by omega
  rw [hto, hfrom]
  apply placed_apply ht
  unfold headerBytes objectRefOffset at *
  omega

/-- Moving never panics, and rewrites the hash state as `afterMove` says. -/
theorem moveObject_spec (habh : vm.addressBasedHashing = true)
    (hs : o.hashState vm m = some state) (ho : state.frontBytes ≤ o.address)
    {target : MoveTarget} (ht : state.frontBytesWhenCopied ≤ (target.reference state).address)
    {numBytes : ℕ} (hn : state.frontBytesWhenCopied ≤ numBytes) :
    ∃ m', moveObject vm m o target numBytes = some (m', target.reference state) ∧
      (target.reference state).hashState vm m' = some state.afterMove ∧
      (target.reference state).metadata vm m' = o.metadata vm m ∧
      (state = .hashed → m'.load ((target.reference state).address - hashcodeOffset) 8 =
        (o.address >>> 3) % 2 ^ 64) := by
  have ho8 := (objectRefOffset_le_frontBytes state).trans ho
  have hr8 := (objectRefOffset_le_frontBytesWhenCopied state).trans ht
  obtain ⟨m', hm', hst, hmd, hframe⟩ := setHashState_spec
    (m := placed m state o (target.reference state) numBytes) hr8 habh state.afterMove
  refine ⟨m', by rw [moveObject_eq hs ht hn, hm']; rfl, hst, ?_, ?_⟩
  · rw [hmd]
    exact (hashState_congr hr8 ho8 (load_placed_header ho ht hn)).2
  · rintro rfl
    refine (ByteMemory.load_congr fun i hi => hframe _ ?_).trans
      (ByteMemory.load_store_same _ _ 8 _)
    simp only [HashState.frontBytesWhenCopied] at ht
    unfold ByteMemory.Disjoint hashcodeOffset objectRefOffset at *
    omega

end VMKitObjectModel

end VmkitCore
