import VmkitCore.ObjectModel.Copy

/-! # Field accesses

A field is a signed offset from the reference. The assertion before an access compares where the
field starts with all the bytes of the object, which include those before the reference. Arithmetic
wraps around, as in a release build; only the debug assertions that a result is about are kept.
-/

namespace VmkitCore.VMKitObject

section Source

variable (vm : VirtualMachine) (m : ByteMemory) (o : VMKitObject) (size : ℕ) (offset : ℤ)

/-- `as_address().offset(offset)` -/
def fieldAddress : ℕ := ((o.address + offset) % 2 ^ 64).toNat

/-- The debug assertion: the number of bytes is cast to an `isize`. -/
def assertInBounds : Option Unit := do
  let bytes ← o.bytesUsed vm m
  guard (offset < Int.bmod bytes (2 ^ 64))

/-- A volatile access differs in its ordering only. -/
def getFieldPrimitive : Option ℕ := do
  o.assertInBounds vm m offset
  some (m.load (o.fieldAddress offset) size)

def setFieldPrimitive (value : ℕ) : Option ByteMemory := do
  o.assertInBounds vm m offset
  some (m.store (o.fieldAddress offset) size value)

/-- The payload, rounded up to the word. -/
def payloadSize : Option ℕ := do
  let n ← o.payloadBytes vm m
  some (vm.conversions.rawAlignUp n 8)

end Source

/-- Every byte from the offset on is one of the payload. -/
def InPayload (payload size : ℕ) (offset : ℤ) : Prop :=
  ∀ i < size, 0 ≤ offset + i ∧ offset + i < payload

/-- The bytes before the reference: the header and, in a moved object, the stored hash. -/
def bytesBefore : HashState → ℕ
  | .hashedAndMoved => headerBytes + 8
  | _ => headerBytes

/--
The offsets that go wrong: the negative ones, and those from the last bytes of the payload on, up
to as many bytes behind it as there are before the reference.
-/
def Strays (payload : ℕ) (state : HashState) (size : ℕ) (offset : ℤ) : Prop :=
  let counted : ℕ := (payload + bytesBefore state) % 2 ^ 64
  0 < size ∧
    if counted < 2 ^ 63 then
      offset < 0 ∨ (payload : ℤ) - size < offset ∧ offset < counted
    else
      -- as an `isize`, so many bytes are a negative number
      offset < (counted : ℤ) - 2 ^ 64

variable {vm : VirtualMachine} {m : ByteMemory} {o : VMKitObject} {payload size : ℕ}
  {state : HashState} {offset : ℤ}

theorem hashcodeOverhead_of_hashState (hs : o.hashState vm m = some state) :
    ∃ overhead, o.hashcodeOverhead vm m false = some overhead ∧
      bytesBefore state = headerBytes + overhead := by
  cases habh : vm.addressBasedHashing with
  | true =>
    refine ⟨_, hashcodeOverhead_eq habh hs false, ?_⟩
    cases state <;> rfl
  | false =>
    refine ⟨0, by simp [hashcodeOverhead, habh], ?_⟩
    -- without address-based hashing there is no state but `Unhashed`
    rw [hashState, habh] at hs
    obtain ⟨_, -, heq⟩ := Option.bind_eq_some_iff.mp hs
    obtain rfl := Option.some.inj heq
    rfl

/-- The total counts the header and the stored hash, which are not in the payload. -/
theorem bytesUsed_eq_payload (hp : o.payloadSize vm m = some payload)
    (hs : o.hashState vm m = some state) :
    o.bytesUsed vm m = some (payload + bytesBefore state) := by
  obtain ⟨n, hn, hround⟩ := Option.bind_eq_some_iff.mp hp
  obtain rfl := Option.some.inj hround
  obtain ⟨overhead, hv, hbefore⟩ := hashcodeOverhead_of_hashState hs
  have hadd := fun v => vm.conversions.rawAlignUp_add v 3
  rw [bytesUsed, bytesWith_eq hn hv, hbefore, headerBytes]
  obtain rfl | rfl : overhead = 0 ∨ overhead = 8 := by
    cases state <;> simp [bytesBefore, headerBytes] at hbefore <;> omega
  · rw [Nat.zero_add]
    exact congrArg some (hadd n)
  · rw [Nat.add_comm 8 n]
    exact congrArg some ((hadd _).trans (congrArg (· + 8) (hadd n)))

theorem assertInBounds_eq_some (hp : o.payloadSize vm m = some payload)
    (hs : o.hashState vm m = some state) :
    o.assertInBounds vm m offset = some () ↔
      offset < Int.bmod (payload + bytesBefore state : ℕ) (2 ^ 64) := by
  rw [assertInBounds, bytesUsed_eq_payload hp hs, Option.bind_eq_bind, Option.bind_some]
  simp [guard]

theorem getFieldPrimitive_isSome :
    (o.getFieldPrimitive vm m size offset).isSome ↔ o.assertInBounds vm m offset = some () := by
  unfold getFieldPrimitive
  cases h : o.assertInBounds vm m offset <;> simp

theorem setFieldPrimitive_isSome {value : ℕ} :
    (o.setFieldPrimitive vm m size offset value).isSome ↔
      o.assertInBounds vm m offset = some () := by
  unfold setFieldPrimitive
  cases h : o.assertInBounds vm m offset <;> simp

/-- An access of no bytes lies everywhere, any other one between its first and its last byte. -/
theorem inPayload_iff : InPayload payload size offset ↔
    size = 0 ∨ 0 ≤ offset ∧ offset + size ≤ payload := by
  constructor
  · intro h
    rcases Nat.eq_zero_or_pos size with hzero | hpos
    · exact .inl hzero
    · have hfirst := h 0 hpos
      have hlast := h (size - 1) (Nat.sub_lt hpos Nat.one_pos)
      exact .inr (by omega)
  · rintro h i hi
    omega

/-- What goes wrong is outside the payload and below the total. -/
theorem strays_iff : Strays payload state size offset ↔
    offset < Int.bmod (payload + bytesBefore state : ℕ) (2 ^ 64) ∧
      ¬ InPayload payload size offset := by
  rw [Strays, inPayload_iff, Int.bmod_def]
  have hbefore : 0 < bytesBefore state := by cases state <;> decide
  generalize bytesBefore state = before at hbefore ⊢
  split <;> split <;> omega

/-- The assertion keeps an access in the payload exactly if its offset is none of those. -/
theorem field_in_payload_iff (hp : o.payloadSize vm m = some payload)
    (hs : o.hashState vm m = some state) (value : ℕ) :
    ((o.getFieldPrimitive vm m size offset).isSome ∨
        (o.setFieldPrimitive vm m size offset value).isSome →
      InPayload payload size offset) ↔
    ¬ Strays payload state size offset := by
  rw [getFieldPrimitive_isSome, setFieldPrimitive_isSome, or_self, assertInBounds_eq_some hp hs,
    strays_iff, not_and_not_right]

/-- The word of an object of one word. -/
theorem field_in_payload_word :
    (VMKitObject.mk 4104).getFieldPrimitive (.fixedSize 8) (fun _ => 0) 8 0 = some 0 ∧
      InPayload 8 8 0 := by
  have hget : (VMKitObject.mk 4104).getFieldPrimitive (.fixedSize 8) (fun _ => 0) 8 0 = some 0 :=
    rfl
  have hpayload : (VMKitObject.mk 4104).payloadSize (.fixedSize 8) (fun _ => 0) = some 8 := rfl
  have hstate : (VMKitObject.mk 4104).hashState (.fixedSize 8) (fun _ => 0) = some .unhashed := rfl
  have hstays : ¬ Strays 8 .unhashed 8 0 := by simp [Strays, bytesBefore, headerBytes]
  exact ⟨hget, (field_in_payload_iff hpayload hstate 0).mpr hstays (.inl (by rw [hget]; rfl))⟩

/-- The word behind that one passes the assertion, as the header counts as well. -/
theorem field_outside_payload : ¬ ∀ (vm : VirtualMachine) (m : ByteMemory) (o : VMKitObject)
    (payload size value : ℕ) (offset : ℤ), o.payloadSize vm m = some payload →
    (o.getFieldPrimitive vm m size offset).isSome ∨
      (o.setFieldPrimitive vm m size offset value).isSome →
    InPayload payload size offset := by
  intro h
  have hin := h (.fixedSize 8) (fun _ => 0) ⟨4104⟩ 8 8 0 8 rfl (.inl rfl)
  exact absurd (hin 0 (by decide)).2 (by decide)

end VmkitCore.VMKitObject
