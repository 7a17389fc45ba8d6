import VmkitCore.Lib.BitTable
import VmkitCore.ObjectModel.Tracing

/-! # Side metadata bits

Allocation sets the valid-object bit of an object, and the write barrier reads the log bit of
the object that is written to. Both tables have a bit for every eight bytes of memory.
-/

namespace VmkitCore

/-- `mmtk::BarrierSelector` -/
inductive BarrierSelector
  | objectBarrier | noBarrier
  deriving DecidableEq, Repr

/-- The arguments that the slow path of the barrier is called with. -/
structure SlowWrite (σ : Type*) where
  src : VMKitObject
  slot : σ
  target : Option ObjectReference
  deriving DecidableEq

namespace SideMetadata

section Source

variable {σ : Type*} (base : ℕ) (m : ByteMemory)

/-- `set_vo_bit`, which has a body with the `cooperative` feature only. -/
def setVoBit (cooperative : Bool) (object : VMKitObject) : ByteMemory :=
  if cooperative then
    let addr := (base + object.address >>> 6) % 2 ^ 64
    let byte := m addr
    let mask := (1 : UInt8) <<< UInt8.ofNat (object.address >>> 3 &&& 7)
    let newByte := byte ||| mask
    Function.update m addr newByte
  else m

/-- `object_reference_write_post`: the call of the slow path, if there is one. -/
def objectReferenceWritePost (barrier : BarrierSelector) (src : VMKitObject) (slot : σ)
    (target : VMKitObject) : Option (SlowWrite σ) :=
  match barrier with
  | .objectBarrier =>
    let addr := src.address
    let metaAddr := (base + addr >>> 6) % 2 ^ 64
    let shift := addr >>> 3 &&& 7
    let byteVal := m metaAddr
    if (byteVal >>> UInt8.ofNat shift) &&& 1 = 1 then
      some ⟨src, slot, if h : target = .null then none else some ⟨target, h⟩⟩
    else none
  | .noBarrier => none

end Source

/-- The byte and the bit in it that a table has for an address. -/
def position (base a : ℕ) : ℕ × ℕ := (base + a >>> 6, a >>> 3 &&& 7)

def sideBit (base : ℕ) (m : ByteMemory) (a : ℕ) : Bool :=
  m.bit (position base a).1 (position base a).2

/-- Calls of `set_vo_bit`, one at a time. -/
def setVoBits (base : ℕ) (cooperative : Bool) (m : ByteMemory) (l : List VMKitObject) :
    ByteMemory :=
  l.foldl (fun m o => setVoBit base m cooperative o) m

variable {σ : Type*} {base a a' : ℕ} {m : ByteMemory} {o src target : VMKitObject} {slot : σ}
  {cooperative : Bool} {l : List VMKitObject} {barrier : BarrierSelector}

theorem position_eq : position base a = (base + a / 64, a / 8 % 8) := by
  rw [position, Nat.shiftRight_eq_div_pow, Nat.shiftRight_eq_div_pow,
    Nat.and_two_pow_sub_one_eq_mod _ 3]

theorem position_lt : (position base a).2 < 8 := by
  rw [position_eq]
  exact Nat.mod_lt _ (by decide)

/-- Aligned addresses have bits of their own. -/
theorem position_inj (ha : 8 ∣ a) (ha' : 8 ∣ a') : position base a = position base a' ↔ a = a' := by
  rw [position_eq, position_eq, Prod.mk.injEq]
  omega

theorem setVoBit_eq (h : base + o.address >>> 6 < 2 ^ 64) :
    setVoBit base m true o =
      m.setBit (position base o.address).1 (position base o.address).2 := by
  simp only [setVoBit, if_true, Nat.mod_eq_of_lt h]
  rfl

/-- The calls set the bits of their objects, and no others. -/
theorem bit_setVoBits (hl : ∀ o ∈ l, base + o.address >>> 6 < 2 ^ 64) {x i : ℕ} :
    (setVoBits base true m l).bit x i = true ↔
      m.bit x i = true ∨ ∃ o ∈ l, position base o.address = (x, i) := by
  have hset : setVoBits base true m l = m.setBits (l.map fun o => position base o.address) := by
    rw [ByteMemory.setBits, List.foldl_map]
    exact List.foldl_ext _ _ _ fun m o ho => setVoBit_eq (hl o ho)
  rw [hset, ByteMemory.bit_setBits, List.mem_map]
  rintro p hp
  obtain ⟨o, -, rfl⟩ := List.mem_map.mp hp
  exact position_lt

theorem setVoBits_uncooperative : setVoBits base false m l = m := by
  induction l with
  | nil => rfl
  | cons o l ih => exact ih

/-- The barrier looks at the bit of the object that is written to, and at nothing else. -/
theorem objectReferenceWritePost_isSome_iff (h : base + src.address >>> 6 < 2 ^ 64) :
    (objectReferenceWritePost base m barrier src slot target).isSome = true ↔
      barrier = .objectBarrier ∧ sideBit base m src.address = true := by
  cases barrier with
  | objectBarrier =>
    have hbit : (m (position base src.address).1 >>> UInt8.ofNat (position base src.address).2) &&&
        1 = 1 ↔ sideBit base m src.address = true := ByteMemory.shiftRight_and_one position_lt
    simp only [objectReferenceWritePost, Nat.mod_eq_of_lt h, true_and, ← hbit, position]
    split <;> simp_all
  | noBarrier => simp [objectReferenceWritePost]

/-- Every byte that the table has for an address is zero. -/
def Cleared (base : ℕ) (m : ByteMemory) : Prop := ∀ a < 2 ^ 64, m (base + a >>> 6) = 0

theorem Cleared.sideBit (h : Cleared base m) (ha : a < 2 ^ 64) : sideBit base m a = false := by
  rw [SideMetadata.sideBit, ByteMemory.bit, position, h a ha]
  exact Nat.zero_testBit _

theorem sideBit_setVoBits_iff (h : Cleared base m)
    (hl : ∀ o ∈ l, 8 ∣ o.address ∧ base + o.address >>> 6 < 2 ^ 64) (ha : a < 2 ^ 64)
    (hd : 8 ∣ a) :
    sideBit base (setVoBits base cooperative m l) a = true ↔ cooperative = true ∧ ⟨a⟩ ∈ l := by
  cases cooperative with
  | false => simp [setVoBits_uncooperative, h.sideBit ha]
  | true =>
    have hcleared : m.bit (position base a).1 (position base a).2 = false := h.sideBit ha
    rw [sideBit, bit_setVoBits fun o ho => (hl o ho).2, hcleared, and_iff_right rfl]
    simp only [Bool.false_eq_true, false_or]
    constructor
    · rintro ⟨o, ho, hp⟩
      obtain rfl := (position_inj (hl o ho).1 hd).mp hp
      exact ho
    · intro hmem
      exact ⟨_, hmem, rfl⟩

theorem bit_setVoBits_of_ne (hl : ∀ o ∈ l, base + o.address >>> 6 < 2 ^ 64) {x i : ℕ}
    (hne : ∀ o ∈ l, position base o.address ≠ (x, i)) :
    (setVoBits base cooperative m l).bit x i = m.bit x i := by
  cases cooperative with
  | false => rw [setVoBits_uncooperative]
  | true =>
    rw [Bool.eq_iff_iff, bit_setVoBits hl]
    exact or_iff_left fun ⟨o, ho, hp⟩ => hne o ho hp

/--
In cooperative builds the bits of the objects that were allocated are set, and nothing else
changes. With an object barrier the log bit decides about the slow path.
-/
theorem side_metadata_bits {logBase : ℕ} (h : Cleared base m)
    (hl : ∀ o ∈ l, 8 ∣ o.address ∧ base + o.address >>> 6 < 2 ^ 64) :
    (∀ a < 2 ^ 64, 8 ∣ a →
      (sideBit base (setVoBits base cooperative m l) a = true ↔ cooperative = true ∧ ⟨a⟩ ∈ l)) ∧
    (∀ x i, (∀ o ∈ l, position base o.address ≠ (x, i)) →
      (setVoBits base cooperative m l).bit x i = m.bit x i) ∧
    ∀ (barrier : BarrierSelector) (log : ByteMemory) (src target : VMKitObject) (slot : σ),
      logBase + src.address >>> 6 < 2 ^ 64 →
      ((objectReferenceWritePost logBase log barrier src slot target).isSome = true ↔
        barrier = .objectBarrier ∧ sideBit logBase log src.address = true) :=
  ⟨fun _ ha hd => sideBit_setVoBits_iff h hl ha hd,
    fun _ _ hne => bit_setVoBits_of_ne (fun o ho => (hl o ho).2) hne,
    fun _ _ _ _ _ hsrc => objectReferenceWritePost_isSome_iff hsrc⟩

/-- Two objects whose bits are in one byte, and the address between them. -/
theorem side_metadata_bits_neighbours :
    sideBit 65536 (setVoBits 65536 true (fun _ => 0) [⟨4104⟩, ⟨4120⟩]) 4120 = true ∧
    sideBit 65536 (setVoBits 65536 true (fun _ => 0) [⟨4104⟩, ⟨4120⟩]) 4112 ≠ true ∧
    (objectReferenceWritePost 65536 (setVoBits 65536 true (fun _ => 0) [⟨4104⟩, ⟨4120⟩])
      .objectBarrier ⟨4104⟩ 0 ⟨4120⟩).isSome = true := by
  have hl : ∀ o ∈ [(⟨4104⟩ : VMKitObject), ⟨4120⟩],
      8 ∣ o.address ∧ 65536 + o.address >>> 6 < 2 ^ 64 := by decide
  obtain ⟨hset, -, hpost⟩ := @side_metadata_bits ℕ 65536 (fun _ => 0) true _ 65536
    (fun _ _ => rfl) hl
  refine ⟨(hset 4120 (by decide) (by decide)).mpr ⟨rfl, by decide⟩, fun h => ?_, ?_⟩
  · exact absurd ((hset 4112 (by decide) (by decide)).mp h).2 (by decide)
  · exact (hpost .objectBarrier _ ⟨4104⟩ ⟨4120⟩ 0 (by decide)).mpr
      ⟨rfl, (hset 4104 (by decide) (by decide)).mpr ⟨rfl, by decide⟩⟩

/-- In other builds no bit is set, and without a barrier no write takes the slow path. -/
theorem side_metadata_gates :
    (¬ ∀ (cooperative : Bool) (base : ℕ) (m : ByteMemory) (l : List VMKitObject), Cleared base m →
      (∀ o ∈ l, 8 ∣ o.address ∧ base + o.address >>> 6 < 2 ^ 64) → ∀ a < 2 ^ 64, 8 ∣ a →
      (sideBit base (setVoBits base cooperative m l) a = true ↔ ⟨a⟩ ∈ l)) ∧
    ¬ ∀ (base : ℕ) (m : ByteMemory) (barrier : BarrierSelector) (src target : VMKitObject)
      (slot : ℕ), base + src.address >>> 6 < 2 ^ 64 →
      ((objectReferenceWritePost base m barrier src slot target).isSome = true ↔
        sideBit base m src.address = true) := by
  constructor
  · intro h
    have hset := h false 65536 (fun _ => 0) [⟨4104⟩] (fun _ _ => rfl) (by decide) 4104 (by decide)
      (by decide)
    exact absurd (hset.mpr List.mem_cons_self) (by decide)
  · intro h
    have hslow := h 65536 (fun _ => 255) .noBarrier ⟨4104⟩ ⟨4120⟩ 0 (by decide)
    exact absurd (hslow.mpr (by decide)) (by decide)

end SideMetadata

end VmkitCore
