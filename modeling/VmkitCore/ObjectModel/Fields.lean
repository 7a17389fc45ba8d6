import VmkitCore.ObjectModel.FieldAccess
import VmkitCore.ObjectModel.Tracing

/-! # Typed fields

The accessors of a field all load or store a primitive number. They differ in its size, and in
which numbers stand for which values.
-/

namespace VmkitCore

/-- The numbers of `size` bytes that stand for the values of a type. -/
structure FieldType (α : Type*) where
  size : ℕ
  size_pos : 0 < size
  encode : α → ℕ
  decode : ℕ → α
  encode_lt : ∀ a, encode a < 256 ^ size
  decode_encode : ∀ a, decode (encode a) = a

/-- A reference that is the number of an address. -/
abbrev FieldReference := { o : VMKitObject // o.address < 2 ^ 64 }

/-- A compressed reference that is the number of four bytes. -/
abbrev NarrowReference := { n : VMKitNarrow // n.raw < 2 ^ 32 }

/-- An `f32`, which is its bits. -/
structure F32 where
  bits : UInt32
  deriving DecidableEq, Repr

/-- An `f64`, which is its bits. -/
structure F64 where
  bits : UInt64
  deriving DecidableEq, Repr

namespace FieldType

def bool : FieldType Bool where
  size := 1
  size_pos := by decide
  encode value := if value then 1 else 0
  decode n := n ≠ 0
  encode_lt := by decide
  decode_encode := by decide

def u8 : FieldType UInt8 where
  size := 1
  size_pos := by decide
  encode := UInt8.toNat
  decode := UInt8.ofNat
  encode_lt := UInt8.toNat_lt
  decode_encode _ := UInt8.ofNat_toNat

def u16 : FieldType UInt16 where
  size := 2
  size_pos := by decide
  encode := UInt16.toNat
  decode := UInt16.ofNat
  encode_lt := UInt16.toNat_lt
  decode_encode _ := UInt16.ofNat_toNat

def u32 : FieldType UInt32 where
  size := 4
  size_pos := by decide
  encode := UInt32.toNat
  decode := UInt32.ofNat
  encode_lt := UInt32.toNat_lt
  decode_encode _ := UInt32.ofNat_toNat

def u64 : FieldType UInt64 where
  size := 8
  size_pos := by decide
  encode := UInt64.toNat
  decode := UInt64.ofNat
  encode_lt := UInt64.toNat_lt
  decode_encode _ := UInt64.ofNat_toNat

/-- The type of the numbers with the same bits. -/
def cast {α β : Type*} (type : FieldType α) (f : β → α) (g : α → β) (h : ∀ b, g (f b) = b) :
    FieldType β where
  size := type.size
  size_pos := type.size_pos
  encode b := type.encode (f b)
  decode n := g (type.decode n)
  encode_lt b := type.encode_lt (f b)
  decode_encode b := by rw [type.decode_encode, h]

def i8 : FieldType Int8 := u8.cast Int8.toUInt8 UInt8.toInt8 Int8.toInt8_toUInt8

def i16 : FieldType Int16 := u16.cast Int16.toUInt16 UInt16.toInt16 Int16.toInt16_toUInt16

def i32 : FieldType Int32 := u32.cast Int32.toUInt32 UInt32.toInt32 Int32.toInt32_toUInt32

def i64 : FieldType Int64 := u64.cast Int64.toUInt64 UInt64.toInt64 Int64.toInt64_toUInt64

/-- A float is stored as its bits. -/
def f32 : FieldType F32 := u32.cast F32.bits F32.mk fun _ => rfl

def f64 : FieldType F64 := u64.cast F64.bits F64.mk fun _ => rfl

/-- A reference is stored as its address. -/
def object : FieldType FieldReference where
  size := 8
  size_pos := by decide
  encode o := o.val.address
  decode n := ⟨⟨n % 2 ^ 64⟩, Nat.mod_lt _ (by decide)⟩
  encode_lt o := o.property
  decode_encode o := Subtype.ext (congrArg VMKitObject.mk (Nat.mod_eq_of_lt o.property))

/-- A compressed reference is stored as its raw value. -/
def narrow : FieldType NarrowReference where
  size := 4
  size_pos := by decide
  encode n := n.val.raw
  decode n := ⟨⟨n % 2 ^ 32⟩, Nat.mod_lt _ (by decide)⟩
  encode_lt n := n.property
  decode_encode n := Subtype.ext (congrArg VMKitNarrow.mk (Nat.mod_eq_of_lt n.property))

end FieldType

namespace VMKitObject

section Source

variable (vm : VirtualMachine) (m : ByteMemory) (o : VMKitObject) (offset : ℤ)

def getField {α : Type*} (type : FieldType α) : Option α :=
  (o.getFieldPrimitive vm m type.size offset).map type.decode

def setField {α : Type*} (type : FieldType α) (value : α) : Option ByteMemory :=
  o.setFieldPrimitive vm m type.size offset (type.encode value)

def getFieldBool := o.getField vm m offset .bool
def setFieldBool := o.setField vm m offset .bool

def getFieldU8 := o.getField vm m offset .u8
def setFieldU8 := o.setField vm m offset .u8

def getFieldU16 := o.getField vm m offset .u16
def setFieldU16 := o.setField vm m offset .u16

def getFieldU32 := o.getField vm m offset .u32
def setFieldU32 := o.setField vm m offset .u32

def getFieldU64 := o.getField vm m offset .u64
def setFieldU64 := o.setField vm m offset .u64

def getFieldI8 := o.getField vm m offset .i8
def setFieldI8 := o.setField vm m offset .i8

def getFieldI16 := o.getField vm m offset .i16
def setFieldI16 := o.setField vm m offset .i16

def getFieldI32 := o.getField vm m offset .i32
def setFieldI32 := o.setField vm m offset .i32

def getFieldI64 := o.getField vm m offset .i64
def setFieldI64 := o.setField vm m offset .i64

def getFieldF32 := o.getField vm m offset .f32
def setFieldF32 := o.setField vm m offset .f32

def getFieldF64 := o.getField vm m offset .f64
def setFieldF64 := o.setField vm m offset .f64

def getFieldUsize := o.getField vm m offset .u64
def setFieldUsize := o.setField vm m offset .u64

def getFieldIsize := o.getField vm m offset .i64
def setFieldIsize := o.setField vm m offset .i64

def getFieldObject := o.getField vm m offset .object
def setFieldObjectNoWriteBarrier := o.setField vm m offset .object

def getFieldNarrow := o.getField vm m offset .narrow
def setFieldNarrowNoWriteBarrier := o.setField vm m offset .narrow

end Source

/-- Where an object of known size lets its fields be, which are so many bytes from its reference. -/
structure Holds (vm : VirtualMachine) (m : ByteMemory) (o : VMKitObject) (bytes : ℕ) : Prop where
  used : ∃ total, o.bytesUsed vm m = some total ∧ bytes ≤ total ∧ total < 2 ^ 63
  inside : o.address + bytes ≤ 2 ^ 64

variable {vm : VirtualMachine} {m : ByteMemory} {o : VMKitObject} {α : Type*}
  {type : FieldType α} {bytes offset : ℕ} {value : α}

theorem Holds.fieldAddress (h : o.Holds vm m bytes) (hoffset : offset < bytes) :
    o.fieldAddress offset = o.address + offset := by
  have hinside := h.inside
  unfold VMKitObject.fieldAddress
  omega

theorem Holds.assertInBounds (h : o.Holds vm m bytes) (hoffset : offset < bytes) :
    o.assertInBounds vm m offset = some () := by
  obtain ⟨total, htotal, hle, hlt⟩ := h.used
  have hbmod : Int.bmod total (2 ^ 64) = total := by
    rw [Int.bmod_def]
    omega
  rw [VMKitObject.assertInBounds, htotal, Option.bind_eq_bind, Option.bind_some, hbmod]
  simp only [guard]
  exact if_pos (by omega)

theorem Holds.getField (h : o.Holds vm m bytes) (hoffset : offset + type.size ≤ bytes) :
    o.getField vm m offset type = some (type.decode (m.load (o.address + offset) type.size)) := by
  have hlt : offset < bytes := by
    have := type.size_pos
    omega
  rw [VMKitObject.getField, getFieldPrimitive, h.assertInBounds hlt, h.fieldAddress hlt]
  rfl

theorem Holds.setField (h : o.Holds vm m bytes) (hoffset : offset + type.size ≤ bytes) :
    o.setField vm m offset type value =
      some (m.store (o.address + offset) type.size (type.encode value)) := by
  have hlt : offset < bytes := by
    have := type.size_pos
    omega
  rw [VMKitObject.setField, setFieldPrimitive, h.assertInBounds hlt, h.fieldAddress hlt]
  rfl

end VMKitObject

end VmkitCore
