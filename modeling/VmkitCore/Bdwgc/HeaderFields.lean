import VmkitCore.Bdwgc.Realloc

/-! # The fields of a header

The header word has the metadata of the shim in its low bits, which are a size, a kind and the
atomic bit, and the hash state above them. After any updates, each field has what was stored
there last.
-/

namespace VmkitCore

open ObjectSizes
open Descriptors (ObjectKind)

/-- The kind that a field stands for; the cast to `u8` keeps the low byte. -/
def Descriptors.ObjectKind.fromBitfield : ℕ → ObjectKind
  | 0 => .composite
  | value => .withDescr ((value + 2 ^ 64 - 2) % 2 ^ 64 % 2 ^ 8)

structure BDWGCMetadata where
  word : ℕ
  deriving DecidableEq, Repr

namespace BDWGCMetadata

section Source

variable (bits : Bitfields) (metadata : BDWGCMetadata)

def fromBitfield (value : ℕ) : BDWGCMetadata := ⟨value⟩

def toBitfield : ℕ := metadata.word

def size : ℕ := bits.read 0 sizeBits metadata.word * minAlignment

def kind : ObjectKind := .fromBitfield (bits.read sizeBits kindBits metadata.word)

def isAtomic : Bool := ObjectSizes.isAtomic bits metadata.word

end Source

/-- A size in words, a kind and a flag that fit their fields. -/
structure Fields where
  words : ℕ
  kind : ObjectKind
  isAtomic : Bool
  words_lt : words < 2 ^ 37
  kind_le : ∀ k, kind = .withDescr k → k ≤ 61
  deriving DecidableEq

/-- The metadata that is built from the fields. -/
def Fields.encode (bits : Bitfields) (f : Fields) : Option BDWGCMetadata := do
  let word := (← encodeSize bits f.words) ||| (← encodeKind bits f.kind) |||
    (← encodeIsAtomic bits f.isAtomic)
  some (fromBitfield word)

/-- The three accessors read the fields. -/
structure Decodes (bits : Bitfields) (f : Fields) (metadata : BDWGCMetadata) : Prop where
  size : metadata.size bits = f.words * minAlignment
  kind : metadata.kind bits = f.kind
  isAtomic : metadata.isAtomic bits = f.isAtomic

namespace Fields

variable {bits : Bitfields} {f : Fields}

theorem kind_lt (f : Fields) : f.kind.toBitfield < 2 ^ 6 := by
  have hle := f.kind_le
  cases hk : f.kind with
  | composite => decide
  | withDescr k =>
    have hk := hle k hk
    change 2 + k < 2 ^ 6
    omega

theorem fromBitfield_kind (f : Fields) : ObjectKind.fromBitfield f.kind.toBitfield = f.kind := by
  have hle := f.kind_le
  cases hk : f.kind with
  | composite => rfl
  | withDescr k =>
    have hk := hle k hk
    have hdiv : (2 + k + 2 ^ 64 - 2) % 2 ^ 64 % 2 ^ 8 = k := by omega
    rw [ObjectKind.toBitfield, ObjectKind.fromBitfield, hdiv]
    omega

theorem encode_eq (bits : Bitfields) (f : Fields) : f.encode bits =
    some ⟨f.words ||| f.kind.toBitfield * 2 ^ 37 ||| f.isAtomic.toNat * 2 ^ 43⟩ := by
  have hsize : encodeSize bits f.words = some f.words := by
    rw [encodeSize, sizeBits, bits.encode_of_lt (by decide) f.words_lt, pow_zero, mul_one]
  have hkind : encodeKind bits f.kind = some (f.kind.toBitfield * 2 ^ 37) :=
    bits.encode_of_lt (by decide) f.kind_lt
  have hatomic : encodeIsAtomic bits f.isAtomic = some (f.isAtomic.toNat * 2 ^ 43) :=
    bits.encode_of_lt (by decide) f.isAtomic.toNat_lt
  rw [encode, hsize, hkind, hatomic]
  rfl

/-- The fields leave the hash state zero. -/
theorem encode_lt {metadata : BDWGCMetadata} (h : f.encode bits = some metadata) :
    metadata.word < 2 ^ 62 := by
  rw [encode_eq, Option.some.injEq] at h
  subst h
  have hwords := f.words_lt
  have hkind := f.kind_lt
  have hatomic := f.isAtomic.toNat_lt
  exact Nat.or_lt_two_pow (Nat.or_lt_two_pow (by omega) (by omega)) (by omega)

/-- Each field is its own number, with zeros from the two others. -/
theorem read_fields (bits : Bitfields) {words kind isAtomic : ℕ} (hwords : words < 2 ^ 37)
    (hkind : kind < 2 ^ 6) (hatomic : isAtomic < 2 ^ 1) :
    bits.read 0 37 (words ||| kind * 2 ^ 37 ||| isAtomic * 2 ^ 43) = words ∧
      bits.read 37 6 (words ||| kind * 2 ^ 37 ||| isAtomic * 2 ^ 43) = kind ∧
      bits.read 43 1 (words ||| kind * 2 ^ 37 ||| isAtomic * 2 ^ 43) = isAtomic := by
  refine ⟨?_, ?_, ?_⟩
  · rw [bits.read_or, bits.read_or, bits.read_zero_of_lt hwords,
      bits.read_of_shifted (by decide), bits.read_of_shifted (by decide), Nat.or_zero,
      Nat.or_zero]
  · rw [bits.read_or, bits.read_or, bits.read_of_lt hwords, bits.read_shifted hkind,
      bits.read_of_shifted (by decide), Nat.zero_or, Nat.or_zero]
  · have hk : kind * 2 ^ 37 < 2 ^ 43 := Nat.mul_lt_mul_of_pos_right hkind (Nat.two_pow_pos 37)
    rw [bits.read_or, bits.read_or, bits.read_of_lt (hwords.trans (by decide)),
      bits.read_of_lt hk, bits.read_shifted hatomic, Nat.zero_or, Nat.zero_or]

theorem decodes_encode {metadata : BDWGCMetadata} (h : f.encode bits = some metadata) :
    Decodes bits f metadata := by
  rw [encode_eq, Option.some.injEq] at h
  subst h
  obtain ⟨hsize, hkind, hatomic⟩ := read_fields bits f.words_lt f.kind_lt f.isAtomic.toNat_lt
  refine ⟨congrArg (· * minAlignment) hsize, ?_, ?_⟩
  · exact (congrArg ObjectKind.fromBitfield hkind).trans f.fromBitfield_kind
  · have hne : BDWGCMetadata.isAtomic bits _ = decide (f.isAtomic.toNat ≠ 0) :=
      congrArg (fun v => decide (v ≠ 0)) hatomic
    rw [hne]
    cases f.isAtomic <;> rfl

end Fields

end BDWGCMetadata

namespace HeapObjectHeader

open BDWGCMetadata (Fields)

/-- The calls that change a header; new metadata is built from its fields. -/
inductive Update
  | setHashState (state : HashState)
  | setMetadata (f : Fields)

/-- A header that is created with some metadata, and the updates of it. -/
def machine (bits : Bitfields) : Machine HeapObjectHeader Update where
  init h := ∃ f : Fields, (f.encode bits).map (fun metadata => new metadata.toBitfield) = some h
  step h
    | .setHashState state => some (h.setHashState bits.toBitfieldContainer true state)
    | .setMetadata f => (f.encode bits).map fun metadata =>
      h.setMetadata bits.toBitfieldContainer true metadata.toBitfield

/-- What a header is for: two cells that do not know of each other. -/
structure Cells where
  fields : Fields
  state : HashState
  deriving DecidableEq

def Cells.update (c : Cells) : Update → Cells
  | .setHashState state => { c with state := state }
  | .setMetadata f => { c with fields := f }

/-- The header word has the contents of the cells in its fields. -/
structure Represents (bits : Bitfields) (c : Cells) (h : HeapObjectHeader) : Prop where
  lt : h.word < 2 ^ 64
  metadata : c.fields.encode bits =
    some (.fromBitfield (h.metadata bits.toBitfieldContainer true))
  state : h.hashState bits.toBitfieldContainer true = some c.state

variable {bits : Bitfields} {f : Fields} {c : Cells} {h : HeapObjectHeader}

theorem represents_new {metadata : BDWGCMetadata} (hf : f.encode bits = some metadata) :
    Represents bits ⟨f, .unhashed⟩ (new metadata.toBitfield) := by
  have hlt : metadata.word < 2 ^ 62 := BDWGCMetadata.Fields.encode_lt hf
  refine ⟨hlt.trans (by decide), ?_, ?_⟩
  · have hread := bits.read_zero_of_lt hlt
    rw [hf]
    exact congrArg (fun w => some (BDWGCMetadata.mk w)) hread.symm
  · exact congrArg HashState.fromBitfield (bits.read_of_lt hlt)

/-- An update changes its own cell, and the header goes along. -/
theorem Represents.step (hr : Represents bits c h) (u : Update) :
    ∃ h', (machine bits).step h u = some h' ∧ Represents bits (c.update u) h' := by
  cases u with
  | setHashState state =>
    refine ⟨_, rfl, ?_, ?_, ?_⟩
    · exact bits.update_lt (by decide) state.toBitfield_lt hr.lt
    · have hread : bits.read 0 62 (bits.update 62 2 state.toBitfield h.word) =
          bits.read 0 62 h.word := bits.read_update_other state.toBitfield_lt (.inr (by decide))
      exact hr.metadata.trans (congrArg (fun w => some (BDWGCMetadata.mk w)) hread.symm)
    · have hread : bits.read 62 2 (bits.update 62 2 state.toBitfield h.word) = state.toBitfield :=
        bits.read_update_same (by decide) state.toBitfield_lt hr.lt
      exact (congrArg HashState.fromBitfield hread).trans state.fromBitfield_toBitfield
  | setMetadata f =>
    have hf := BDWGCMetadata.Fields.encode_eq bits f
    have hlt := BDWGCMetadata.Fields.encode_lt hf
    generalize BDWGCMetadata.mk _ = metadata at hf hlt
    have hs : (machine bits).step h (.setMetadata f) =
        some (h.setMetadata bits.toBitfieldContainer true metadata.toBitfield) := by
      simp only [machine, hf, Option.map_some]
    refine ⟨_, hs, ?_, ?_, ?_⟩
    · exact bits.update_lt (by decide) hlt hr.lt
    · have hread : bits.read 0 62 (bits.update 0 62 metadata.word h.word) = metadata.word :=
        bits.read_update_same (by decide) hlt hr.lt
      exact hf.trans (congrArg (fun w => some (BDWGCMetadata.mk w)) hread.symm)
    · have hread : bits.read 62 2 (bits.update 0 62 metadata.word h.word) =
          bits.read 62 2 h.word := bits.read_update_other hlt (.inl (by decide))
      exact (congrArg HashState.fromBitfield hread).trans hr.state

theorem Represents.run (hr : Represents bits c h) (l : List Update) :
    ∃ h', (machine bits).exec h l = some h' ∧ Represents bits (l.foldl Cells.update c) h' := by
  induction l generalizing c h with
  | nil => exact ⟨h, rfl, hr⟩
  | cons u l ih =>
    obtain ⟨t, hs, ht⟩ := hr.step u
    obtain ⟨h', hl, hr'⟩ := ih ht
    exact ⟨h', Machine.exec_cons_eq_some.mpr ⟨t, hs, hl⟩, hr'⟩

/--
After any updates the accessors decode the metadata that was stored last, and the hash state is
the one that was set last, so it is never the bit pattern that stands for none.
-/
theorem header_fields_last (bits : Bitfields) (f : Fields) (l : List Update) :
    ∃ metadata h, f.encode bits = some metadata ∧
      (machine bits).exec (new metadata.toBitfield) l = some h ∧
      BDWGCMetadata.Decodes bits (l.foldl Cells.update ⟨f, .unhashed⟩).fields
        (.fromBitfield (h.metadata bits.toBitfieldContainer true)) ∧
      h.hashState bits.toBitfieldContainer true =
        some (l.foldl Cells.update ⟨f, .unhashed⟩).state := by
  have hf := BDWGCMetadata.Fields.encode_eq bits f
  obtain ⟨h, hl, hr⟩ := (represents_new hf).run l
  exact ⟨_, h, hf, hl, BDWGCMetadata.Fields.decodes_encode hr.metadata, hr.state⟩

/-- The same for the header of an object in memory. -/
theorem Represents.object {conv : Conversions} {m : ByteMemory} {o : VMKitObject}
    (hr : Represents bits c (o.headerAt m)) (ho : objectRefOffset ≤ o.address) :
    o.hashState (bdwgc bits conv true) m = some c.state ∧
      ∃ w, o.metadata (bdwgc bits conv true) m = some w ∧
        BDWGCMetadata.Decodes bits c.fields (.fromBitfield w) := by
  obtain ⟨hstate, hmeta, -⟩ : o.hashState (bdwgc bits conv true) m = _ ∧ _ ∧ _ :=
    VMKitObject.headerAt_spec ho
  exact ⟨hstate.trans hr.state, _, hmeta, BDWGCMetadata.Fields.decodes_encode hr.metadata⟩

end HeapObjectHeader

end VmkitCore
