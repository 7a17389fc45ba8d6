import VmkitCore.Proc.DerivedCode

/-! # Objects of derived types

The collector asks the generated code for the size of an object before it moves it, and for its
slots before and after. The two go together: what is visited lies in what is moved.
-/

namespace VmkitCore.Derive

/-- The bytes at one address are those at another. -/
def SameBytes (m : ByteMemory) (a : ℕ) (m' : ByteMemory) (a' n : ℕ) : Prop :=
  ∀ i < n, m' (a' + i) = m (a + i)

theorem SameBytes.mono {m m' : ByteMemory} {a a' k n : ℕ} (h : SameBytes m a m' a' n)
    (hk : k ≤ n) : SameBytes m a m' a' k :=
  fun i hi => h i (hi.trans_le hk)

theorem SameBytes.trans {m m' m'' : ByteMemory} {a a' a'' n : ℕ} (h : SameBytes m a m' a' n)
    (h' : SameBytes m' a' m'' a'' n) : SameBytes m a m'' a'' n :=
  fun i hi => (h' i hi).trans (h i hi)

theorem SameBytes.add {m m' : ByteMemory} {a a' k n bytes : ℕ} (h : SameBytes m a m' a' bytes)
    (hk : k + n ≤ bytes) : SameBytes m (a + k) m' (a' + k) n := by
  intro i hi
  rw [Nat.add_assoc, Nat.add_assoc]
  exact h (k + i) (by omega)

section Runs

variable {vm : VirtualMachine} {s s' : ObjectState} {w n : ℕ}

/-- Neither a `hashcode()` call nor a move changes the payload of an object. -/
theorem sameBytes_step (habh : vm.addressBasedHashing = true) (hl : s.Live vm)
    (hw : s.object.metadata vm s.memory = some w)
    (hn : s.object.payloadBytes vm s.memory = some n) {op : ObjectOp}
    (hstep : objectStep vm s op = some s') :
    s'.Live vm ∧ s'.object.metadata vm s'.memory = some w ∧
      SameBytes s.memory s.object.address s'.memory s'.object.address n := by
  obtain ⟨state, hs, ho, hb⟩ := id hl
  cases op with
  | hashcode =>
    obtain ⟨m', hset, -, hmeta, hframe⟩ :=
      VMKitObject.setHashState_spec (m := s.memory) hl.front habh .hashed
    obtain ⟨⟨h, m⟩, hc, rfl⟩ : ∃ r, s.object.hashcode vm s.memory = some r ∧
        (⟨r.2, s.object⟩ : ObjectState) = s' := by
      simpa [objectStep, Option.bind_eq_some_iff] using hstep
    refine ⟨(hashcode_step habh hl hc).1, ?_⟩
    cases state with
    | hashedAndMoved =>
      obtain ⟨-, rfl⟩ : _ ∧ s.memory = m := by
        simpa [VMKitObject.hashcode, habh, hs] using hc
      exact ⟨hw, fun _ _ => rfl⟩
    | unhashed | hashed =>
      obtain ⟨-, rfl⟩ : _ ∧ m' = m := by
        simpa [VMKitObject.hashcode, habh, hs, hset] using hc
      refine ⟨hmeta.trans hw, fun i _ => hframe (s.object.address + i) ?_⟩
      have hfront := hl.front
      unfold ByteMemory.Disjoint objectRefOffset headerBytes at *
      omega
  | relocate target =>
    obtain ⟨hobj, hl', -⟩ := relocate_spec habh hl hs hstep
    obtain ⟨numBytes, hbytes, hle⟩ :=
      VMKitObjectModel.bytesRequiredWhenCopied_spec hl.front habh hs
    have hroom := VMKitObject.payload_le habh hs hn hbytes
    simp only [objectStep, hs, hbytes, Option.bind_eq_bind, Option.bind_some] at hstep
    split at hstep
    case isFalse => cases hstep
    case isTrue hf =>
      obtain ⟨m', hm', -, hmeta, -⟩ := VMKitObjectModel.moveObject_spec habh hs ho hf.2.1 hle
      obtain ⟨-, hpay, -, -⟩ := VMKitObjectModel.moveObject_bytes hs ho hf.2.1 hle hm'
      simp only [hm', Option.bind_some, Option.some.injEq] at hstep
      subst hstep
      exact ⟨hl', hmeta.trans hw, fun i hi => hpay i (by omega)⟩

/-- Where its payload says how large an object is, no run changes the payload. -/
theorem sameBytes_exec (habh : vm.addressBasedHashing = true) {m : ByteMemory} {a : ℕ}
    (hn : ∀ {m' o'}, VMKitObject.metadata vm m' o' = some w →
      SameBytes m a m' o'.address n → o'.payloadBytes vm m' = some n)
    (hl : s.Live vm) (hw : s.object.metadata vm s.memory = some w)
    (hsame : SameBytes m a s.memory s.object.address n) {ops : List ObjectOp}
    (hexec : (objectMachine vm).exec s ops = some s') :
    s'.Live vm ∧ s'.object.metadata vm s'.memory = some w ∧
      SameBytes m a s'.memory s'.object.address n := by
  induction ops generalizing s with
  | nil =>
    cases hexec
    exact ⟨hl, hw, hsame⟩
  | cons op ops ih =>
    obtain ⟨s₁, hstep, hexec⟩ := Machine.exec_cons_eq_some.mp hexec
    obtain ⟨hl₁, hw₁, hsame₁⟩ := sameBytes_step habh hl hw (hn hw hsame) hstep
    exact ih hl₁ hw₁ (hsame.trans hsame₁) hexec

end Runs

section Layout

variable {T E : Type}

/-- The values of a type keep their slots in their own bytes, wherever they are. -/
structure Meaning.InPlace (meaning : Meaning T E) (type : T) : Prop where
  inside : ∀ {m a slot}, slot ∈ meaning.scanObject type m a →
    a ≤ slot ∧ slot + 8 ≤ a + meaning.sizeOf type
  moves : ∀ {m a m' a'}, SameBytes m a m' a' (meaning.sizeOf type) →
    meaning.scanObject type m' a' = (meaning.scanObject type m a).map fun slot => slot - a + a'

/--
Fields lie inside the type, the elements of an array at a fixed place in it or right behind it,
where a pointer to them has their type, and what the code reads of an object is in the bytes of
the type.
-/
structure Meaning.LaysOut (meaning : Meaning T E) (data : Data T)
    (array? : Option (ArrayLike T E)) : Prop where
  offset_le : ∀ {variant i : ℕ} {fields} {field : Field T}, data.variants[variant]? = some fields →
    fields[i]? = some field → meaning.offset variant i + meaning.sizeOf field.type ≤ meaning.size
  inPlace : ∀ {variant i : ℕ} {fields} {field : Field T}, data.variants[variant]? = some fields →
    fields[i]? = some field → field.Traced array? → meaning.InPlace field.type
  element : ∀ {array}, array? = some array → array.trace = true →
    meaning.InPlace array.elementType
  pointee : ∀ {array}, array? = some array → array.trace = true →
    array.pointee meaning = array.elementType
  start : ∀ {array}, array? = some array → array.trace = true →
    ∃ k ≤ meaning.size, ∀ {m a p}, array.Start meaning data m a p → p = a + k
  length : ∀ {array m a m' a' n}, array? = some array → SameBytes m a m' a' meaning.size →
    array.Length meaning data m a n → array.Length meaning data m' a' n
  variant : ∀ {m a m' a'}, SameBytes m a m' a' meaning.size →
    meaning.variant m' a' = meaning.variant m a

variable {meaning : Meaning T E} {data : Data T} {m m' : ByteMemory} {a a' k n bytes : ℕ}
  {array : ArrayLike T E} {array? : Option (ArrayLike T E)} {gcMetadata : GCMetadata T E}
  {out : Output T E} {slots : List ℕ} {slot : ℕ} {type : T}

/-- A value inside an object moves with the object. -/
theorem Meaning.InPlace.moves_add (h : meaning.InPlace type) (hsame : SameBytes m a m' a' bytes)
    (hk : k + meaning.sizeOf type ≤ bytes) : meaning.scanObject type m' (a' + k) =
      (meaning.scanObject type m (a + k)).map fun slot => slot - a + a' := by
  rw [h.moves (hsame.add hk)]
  apply List.map_congr_left
  intro slot hmem
  have := (h.inside hmem).1
  omega

/-- The slots of so many values, one after the other. -/
def Meaning.elements (meaning : Meaning T E) (type : T) (m : ByteMemory) (length start : ℕ) :
    List ℕ :=
  (List.range length).flatMap fun i =>
    meaning.scanObject type m (start + i * meaning.sizeOf type)

/-- Inside the address space, pointers to elements do not wrap around. -/
theorem Meaning.add_eq {start length i : ℕ} (h : start + length * meaning.sizeOf type < 2 ^ 64)
    (hi : i < length) : meaning.add type start i = start + i * meaning.sizeOf type := by
  have hle := Nat.mul_le_mul_right (meaning.sizeOf type) (Nat.le_of_lt hi)
  exact Nat.mod_eq_of_lt (by omega)

theorem Meaning.elements_eq {start length : ℕ}
    (h : start + length * meaning.sizeOf type < 2 ^ 64) :
    ((List.range length).flatMap fun i => meaning.scanObject type m (meaning.add type start i)) =
      meaning.elements type m length start := by
  apply List.flatMap_congr
  intro i hi
  rw [Meaning.add_eq h (List.mem_range.mp hi)]

theorem Meaning.InPlace.elements_moves (h : meaning.InPlace type)
    (hsame : SameBytes m a m' a' bytes) (hk : k + n * meaning.sizeOf type ≤ bytes) :
    meaning.elements type m' n (a' + k) =
      (meaning.elements type m n (a + k)).map fun slot => slot - a + a' := by
  rw [Meaning.elements, Meaning.elements, List.map_flatMap]
  apply List.flatMap_congr
  intro i hi
  have hi := Nat.mul_le_mul_right (meaning.sizeOf type)
    (Nat.succ_le_of_lt (List.mem_range.mp hi))
  rw [Nat.succ_mul] at hi
  rw [Nat.add_assoc, Nat.add_assoc]
  exact h.moves_add hsame (by omega)

theorem Meaning.InPlace.elements_inside (h : meaning.InPlace type)
    (hmem : slot ∈ meaning.elements type m n (a + k)) :
    a ≤ slot ∧ slot + 8 ≤ a + (k + n * meaning.sizeOf type) := by
  obtain ⟨i, hi, hmem⟩ := List.mem_flatMap.mp hmem
  have hi := Nat.mul_le_mul_right (meaning.sizeOf type)
    (Nat.succ_le_of_lt (List.mem_range.mp hi))
  rw [Nat.succ_mul] at hi
  have := h.inside hmem
  omega

/-- The macro works out the size. It does so for an array that is given a constant as well. -/
structure SizedByType (size : ObjectSize E) (array? : Option (ArrayLike T E)) : Prop where
  not_compute : ∀ expr, size ≠ .compute expr
  auto : array? = none → size = .auto

/-- A `usize` counts the bytes of the type and of its elements. -/
def Counted (meaning : Meaning T E) (data : Data T) (array? : Option (ArrayLike T E))
    (m : ByteMemory) (a : ℕ) : Prop :=
  ∀ array length, array? = some array → array.Length meaning data m a length →
    meaning.size + length * meaning.sizeOf array.elementType < 2 ^ 64

theorem Payload.size_le {size : ObjectSize E} (hsized : SizedByType size array?)
    (hcounted : Counted meaning data array? m a) (h : Payload meaning data m a size array? n) :
    meaning.size ≤ n := by
  cases h with
  | compute hcompute => exact absurd hcompute (hsized.not_compute _)
  | auto => exact le_rfl
  | size hgiven => cases hgiven.symm.trans (hsized.auto rfl)
  | elements _ hlength =>
    rw [Nat.mod_eq_of_lt (hcounted _ _ rfl hlength)]
    exact Nat.le_add_right _ _

/-- The payload is large enough for the elements of an array. -/
theorem Payload.elements_le {size : ObjectSize E} (hsized : SizedByType size array?)
    (hcounted : Counted meaning data array? m a) (h : Payload meaning data m a size array? n)
    (harray : array? = some array) {length : ℕ}
    (hlength : array.Length meaning data m a length) :
    meaning.size + length * meaning.sizeOf array.elementType = n := by
  subst harray
  cases h with
  | compute hcompute => exact absurd hcompute (hsized.not_compute _)
  | elements _ hlength' =>
    rw [hlength.unique hlength', Nat.mod_eq_of_lt (hcounted _ _ rfl hlength')]

theorem Payload.moves (hlay : meaning.LaysOut data array?) {size : ObjectSize E}
    (hsized : SizedByType size array?) (hcounted : Counted meaning data array? m a)
    (h : Payload meaning data m a size array? n) (hsame : SameBytes m a m' a' n) :
    Payload meaning data m' a' size array? n := by
  have hle := h.size_le hsized hcounted
  cases h with
  | compute hcompute => exact absurd hcompute (hsized.not_compute _)
  | auto hauto => exact .auto hauto
  | size hgiven => exact .size hgiven
  | elements hnot hlength => exact .elements hnot (hlay.length rfl (hsame.mono hle) hlength)

theorem Access.exists {getter : E → ByteMemory → ℕ → ℕ} {field : T → ByteMemory → ℕ → ℕ}
    {expr? : Option E} {name? : Option String}
    (h : Access meaning data m a getter field expr? name? n) :
    ∃ n', Access meaning data m' a' getter field expr? name? n' := by
  cases h with
  | getter => exact ⟨_, .getter⟩
  | field hp => exact ⟨_, .field hp⟩

/-- The elements that are visited move with the object. -/
theorem ElementsVisited.moves (hlay : meaning.LaysOut data array?) {size : ObjectSize E}
    (hsized : SizedByType size array?) (hcounted : Counted meaning data array? m a)
    (hn : Payload meaning data m a size array? n) (hend : a + n < 2 ^ 64) (hend' : a' + n < 2 ^ 64)
    (hpos : 0 < a') (hsame : SameBytes m a m' a' n) {visited : List ℕ}
    (h : ElementsVisited meaning data m a array? visited) :
    ElementsVisited meaning data m' a' array? (visited.map fun slot => slot - a + a') := by
  cases h with
  | none hnone => exact .none hnone
  | @some array length start harray hon hlength hstart =>
    obtain ⟨k, hk, hplace⟩ := hlay.start harray hon
    obtain ⟨start', hstart'⟩ : ∃ p, array.Start meaning data m' a' p := hstart.exists
    have hbytes := hn.elements_le hsized hcounted harray hlength
    have hmoves := (hlay.element harray hon).elements_moves (k := k) (n := length) hsame (by omega)
    have hspace : start + length * meaning.sizeOf array.elementType < 2 ^ 64 := by
      rw [hplace hstart]
      omega
    have hspace' : start' + length * meaning.sizeOf array.elementType < 2 ^ 64 := by
      rw [hplace hstart']
      omega
    have hlength' : array.Length meaning data m' a' length :=
      hlay.length harray (hsame.mono (hn.size_le hsized hcounted)) hlength
    have hvisited := ElementsVisited.some harray hon hlength' hstart'
    rw [hlay.pointee harray hon] at hvisited ⊢
    rw [Meaning.elements_eq hspace'] at hvisited
    rw [Meaning.elements_eq hspace, hplace hstart, ← hmoves, ← hplace hstart']
    apply hvisited
    intro i hi
    rw [Meaning.add_eq hspace' hi, hplace hstart']
    omega

theorem ElementsVisited.inside (hlay : meaning.LaysOut data array?) {size : ObjectSize E}
    (hsized : SizedByType size array?) (hcounted : Counted meaning data array? m a)
    (hn : Payload meaning data m a size array? n) (hend : a + n < 2 ^ 64) {visited : List ℕ}
    (h : ElementsVisited meaning data m a array? visited) (hmem : slot ∈ visited) :
    a ≤ slot ∧ slot + 8 ≤ a + n := by
  cases h with
  | none => cases hmem
  | @some array length start harray hon hlength hstart =>
    obtain ⟨k, hk, hplace⟩ := hlay.start harray hon
    have hbytes := hn.elements_le hsized hcounted harray hlength
    have hspace : start + length * meaning.sizeOf array.elementType < 2 ^ 64 := by
      rw [hplace hstart]
      omega
    rw [hlay.pointee harray hon, Meaning.elements_eq hspace, hplace hstart] at hmem
    have := (hlay.element harray hon).elements_inside hmem
    omega

/-- The traced fields of a variant move with the object, and lie in it. -/
theorem fields_moves (hlay : meaning.LaysOut data array?) {variant : ℕ} {fields : List (Field T)}
    (hfields : data.variants[variant]? = some fields)
    (hsame : SameBytes m a m' a' meaning.size) :
    (keptFields (fieldsToSkip array?) fields).flatMap (meaning.mark m' a' variant fields) =
      ((keptFields (fieldsToSkip array?) fields).flatMap
        (meaning.mark m a variant fields)).map fun slot => slot - a + a' := by
  rw [List.map_flatMap]
  apply List.flatMap_congr
  intro i hi
  obtain ⟨field, hfield, htraced⟩ := mem_keptFields.mp hi
  rw [Meaning.mark_of_getElem? hfield, Meaning.mark_of_getElem? hfield]
  exact (hlay.inPlace hfields hfield htraced).moves_add hsame (hlay.offset_le hfields hfield)

theorem fields_inside (hlay : meaning.LaysOut data array?) {variant : ℕ} {fields : List (Field T)}
    (hfields : data.variants[variant]? = some fields)
    (hmem : slot ∈ (keptFields (fieldsToSkip array?) fields).flatMap
      (meaning.mark m a variant fields)) : a ≤ slot ∧ slot + 8 ≤ a + meaning.size := by
  obtain ⟨i, hi, hmem⟩ := List.mem_flatMap.mp hmem
  obtain ⟨field, hfield, htraced⟩ := mem_keptFields.mp hi
  rw [Meaning.mark_of_getElem? hfield] at hmem
  have hinside := (hlay.inPlace hfields hfield htraced).inside hmem
  have hoffset := hlay.offset_le hfields hfield
  omega

variable (hgen : generate gcMetadata array? data = .ok out)
  (htrace : gcMetadata.trace = .auto true) (hlay : meaning.LaysOut data array?)
  (hsized : SizedByType gcMetadata.size array?) (hcounted : Counted meaning data array? m a)
  (hn : Payload meaning data m a gcMetadata.size array? n) (hend : a + n < 2 ^ 64)
  (hslots : out.scanObject meaning data m a = some slots)
include hgen htrace hlay hsized hcounted hn hend hslots

/-- The slots that are visited lie in the payload. -/
theorem scanObject_inside (hmem : slot ∈ slots) : a ≤ slot ∧ slot + 8 ≤ a + n := by
  obtain ⟨visited, fields, hvisited, hfields, rfl⟩ := (scanObject_eq_some hgen htrace).mp hslots
  rcases List.mem_append.mp hmem with hmem | hmem
  · exact hvisited.inside hlay hsized hcounted hn hend hmem
  · have hinside := fields_inside hlay hfields hmem
    have hle := hn.size_le hsized hcounted
    omega

/-- The slots that are visited move with the payload. -/
theorem scanObject_moves (hsame : SameBytes m a m' a' n) (hend' : a' + n < 2 ^ 64)
    (hpos : 0 < a') :
    out.scanObject meaning data m' a' = some (slots.map fun slot => slot - a + a') := by
  obtain ⟨visited, fields, hvisited, hfields, rfl⟩ := (scanObject_eq_some hgen htrace).mp hslots
  have hsize := hsame.mono (hn.size_le hsized hcounted)
  have hvariant := hlay.variant hsize
  refine (scanObject_eq_some hgen htrace).mpr ⟨_, fields,
    hvisited.moves hlay hsized hcounted hn hend hend' hpos hsame, by rw [hvariant, hfields], ?_⟩
  rw [hvariant, fields_moves hlay hfields hsize, List.map_append]

end Layout

namespace ScanType

/-- There is no vector in the type. -/
def Inline : ScanType → Prop
  | prim _ | object => True
  | array element _ => element.Inline
  | vec _ => False

theorem inPlace {E : Type} {meaning : Meaning ScanType E} {buffer : ByteMemory → ℕ → ℕ × ℕ}
    (hsize : meaning.sizeOf = size) (hscan : meaning.scanObject = scanObject buffer)
    {type : ScanType} (h : type.Inline) : meaning.InPlace type := by
  induction type with
  | prim n => constructor <;> simp [hscan, scanObject]
  | object =>
    constructor
    · intro m a slot hmem
      rw [hscan] at hmem
      cases List.mem_singleton.mp hmem
      simp [hsize, size]
    · intro m a m' a' _
      simp [hscan, scanObject]
  | array element n ih =>
    have helements : ∀ m a, meaning.scanObject (array element n) m a =
        meaning.elements element m n a := by
      intro m a
      rw [hscan, scanObject, Meaning.elements, hscan, hsize]
    have hbytes : meaning.sizeOf (array element n) = n * meaning.sizeOf element := by
      rw [hsize, size]
    constructor
    · intro m a slot hmem
      rw [helements] at hmem
      have hinside := (ih h).elements_inside (k := 0) hmem
      rwa [Nat.zero_add, ← hbytes] at hinside
    · intro m a m' a' hsame
      rw [helements, helements]
      exact (ih h).elements_moves (k := 0) hsame (by rw [Nat.zero_add, hbytes])
  | vec element => exact h.elim

end ScanType

section Stable

variable {T E : Type} {syn : Syn T E} {reserved : String → Bool} {input : DeriveInput T}
  {out : Output T E} {gcMetadata : GCMetadata T E} {array? : Option (ArrayLike T E)}
  {meaning : Meaning T E} {vm : VirtualMachine} {s s' : ObjectState} {w n : ℕ} {slots : List ℕ}

/--
Let a type that is to be scanned, and whose size the macro works out, keep its slots in its own
bytes. However often an object of the type is hashed and moved inside the address space, the code
visits the slots at the distances from the reference that they had at first. They lie in the
payload and hold the same.
-/
theorem derived_slots_move (habh : vm.addressBasedHashing = true)
    (hout : deriveGcmetadata syn reserved input = .ok out)
    (hgc : findGcmetadata syn input.attrs = .ok gcMetadata)
    (harray : findArraylike syn reserved input.attrs = .ok array?)
    (htrace : gcMetadata.trace = .auto true) (hsized : SizedByType gcMetadata.size array?)
    (hlay : meaning.LaysOut input.data array?)
    (hvm : vm.gcMetadata w = out.gcMetadata meaning input.data) (hl : s.Live vm)
    (hw : s.object.metadata vm s.memory = some w)
    (hn : Payload meaning input.data s.memory s.object.address gcMetadata.size array? n)
    (hcounted : Counted meaning input.data array? s.memory s.object.address)
    (hend : s.object.address + n < 2 ^ 64)
    (hslots : out.scanObject meaning input.data s.memory s.object.address = some slots)
    {ops : List ObjectOp} (hexec : (objectMachine vm).exec s ops = some s')
    (hend' : s'.object.address + n < 2 ^ 64) :
    out.scanObject meaning input.data s'.memory s'.object.address =
        some (slots.map fun slot => slot - s.object.address + s'.object.address) ∧
      s'.object.payloadBytes vm s'.memory = some n ∧
      ∀ slot ∈ slots, s.object.address ≤ slot ∧ slot + 8 ≤ s.object.address + n ∧
        s'.memory.load (slot - s.object.address + s'.object.address) 8 = s.memory.load slot 8 := by
  have hgen : generate gcMetadata array? input.data = .ok out := by
    obtain ⟨gcMetadata', array?', hgc', harray', hgen⟩ := deriveGcmetadata_eq_ok.mp hout
    cases hgc.symm.trans hgc'
    cases harray.symm.trans harray'
    exact hgen
  have hpayload : ∀ {m' o'}, VMKitObject.metadata vm m' o' = some w →
      SameBytes s.memory s.object.address m' o'.address n → o'.payloadBytes vm m' = some n := by
    intro m' o' hw' hsame
    refine payloadBytes_eq hgen ?_ (hn.moves hlay hsized hcounted hsame)
    rw [VMKitObject.gcMetadata, hw', Option.map_some, hvm]
  obtain ⟨hl', hw', hsame⟩ := sameBytes_exec habh hpayload hl hw (fun _ _ => rfl) hexec
  have hpos : 0 < s'.object.address := Nat.lt_of_lt_of_le (by decide) hl'.front
  refine ⟨scanObject_moves hgen htrace hlay hsized hcounted hn hend hslots hsame hend' hpos,
    hpayload hw' hsame, fun slot hmem => ?_⟩
  obtain ⟨hle, hstop⟩ := scanObject_inside hgen htrace hlay hsized hcounted hn hend hslots hmem
  refine ⟨hle, hstop, ByteMemory.load_congr fun i hi => ?_⟩
  have hbyte := hsame (slot - s.object.address + i) (by omega)
  rw [show s.object.address + (slot - s.object.address + i) = slot + i by omega] at hbyte
  rw [← hbyte]
  congr 1
  omega

end Stable

/-- A word for each field, and then the tail. -/
def listMeaning : Meaning ScanType String where
  sizeOf := ScanType.size
  scanObject := ScanType.scanObject fun _ _ => (0, 0)
  asUsize _ m a := m.load a 8
  asMutPtr _ _ a := a
  constant _ := 0
  usize _ m a := m.load a 8
  pointer _ _ a := a + 16
  pointee _ := .object
  visit _ _ _ := []
  size := 16
  align := 8
  variant _ _ := 0
  offset _ i := 8 * i

theorem list_field : list.data.field "length" = some (⟨some "length", [], .prim 8⟩, 0) := rfl

theorem list_length (m : ByteMemory) (a : ℕ) :
    listArray.Length listMeaning list.data m a (m.load a 8) :=
  .field (p := (⟨some "length", [], .prim 8⟩, 0)) list_field

theorem list_laysOut : listMeaning.LaysOut list.data (some listArray) where
  offset_le := by
    intro variant i fields field hfields hfield
    match variant, i with
    | 0, 0 | 0, 1 => cases hfields; cases hfield; decide
    | 0, i + 2 => cases hfields; cases hfield
    | variant + 1, i => cases hfields
  inPlace := by
    intro variant i fields field hfields hfield _
    match variant, i with
    | 0, 0 | 0, 1 => cases hfields; cases hfield; exact ScanType.inPlace rfl rfl trivial
    | 0, i + 2 => cases hfields; cases hfield
    | variant + 1, i => cases hfields
  element harray _ := by
    cases harray
    exact (ScanType.inPlace rfl rfl trivial : listMeaning.InPlace .object)
  pointee harray _ := by
    cases harray
    rfl
  start harray _ := by
    cases harray
    refine ⟨16, le_rfl, ?_⟩
    rintro m a p ⟨⟩
    rfl
  length {array m a m' a' n} harray hsame hlength := by
    cases harray
    have hload : m'.load a' 8 = m.load a 8 := by
      refine ByteMemory.load_congr fun i hi => hsame i ?_
      unfold listMeaning
      dsimp only
      omega
    rw [hlength.unique (list_length m a), ← hload]
    exact list_length m' a'
  variant _ := rfl

/-- A machine whose objects are lists. -/
def listMachine : VirtualMachine where
  bitfield := .masks
  conversions := .byDivision
  addressBasedHashing := true
  gcMetadata _ := listOutput.gcMetadata listMeaning list.data
  maxAlignment := 16
  computeHashcode o := o.address

/-- A list of two elements. -/
def twoElements : ObjectState := ⟨fun x => if x = 1032 then 2 else 0, ⟨1032⟩⟩

/-- The elements and the reference are still there when a list has been hashed and moved. -/
theorem derived_slots_move_list : ∃ s',
    (objectMachine listMachine).exec twoElements [.hashcode, .relocate (.toAddress 4096)] =
      some s' ∧
    listOutput.scanObject listMeaning list.data s'.memory s'.object.address =
      some [4128, 4136, 4120] := by
  have hlive : twoElements.Live listMachine := ⟨.unhashed, rfl, by decide, by decide⟩
  have hn : Payload listMeaning list.data twoElements.memory twoElements.object.address
      listMetadata.size (some listArray) 32 :=
    .elements (n := 2) nofun (list_length _ _)
  have hslots : listOutput.scanObject listMeaning list.data twoElements.memory
      twoElements.object.address = some [1048, 1056, 1040] := rfl
  have hw : twoElements.object.metadata listMachine twoElements.memory = some 0 := rfl
  have hcounted : Counted listMeaning list.data (some listArray) twoElements.memory
      twoElements.object.address := by
    intro array length harray hlength
    cases harray
    rw [hlength.unique (list_length _ _)]
    decide
  have hscan : ∀ s', (objectMachine listMachine).exec twoElements
      [.hashcode, .relocate (.toAddress 4096)] = some s' → s'.object.address + 32 < 2 ^ 64 →
      listOutput.scanObject listMeaning list.data s'.memory s'.object.address =
        some ([1048, 1056, 1040].map fun slot => slot - 1032 + s'.object.address) :=
    fun s' hexec hend' => (derived_slots_move rfl list_output list_gcmetadata list_arraylike rfl
      ⟨nofun, nofun⟩ list_laysOut rfl hlive hw hn hcounted (by decide) hslots hexec hend').1
  exact ⟨_, rfl, hscan _ rfl (by decide)⟩

end VmkitCore.Derive
