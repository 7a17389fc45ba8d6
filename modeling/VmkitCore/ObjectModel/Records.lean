import VmkitCore.Lib.Store
import VmkitCore.ObjectModel.Fields

/-! # A heap of records

Objects whose fields do not overlap are records. Mutators write their fields and ask for their
hash codes while the collector moves them, and the heap remains a store of the fields.
-/

namespace VmkitCore

/-- Where the fields of a record lie, counted from its reference. -/
structure Layout (ι : Type) where
  Value : ι → Type
  type : ∀ i, FieldType (Value i)
  offset : ι → ℕ
  bytes : ℕ
  offset_add_le : ∀ i, offset i + (type i).size ≤ bytes
  disjoint : ∀ i j, i ≠ j →
    ByteMemory.Disjoint (offset i) (type i).size (offset j) (type j).size

/-- Objects with the given metadata have room for all fields. -/
def Layout.Describes {ι : Type} (L : Layout ι) (vm : VirtualMachine) (w : ℕ) : Prop :=
  ∀ (m : ByteMemory) (o : VMKitObject), o.metadata vm m = some w →
    ∃ n, o.payloadBytes vm m = some n ∧ L.bytes ≤ n ∧ n < 2 ^ 62

/-- An object with its front bytes and fields in the address space, and what its fields hold. -/
structure Record {ι : Type} (vm : VirtualMachine) (L : Layout ι) (w : ℕ) (f : ∀ i, L.Value i)
    (m : ByteMemory) (o : VMKitObject) (state : HashState) : Prop where
  hashState : o.hashState vm m = some state
  front : state.frontBytes ≤ o.address
  metadata : o.metadata vm m = some w
  inside : o.address + L.bytes ≤ 2 ^ 64
  fields : ∀ i, (L.type i).decode (m.load (o.address + L.offset i) (L.type i).size) = f i

namespace Record

variable {ι : Type} {vm : VirtualMachine} {L : Layout ι} {w : ℕ} {f : ∀ i, L.Value i}
  {m m' : ByteMemory} {o : VMKitObject} {state : HashState} {s' : ObjectState}

theorem live (h : Record vm L w f m o state) : ObjectState.Live vm ⟨m, o⟩ :=
  ⟨state, h.hashState, h.front, (Nat.le_add_right _ _).trans h.inside⟩

theorem holds (habh : vm.addressBasedHashing = true) (hL : L.Describes vm w)
    (h : Record vm L w f m o state) : o.Holds vm m L.bytes := by
  obtain ⟨n, hn, hle, hlt⟩ := hL m o h.metadata
  have hlt' : vm.conversions.rawAlignUp (headerBytes + n) 8 < headerBytes + n + 8 :=
    vm.conversions.rawAlignUp_lt _ 3
  have hle' : headerBytes + n ≤ vm.conversions.rawAlignUp (headerBytes + n) 8 :=
    vm.conversions.le_rawAlignUp _ 3
  refine ⟨⟨_, VMKitObject.bytesWith_eq_base habh h.hashState hn false, ?_, ?_⟩, h.inside⟩
  · omega
  · unfold headerBytes at *
    cases state <;> simp <;> omega

/-- A record reads back what its fields hold. -/
theorem getField (habh : vm.addressBasedHashing = true) (hL : L.Describes vm w)
    (h : Record vm L w f m o state) (i : ι) :
    o.getField vm m (L.offset i) (L.type i) = some (f i) := by
  rw [(h.holds habh hL).getField (L.offset_add_le i), h.fields]

/-- A record depends on its own bytes only. -/
theorem congr (h : Record vm L w f m o state)
    (hm : ∀ x, o.address - state.frontBytes ≤ x → x < o.address + L.bytes → m' x = m x) :
    Record vm L w f m' o state := by
  have ho := (VMKitObjectModel.objectRefOffset_le_frontBytes state).trans h.front
  have hheader : m'.load (o.address - objectRefOffset) headerBytes =
      m.load (o.address - objectRefOffset) headerBytes := by
    refine ByteMemory.load_congr fun i hi => hm _ ?_ ?_
    · have := VMKitObjectModel.objectRefOffset_le_frontBytes state
      omega
    · unfold objectRefOffset headerBytes at *
      omega
  obtain ⟨hstate, hmeta⟩ : o.hashState vm m' = o.hashState vm m ∧
      o.metadata vm m' = o.metadata vm m := VMKitObject.hashState_congr ho ho hheader
  refine ⟨hstate.trans h.hashState, h.front, hmeta.trans h.metadata, h.inside, fun i => ?_⟩
  rw [← h.fields i]
  refine congrArg _ (ByteMemory.load_congr fun j hj => hm _ ?_ ?_)
  · omega
  · have := L.offset_add_le i
    omega

/-- A write to a field changes this field, and no byte outside the record. -/
theorem setField [DecidableEq ι] (habh : vm.addressBasedHashing = true) (hL : L.Describes vm w)
    (h : Record vm L w f m o state) (i : ι) (v : L.Value i) :
    ∃ m', o.setField vm m (L.offset i) (L.type i) v = some m' ∧
      Record vm L w (Function.update f i v) m' o state ∧
      ∀ x, ByteMemory.Disjoint (o.address - state.frontBytes) (state.frontBytes + L.bytes) x 1 →
        m' x = m x := by
  have hfront := VMKitObjectModel.objectRefOffset_le_frontBytes state
  have ho := hfront.trans h.front
  have hoff := L.offset_add_le i
  refine ⟨_, (h.holds habh hL).setField hoff, ?_, fun x hx => ?_⟩
  · have hheader : (m.store (o.address + L.offset i) (L.type i).size ((L.type i).encode v)).load
        (o.address - objectRefOffset) headerBytes =
        m.load (o.address - objectRefOffset) headerBytes := by
      refine ByteMemory.load_congr fun j hj => ByteMemory.store_apply_outside ?_
      unfold ByteMemory.Disjoint objectRefOffset headerBytes at *
      omega
    obtain ⟨hstate, hmeta⟩ := VMKitObject.hashState_congr ho ho hheader
    refine ⟨hstate.trans h.hashState, h.front, hmeta.trans h.metadata, h.inside, fun j => ?_⟩
    by_cases hij : j = i
    · subst hij
      rw [Function.update_self, ByteMemory.load_store_of_lt _ ((L.type j).encode_lt v),
        (L.type j).decode_encode]
    · rw [Function.update_of_ne hij, ← h.fields j]
      refine congrArg _ (ByteMemory.load_congr fun b hb => ByteMemory.store_apply_outside ?_)
      have hdisj := L.disjoint j i hij
      unfold ByteMemory.Disjoint at *
      omega
  · refine ByteMemory.store_apply_outside ?_
    have hf := h.front
    unfold ByteMemory.Disjoint at *
    omega

/-- A `hashcode()` call writes to the header only. -/
theorem hashcode (habh : vm.addressBasedHashing = true) (h : Record vm L w f m o state)
    (hstep : objectStep vm ⟨m, o⟩ .hashcode = some s') :
    ∃ state', s'.object = o ∧ state'.frontBytes = state.frontBytes ∧
      Record vm L w f s'.memory o state' ∧
      ∀ x, ByteMemory.Disjoint (o.address - state.frontBytes) (state.frontBytes + L.bytes) x 1 →
        s'.memory x = m x := by
  have hfront := VMKitObjectModel.objectRefOffset_le_frontBytes state
  have ho := hfront.trans h.front
  obtain ⟨m', hset, hst, hmeta, hframe⟩ := VMKitObject.setHashState_spec (m := m) ho habh .hashed
  have hfields : ∀ i, (L.type i).decode
      (m'.load (o.address + L.offset i) (L.type i).size) = f i := by
    intro i
    rw [← h.fields i]
    refine congrArg _ (ByteMemory.load_congr fun j hj => hframe _ ?_)
    unfold ByteMemory.Disjoint objectRefOffset headerBytes at *
    omega
  have hout : ∀ x, ByteMemory.Disjoint (o.address - state.frontBytes)
      (state.frontBytes + L.bytes) x 1 → m' x = m x := by
    refine fun x hx => hframe x ?_
    have hf := h.front
    unfold ByteMemory.Disjoint objectRefOffset headerBytes at *
    omega
  have hmeta' := hmeta.trans h.metadata
  have hs := h.hashState
  cases state with
  | hashedAndMoved =>
    obtain rfl : (⟨m, o⟩ : ObjectState) = s' := by
      simpa [objectStep, VMKitObject.hashcode, habh, hs] using hstep
    exact ⟨_, rfl, rfl, h, fun _ _ => rfl⟩
  | unhashed | hashed =>
    obtain rfl : (⟨m', o⟩ : ObjectState) = s' := by
      simpa [objectStep, VMKitObject.hashcode, habh, hs, hset] using hstep
    exact ⟨.hashed, rfl, rfl, ⟨hst, h.front, hmeta', h.inside, hfields⟩, hout⟩

/-- The block that a relocation of an object writes to. -/
def destination (vm : VirtualMachine) (s : ObjectState) (target : MoveTarget) :
    Option (ℕ × ℕ) := do
  let state ← s.object.hashState vm s.memory
  let numBytes ← s.object.bytesRequiredWhenCopied vm s.memory
  some ((target.reference state).address - state.frontBytesWhenCopied, numBytes)

/-- A moved record lies in the block it was moved to, the only one that the move writes to. -/
theorem relocate (habh : vm.addressBasedHashing = true) (hL : L.Describes vm w)
    (h : Record vm L w f m o state) {target : MoveTarget}
    (hstep : objectStep vm ⟨m, o⟩ (.relocate target) = some s') :
    ∃ a n state', destination vm ⟨m, o⟩ target = some (a, n) ∧
      a + state'.frontBytes ≤ s'.object.address ∧ s'.object.address + L.bytes ≤ a + n ∧
      Record vm L w f s'.memory s'.object state' ∧
      ∀ x, ByteMemory.Disjoint a n x 1 → s'.memory x = m x := by
  have hs := h.hashState
  obtain ⟨numBytes, hn, hle⟩ :=
    VMKitObjectModel.bytesRequiredWhenCopied_spec h.live.front habh hs
  obtain ⟨n, hp, hbytes, -⟩ := hL m o h.metadata
  have hroom := VMKitObject.payload_le habh hs hp hn
  dsimp only at hn
  simp only [objectStep, hs, hn, Option.bind_eq_bind, Option.bind_some] at hstep
  split at hstep
  case isFalse => cases hstep
  case isTrue hf =>
    obtain ⟨-, hfit, hend⟩ := hf
    obtain ⟨m', hm', hst, hmeta, -⟩ := VMKitObjectModel.moveObject_spec habh hs h.front hfit hle
    obtain ⟨-, hpay, -, hout⟩ := VMKitObjectModel.moveObject_bytes hs h.front hfit hle hm'
    simp only [hm', Option.bind_some, Option.some.injEq] at hstep
    subst hstep
    dsimp only
    have hback : state.afterMove.frontBytes ≤ state.frontBytesWhenCopied := by
      cases state <;> decide
    refine ⟨_, numBytes, state.afterMove, ?_, ?_, ?_, ⟨hst, ?_, ?_, ?_, fun i => ?_⟩, hout⟩
    · simp only [destination, hs, hn, Option.bind_eq_bind, Option.bind_some]
    · omega
    · omega
    · omega
    · exact hmeta.trans h.metadata
    · omega
    · rw [← h.fields i]
      have hoff := L.offset_add_le i
      refine congrArg _ (ByteMemory.load_congr fun j hj => ?_)
      rw [Nat.add_assoc, Nat.add_assoc]
      exact hpay _ (by omega)

end Record

/-- A memory and the references of the records in it. -/
structure RecordHeap (κ : Type) where
  memory : ByteMemory
  object : κ → VMKitObject

inductive RecordOp {κ : Type} {ι : κ → Type} (L : ∀ k, Layout (ι k))
  | set (k : κ) (i : ι k) (value : (L k).Value i)
  | object (k : κ) (op : ObjectOp)

namespace RecordHeap

variable {κ : Type} [DecidableEq κ] {ι : κ → Type} [∀ k, DecidableEq (ι k)]

def step (vm : VirtualMachine) (L : ∀ k, Layout (ι k)) (s : RecordHeap κ) :
    RecordOp L → Option (RecordHeap κ)
  | .set k i value => do
    let m ← (s.object k).setField vm s.memory ((L k).offset i) ((L k).type i) value
    some ⟨m, s.object⟩
  | .object k op => do
    let t ← objectStep vm ⟨s.memory, s.object k⟩ op
    some ⟨t.memory, Function.update s.object k t.object⟩

/-- Records of the layouts, no two of which share a byte, hold the values of the store. -/
def Represents (vm : VirtualMachine) (L : ∀ k, Layout (ι k)) (w : κ → ℕ) (s : RecordHeap κ)
    (f : ∀ p : Σ k, ι k, (L p.1).Value p.2) : Prop :=
  ∃ state : κ → HashState,
    (∀ k, Record vm (L k) (w k) (fun i => f ⟨k, i⟩) s.memory (s.object k) (state k)) ∧
    ∀ k k', k ≠ k' → ByteMemory.Disjoint
      ((s.object k).address - (state k).frontBytes) ((state k).frontBytes + (L k).bytes)
      ((s.object k').address - (state k').frontBytes) ((state k').frontBytes + (L k').bytes)

/-- Runs of a heap of records. -/
def machine (vm : VirtualMachine) (L : ∀ k, Layout (ι k)) (w : κ → ℕ) :
    Machine (RecordHeap κ) (RecordOp L) where
  init s := ∃ f, s.Represents vm L w f
  step := step vm L

/-- A record moves to a block in which there is no other record. -/
def HasRoom (vm : VirtualMachine) (L : ∀ k, Layout (ι k)) (s : RecordHeap κ)
    (op : RecordOp L) : Prop :=
  ∀ k target, op = .object k (.relocate target) →
    ∀ a n, Record.destination vm ⟨s.memory, s.object k⟩ target = some (a, n) →
      ∀ k', k' ≠ k → ∀ state, (s.object k').hashState vm s.memory = some state →
        ByteMemory.Disjoint a n ((s.object k').address - state.frontBytes)
          (state.frontBytes + (L k').bytes)

/-- What an operation writes to the store. -/
def writes {L : ∀ k, Layout (ι k)} :
    RecordOp L → List (Σ p : Σ k, ι k, (L p.1).Value p.2)
  | .set k i value => [⟨⟨k, i⟩, value⟩]
  | .object _ _ => []

variable {vm : VirtualMachine} {L : ∀ k, Layout (ι k)} {w : κ → ℕ} {s s' : RecordHeap κ}
  {f f' : ∀ p : Σ k, ι k, (L p.1).Value p.2} {state state' : κ → HashState} {k : κ} {a n : ℕ}

omit [DecidableEq κ] [∀ k, DecidableEq (ι k)] in
theorem hasRoom_set {i : ι k} {v : (L k).Value i} : HasRoom vm L s (.set k i v) := by
  intro _ _ h
  cases h

omit [DecidableEq κ] [∀ k, DecidableEq (ι k)] in
theorem hasRoom_hashcode : HasRoom vm L s (.object k .hashcode) := by
  intro _ _ h
  cases h

omit [∀ k, DecidableEq (ι k)] in
/-- If a step writes to a block apart from the other records, these are as before. -/
theorem represents_of_frame (state' : HashState)
    (hrec : ∀ k, Record vm (L k) (w k) (fun i => f ⟨k, i⟩) s.memory (s.object k) (state k))
    (hapart : ∀ k k', k ≠ k' → ByteMemory.Disjoint
      ((s.object k).address - (state k).frontBytes) ((state k).frontBytes + (L k).bytes)
      ((s.object k').address - (state k').frontBytes) ((state k').frontBytes + (L k').bytes))
    (hblock : ∀ k', k' ≠ k → ByteMemory.Disjoint a n
      ((s.object k').address - (state k').frontBytes) ((state k').frontBytes + (L k').bytes))
    (hframe : ∀ x, ByteMemory.Disjoint a n x 1 → s'.memory x = s.memory x)
    (hobject : ∀ k', k' ≠ k → s'.object k' = s.object k')
    (hf : ∀ k', k' ≠ k → ∀ i, f' ⟨k', i⟩ = f ⟨k', i⟩)
    (hfront : a + state'.frontBytes ≤ (s'.object k).address)
    (hback : (s'.object k).address + (L k).bytes ≤ a + n)
    (hk : Record vm (L k) (w k) (fun i => f' ⟨k, i⟩) s'.memory (s'.object k) state') :
    s'.Represents vm L w f' := by
  refine ⟨Function.update state k state', fun k' => ?_, fun k₁ k₂ hne => ?_⟩
  · by_cases hk' : k' = k
    · subst hk'
      rw [Function.update_self]
      exact hk
    · rw [Function.update_of_ne hk', hobject k' hk']
      have hfun : (fun i => f' ⟨k', i⟩) = fun i => f ⟨k', i⟩ := funext (hf k' hk')
      rw [hfun]
      refine (hrec k').congr fun x hlo hhi => hframe x ?_
      have hdisj := hblock k' hk'
      have hle := (hrec k').front
      unfold ByteMemory.Disjoint at *
      omega
  · by_cases h₁ : k₁ = k
    · subst h₁
      rw [Function.update_self, Function.update_of_ne hne.symm, hobject k₂ hne.symm]
      have hdisj := hblock k₂ hne.symm
      unfold ByteMemory.Disjoint at *
      omega
    · rw [Function.update_of_ne h₁, hobject k₁ h₁]
      by_cases h₂ : k₂ = k
      · subst h₂
        rw [Function.update_self]
        have hdisj := hblock k₁ h₁
        unfold ByteMemory.Disjoint at *
        omega
      · rw [Function.update_of_ne h₂, hobject k₂ h₂]
        exact hapart k₁ k₂ hne

/-- A heap of records simulates the store of their fields. -/
theorem simulates (habh : vm.addressBasedHashing = true)
    (hL : ∀ k, (L k).Describes vm (w k)) :
    (Store.machine fun p : Σ k, ι k => (L p.1).Value p.2).Simulates (machine vm L w)
      (HasRoom vm L) (fun _ => writes) (Represents vm L w) where
  step := by
    intro s f op s' hrep hroom hstep
    obtain ⟨state, hrec, hapart⟩ := hrep
    refine ⟨_, Store.exec_machine, ?_⟩
    have hown : ∀ k k', k' ≠ k → ByteMemory.Disjoint
        ((s.object k).address - (state k).frontBytes) ((state k).frontBytes + (L k).bytes)
        ((s.object k').address - (state k').frontBytes) ((state k').frontBytes + (L k').bytes) :=
      fun k k' hk => hapart k k' hk.symm
    cases op with
    | set k i v =>
      obtain ⟨m', hset, hk, hframe⟩ := (hrec k).setField habh (hL k) i v
      obtain rfl : (⟨m', s.object⟩ : RecordHeap κ) = s' := by
        simpa [machine, step, hset] using hstep
      have hfront := (hrec k).front
      refine represents_of_frame (state k) (k := k) hrec hapart (hown k) hframe (fun _ _ => rfl)
        ?_ ?_ ?_ ?_
      · intro k' hk' j
        refine Function.update_of_ne ?_ _ _
        rintro heq
        exact hk' (congrArg Sigma.fst heq)
      · dsimp only
        omega
      · dsimp only
        omega
      · have hfun : (fun j => Store.writes f (writes (RecordOp.set k i v)) ⟨k, j⟩) =
            Function.update (fun j => f ⟨k, j⟩) i v := by
          funext j
          by_cases hj : j = i
          · subst hj
            rw [Function.update_self]
            exact Function.update_self ..
          · rw [Function.update_of_ne hj]
            refine Function.update_of_ne ?_ _ _
            rintro heq
            cases heq
            exact hj rfl
        rw [hfun]
        exact hk
    | object k op =>
      obtain ⟨t, ht, rfl⟩ : ∃ t, objectStep vm ⟨s.memory, s.object k⟩ op = some t ∧
          (⟨t.memory, Function.update s.object k t.object⟩ : RecordHeap κ) = s' := by
        simpa [machine, step, Option.bind_eq_some_iff] using hstep
      have hothers : ∀ k', k' ≠ k → Function.update s.object k t.object k' = s.object k' :=
        fun k' hk' => Function.update_of_ne hk' _ _
      cases op with
      | hashcode =>
        obtain ⟨state', hobj, hfr, hk, hframe⟩ := (hrec k).hashcode habh ht
        have hfront := (hrec k).front
        refine represents_of_frame state' (k := k) hrec hapart (hown k) hframe hothers
          (fun _ _ _ => rfl) ?_ ?_ ?_
        · dsimp only
          rw [Function.update_self, hobj]
          omega
        · dsimp only
          rw [Function.update_self, hobj]
          omega
        · dsimp only
          rw [Function.update_self, hobj]
          exact hk
      | relocate target =>
        obtain ⟨a, n, state', hdest, hfront, hback, hk, hframe⟩ :=
          (hrec k).relocate habh (hL k) ht
        have hblock := fun k' hk' =>
          hroom k target rfl a n hdest k' hk' (state k') (hrec k').hashState
        refine represents_of_frame state' (k := k) hrec hapart hblock hframe hothers
          (fun _ _ _ => rfl) ?_ ?_ ?_
        · dsimp only
          rw [Function.update_self]
          exact hfront
        · dsimp only
          rw [Function.update_self]
          exact hback
        · dsimp only
          rw [Function.update_self]
          exact hk

/--
However mutators write to the fields of records and ask for hash codes while the collector moves
the records, no write panics and every field reads back as what was last written to it.
-/
theorem getField_eq_last_write (habh : vm.addressBasedHashing = true)
    (hL : ∀ k, (L k).Describes vm (w k)) (hs : s.Represents vm L w f) {ops : List (RecordOp L)}
    (hroom : (machine vm L w).Meets (HasRoom vm L) s ops)
    (hexec : (machine vm L w).exec s ops = some s') (k : κ) (i : ι k) :
    (s'.object k).getField vm s'.memory ((L k).offset i) ((L k).type i) =
        some (Store.writes f (ops.flatMap writes) ⟨k, i⟩) ∧
      ∀ v, (step vm L s' (.set k i v)).isSome := by
  obtain ⟨f', hf', state, hrec, -⟩ := (simulates habh hL).exec hs hroom hexec
  rw [Machine.answers_const hexec] at hf'
  obtain rfl : f' = Store.writes f (ops.flatMap writes) :=
    Option.some.inj (hf'.symm.trans Store.exec_machine)
  refine ⟨(hrec k).getField habh (hL k) i, fun v => ?_⟩
  obtain ⟨m', hset, -⟩ := (hrec k).setField habh (hL k) i v
  rw [step, hset]
  rfl

/-- A record of a flag and a number. -/
def flagged : Layout Bool where
  Value i := if i then UInt64 else Bool
  type
    | true => .u64
    | false => .bool
  offset i := if i then 8 else 0
  bytes := 16
  offset_add_le := by decide
  disjoint := by decide

theorem flagged_describes : flagged.Describes (.fixedSize 16) 0 := by
  intro m o h
  refine ⟨16, ?_, by decide, by decide⟩
  rw [VMKitObject.payloadBytes, VMKitObject.gcMetadata, h]
  rfl

/-- Two records in a zeroed memory. -/
def pair : RecordHeap Bool := ⟨fun _ => 0, fun k => if k then ⟨1032⟩ else ⟨2056⟩⟩

theorem pair_represents : pair.Represents (.fixedSize 16) (fun _ : Bool => flagged) (fun _ => 0)
    (fun p => match p with | ⟨_, true⟩ => (0 : UInt64) | ⟨_, false⟩ => false) := by
  refine ⟨fun _ => .unhashed, fun k => ?_, ?_⟩
  · cases k <;> exact ⟨rfl, by decide, rfl, by decide, fun i => by cases i <;> rfl⟩
  · show ∀ k k' : Bool, k ≠ k' → ByteMemory.Disjoint ((pair.object k).address - 8) (8 + 16)
      ((pair.object k').address - 8) (8 + 16)
    decide

/-- A number is still there when its record has been hashed and moved. -/
theorem getField_eq_last_write_moved : ∃ s',
    (machine (.fixedSize 16) (fun _ : Bool => flagged) (fun _ => 0)).exec pair
      [.set true true (7 : UInt64), .object true .hashcode,
        .object true (.relocate (.toAddress 4096)), .set false true (9 : UInt64)] = some s' ∧
    (s'.object true).getField (.fixedSize 16) s'.memory 8 .u64 = some 7 := by
  have hroom : (machine (.fixedSize 16) (fun _ : Bool => flagged) (fun _ => 0)).Meets
      (HasRoom (.fixedSize 16) fun _ => flagged) pair
      [.set true true (7 : UInt64), .object true .hashcode,
        .object true (.relocate (.toAddress 4096)), .set false true (9 : UInt64)] := by
    refine fun s₁ hs₁ => ⟨hasRoom_set, fun s₂ hs₂ => ⟨hasRoom_hashcode, fun s₃ _ => ⟨?_,
      fun s₄ _ => ⟨hasRoom_set, trivial⟩⟩⟩⟩
    cases hs₁
    cases hs₂
    intro k target h a n hdest k' hk' state _
    cases h
    cases hdest
    cases k' with
    | true => exact absurd rfl hk'
    | false => cases state <;> decide
  exact ⟨_, rfl, (getField_eq_last_write (k := true) (i := true) rfl
    (fun _ => flagged_describes) pair_represents hroom rfl).1⟩

end RecordHeap

end VmkitCore
