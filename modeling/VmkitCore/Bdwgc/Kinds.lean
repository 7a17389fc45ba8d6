import VmkitCore.Bdwgc.HeaderFields

/-! # Registered kinds

A client registers kinds of objects and mark procedures, as long as the tables have room. The
header of an object has the number of its kind, and the descriptor of a kind has the number of
its procedure. What a number stands for does not change.
-/

namespace VmkitCore.Kinds

open Allocation Descriptors ObjectReferences ObjectSizes

inductive Call
  | newKind (descr : ℕ) (hd : descr < 2 ^ 64) (adjust clear : Bool)
  | newProc (proc : GCMarkProc)

/-- The tables, with the number of procedures. -/
structure State where
  vm : BDWGC
  nProcs : ℕ

def State.new : State := ⟨.new, 0⟩

namespace State

variable (s : State)

/-- `GC_new_proc`, which panics when the table is full. -/
def gcNewProc (proc : GCMarkProc) : Option (ℕ × State) :=
  let result := s.nProcs
  if result < gcMaxMarkProcs then
    some (result, {
      vm := { s.vm with
        markProcs := fun i => if i = result then some proc else s.vm.markProcs i }
      nProcs := s.nProcs + 1 })
  else none

def call : Call → Option (ℕ × State)
  | .newKind descr hd adjust clear =>
    (s.vm.gcNewKind descr hd adjust clear).map fun p => (p.1, { s with vm := p.2 })
  | .newProc proc => s.gcNewProc proc

/-- A call that panics leaves the tables as they are. -/
def after (c : Call) : State := ((s.call c).map Prod.snd).getD s

def run (calls : List Call) : State := calls.foldl after s

end State

/-- The object that the collector finds at an address. -/
def objectAt (bits : Bitfields) (conv : Conversions) (addressBasedHashing : Bool)
    (m : ByteMemory) (o : VMKitObject) : Option Object := do
  let vm := bdwgc bits conv addressBasedHashing
  let metadata := BDWGCMetadata.fromBitfield (← o.metadata vm m)
  let start ← o.objectStart vm m
  let size ← o.bytesUsed vm m
  if ho : o.address < 2 ^ 64 then
    some ⟨o.address, start, size, metadata.kind bits, metadata.isAtomic bits, ho⟩
  else none

/-! ### The tables -/

/-- The first entries of a log are in the slots, up to the capacity. -/
structure Logged {α : Type*} (cap : ℕ) (log : List α) (slots : ℕ → Option α) (n : ℕ) : Prop where
  slots_eq : ∀ i, slots i = if i < cap then log[i]? else none
  count_eq : n = min log.length cap

namespace Logged

variable {α : Type*} {cap n : ℕ} {log : List α} {slots : ℕ → Option α}

theorem append (h : Logged cap log slots n) (hn : n < cap) (a : α) :
    Logged cap (log ++ [a]) (fun i => if i = n then some a else slots i) (n + 1) := by
  have hlength : n = log.length := by
    have hcount := h.count_eq
    omega
  constructor
  · intro i
    split
    · next heq =>
      rw [heq, if_pos hn, hlength, List.getElem?_concat_length]
    · next hne =>
      rw [h.slots_eq]
      by_cases hi : i < log.length
      · rw [List.getElem?_append_left hi]
      · rw [List.getElem?_eq_none (by omega), List.getElem?_eq_none (by simp; omega)]
  · rw [List.length_append, List.length_singleton]
    omega

/-- What comes later than the last slot is not in the table. -/
theorem append_full (h : Logged cap log slots n) (hn : ¬ n < cap) (a : α) :
    Logged cap (log ++ [a]) slots n := by
  have hcount := h.count_eq
  constructor
  · intro i
    rw [h.slots_eq]
    split
    · rw [List.getElem?_append_left (by omega)]
    · rfl
  · rw [List.length_append, List.length_singleton]
    omega

end Logged

namespace Call

def kind : Call → Option ObjKind
  | .newKind descr hd adjust clear => some ⟨descr, adjust, clear, hd⟩
  | .newProc _ => none

def proc : Call → Option GCMarkProc
  | .newKind _ _ _ _ => none
  | .newProc proc => some proc

end Call

/-- The tables have what was registered first. -/
structure Holds (calls : List Call) (s : State) : Prop where
  kinds : Logged maxObjKinds (calls.filterMap Call.kind) s.vm.objKinds s.vm.nKinds
  procs : Logged gcMaxMarkProcs (calls.filterMap Call.proc) s.vm.markProcs s.nProcs

theorem holds_new : Holds [] .new where
  kinds := ⟨fun _ => by simp [State.new, BDWGC.new], rfl⟩
  procs := ⟨fun _ => by simp [State.new, BDWGC.new], rfl⟩

variable {s s' : State} {calls calls' : List Call} {n : ℕ}

theorem Holds.after (h : Holds calls s) (c : Call) : Holds (calls ++ [c]) (s.after c) := by
  obtain ⟨hkinds, hprocs⟩ := h
  cases c with
  | newKind descr hd adjust clear =>
    by_cases hroom : s.vm.nKinds < maxObjKinds
    · have hkinds' := hkinds.append hroom ⟨descr, adjust, clear, hd⟩
      constructor <;> simpa [State.after, State.call, BDWGC.gcNewKind, hroom,
        List.filterMap_cons, Call.kind, Call.proc]
    · have hkinds' := hkinds.append_full hroom ⟨descr, adjust, clear, hd⟩
      constructor <;> simpa [State.after, State.call, BDWGC.gcNewKind, hroom,
        List.filterMap_cons, Call.kind, Call.proc]
  | newProc proc =>
    by_cases hroom : s.nProcs < gcMaxMarkProcs
    · have hprocs' := hprocs.append hroom proc
      constructor <;> simpa [State.after, State.call, State.gcNewProc, hroom,
        List.filterMap_cons, Call.kind, Call.proc]
    · have hprocs' := hprocs.append_full hroom proc
      constructor <;> simpa [State.after, State.call, State.gcNewProc, hroom,
        List.filterMap_cons, Call.kind, Call.proc]

theorem Holds.run (h : Holds calls s) (calls' : List Call) :
    Holds (calls ++ calls') (s.run calls') := by
  induction calls' generalizing calls s with
  | nil => simpa [State.run] using h
  | cons c calls' ih => simpa [State.run] using ih (h.after c)

/-- The number that a kind gets is its own from then on. -/
theorem objKinds_run {descr : ℕ} {hd : descr < 2 ^ 64} {adjust clear : Bool}
    (h : Holds calls s) (hcall : s.call (.newKind descr hd adjust clear) = some (n, s')) :
    n < maxObjKinds ∧
      ∀ calls', (s'.run calls').vm.objKinds n = some ⟨descr, adjust, clear, hd⟩ := by
  have hafter : s.after (.newKind descr hd adjust clear) = s' := by simp [State.after, hcall]
  by_cases hroom : s.vm.nKinds < maxObjKinds
  · obtain rfl : s.vm.nKinds = n := by
      simp only [State.call, BDWGC.gcNewKind, hroom, ↓reduceIte, Option.map_some] at hcall
      exact congrArg Prod.fst (Option.some.inj hcall)
    refine ⟨hroom, fun calls' => ?_⟩
    have hcount := h.kinds.count_eq
    have hlength : s.vm.nKinds = (calls.filterMap Call.kind).length := by omega
    have hslot := ((h.after (.newKind descr hd adjust clear)).run calls').kinds.slots_eq s.vm.nKinds
    rw [hafter, if_pos hroom] at hslot
    rw [hslot, hlength]
    simp [Call.kind]
  · simp [State.call, BDWGC.gcNewKind, hroom] at hcall

/-- A procedure that has a number keeps it. -/
theorem markProcs_run (h : Holds calls s) {i : ℕ} (hi : i < s.nProcs) (calls' : List Call) :
    (s.run calls').vm.markProcs i = s.vm.markProcs i := by
  have hcount := h.procs.count_eq
  rw [(h.run calls').procs.slots_eq, h.procs.slots_eq, List.filterMap_append,
    List.getElem?_append_left (by omega)]

section Traces

variable {vm vm' : BDWGC} {heap : Heap} {object : Object} {kind : ℕ} {entry : ObjKind}

/-- Only a retry leads to a retry, and for the same kind. -/
theorem retry_of_round {point point' : TracePoint} {t t' : Trace}
    (h : traceRound vm heap object (point, t) = .inl (point', t')) (hp : point' = .retry kind) :
    point = .retry kind := by
  subst hp
  cases point with
  | retry k =>
    change retryRound vm heap object k t = _ at h
    cases hentry : vm.objKinds k with
    | none => simp [retryRound, hentry] at h
    | some entry =>
      obtain htag | htag | htag | htag : entry.okDescriptor % 4 = 0 ∨ entry.okDescriptor % 4 = 1 ∨
          entry.okDescriptor % 4 = 2 ∨ entry.okDescriptor % 4 = 3 := by omega
      · cases (retryRound_length hentry htag).symm.trans h
      · cases (retryRound_bitmap hentry htag).symm.trans h
      · cases (retryRound_proc hentry htag).symm.trans h
      · simp only [retryRound, hentry, gcDsTags, Nat.reducePow, Nat.reduceSub, Nat.reduceAdd,
          htag] at h
        repeat' split at h
        all_goals cases h
        all_goals rfl
  | range cursor finish =>
    rw [traceRound] at h
    split at h <;> cases h
  | bitmap descr currentP =>
    rw [traceRound] at h
    repeat' split at h
    all_goals cases h

theorem retryRound_congr {t : Trace} (hentry : vm.objKinds kind = some entry)
    (hentry' : vm'.objKinds kind = some entry)
    (hproc : entry.okDescriptor % 4 = 2 →
      vm.proc entry.okDescriptor = vm'.proc entry.okDescriptor) :
    retryRound vm heap object kind t = retryRound vm' heap object kind t := by
  obtain htag | htag | htag | htag : entry.okDescriptor % 4 = 0 ∨ entry.okDescriptor % 4 = 1 ∨
      entry.okDescriptor % 4 = 2 ∨ entry.okDescriptor % 4 = 3 := by omega
  · rw [retryRound_length hentry htag, retryRound_length hentry' htag]
  · rw [retryRound_bitmap hentry htag, retryRound_bitmap hentry' htag]
  · rw [retryRound_proc hentry htag, retryRound_proc hentry' htag, hproc htag]
  · simp [retryRound, hentry, hentry', gcDsTags, htag]

/-- A trace looks at no kind but the object's, and at no procedure but the kind's. -/
theorem traceReturns_congr {r : Trace} (hkind : object.kind = .withDescr kind)
    (hentry : vm.objKinds kind = some entry) (hentry' : vm'.objKinds kind = some entry)
    (hproc : entry.okDescriptor % 4 = 2 →
      vm.proc entry.okDescriptor = vm'.proc entry.okDescriptor) :
    TraceReturns vm heap object r ↔ TraceReturns vm' heap object r := by
  cases ha : object.isAtomic with
  | true =>
    have he : traceEntry object = none := if_pos ha
    simp only [TraceReturns, he]
  | false =>
    rw [traceReturns_iff hkind ha, traceReturns_iff hkind ha]
    refine Loop.returns_congr (I := fun p => ∀ k, p.1 = .retry k → k = kind) ?_ ?_ ?_
    · rintro ⟨point, t⟩ hi
      cases point with
      | retry k =>
        obtain rfl := hi k rfl
        exact retryRound_congr hentry hentry' hproc
      | range cursor finish => rfl
      | bitmap descr currentP => rfl
    · rintro ⟨point, t⟩ ⟨point', t'⟩ hi hround k hk
      exact hi k (retry_of_round hround hk)
    · rintro k ⟨⟩
      rfl

end Traces

/-! ### Objects of a kind -/

variable {bits : Bitfields} {conv : Conversions} {addressBasedHashing : Bool}
  {alloc : Request → ℕ} {t : Thread} {m m' : ByteMemory} {b : Region} {size : ℕ}

/-- The header of a new object has the number of the kind. -/
theorem kind_of_genericMalloc (hn : n < maxObjKinds) (hsize : size < 2 ^ 40)
    (h : gcGenericMalloc bits conv.usize alloc t m size n = some (b, m'))
    (hb : b.start + objectRefOffset < 2 ^ 64) :
    ∃ w, VMKitObject.metadata (bdwgc bits conv addressBasedHashing) m' ⟨object b⟩ = some w ∧
      (BDWGCMetadata.fromBitfield w).kind bits = .withDescr n := by
  have hwords : size / minAlignment < 2 ^ 37 := Nat.div_lt_of_lt_mul hsize
  have hle : n ≤ 61 := Nat.le_of_lt_succ (hn.trans (by decide))
  let f : BDWGCMetadata.Fields := ⟨size / minAlignment, .withDescr n, false, hwords, by
    rintro k ⟨⟩
    exact hle⟩
  have hlow : ((n : ℤ) % 256).toNat = n := by omega
  have hencode : f.encode bits = some ⟨size / minAlignment ||| (2 + n) * 2 ^ 37⟩ := by
    rw [f.encode_eq]
    simp [f, ObjectKind.toBitfield]
  have hkind : encodeKind bits (.withDescr n) = some ((2 + n) * 2 ^ 37) :=
    bits.encode_of_lt (by decide) f.kind_lt
  have hwordsEncode : encodeSize bits (size / minAlignment) = some (size / minAlignment) := by
    rw [encodeSize, sizeBits, bits.encode_of_lt (by decide) hwords, pow_zero, mul_one]
  rw [gcGenericMalloc, hlow, hwordsEncode, hkind] at h
  simp only [Option.bind_eq_bind, Option.bind_some, Option.some.injEq] at h
  obtain ⟨-, rfl⟩ := allocateWith_eq.mp h
  exact ⟨_, metadata_store (BDWGCMetadata.Fields.encode_lt hencode) hb,
    (BDWGCMetadata.Fields.decodes_encode hencode).kind⟩

theorem kind_of_objectAt {o : VMKitObject} {object : Object} {w : ℕ}
    (ho : objectAt bits conv addressBasedHashing m o = some object)
    (hw : o.metadata (bdwgc bits conv addressBasedHashing) m = some w) :
    object.kind = (BDWGCMetadata.fromBitfield w).kind bits := by
  rw [objectAt, hw, Option.bind_eq_bind, Option.bind_some] at ho
  obtain ⟨start, -, ho⟩ := Option.bind_eq_some_iff.mp ho
  obtain ⟨bytes, -, ho⟩ := Option.bind_eq_some_iff.mp ho
  split at ho
  · cases ho
    rfl
  · cases ho

/--
An object that is allocated for a registered kind is traced in the same way whatever is
registered later, if the kind's descriptor names no procedure or one that has been registered.
-/
theorem traced_as_registered {descr : ℕ} {hd : descr < 2 ^ 64} {adjust clear : Bool}
    (calls₀ calls₁ calls₂ : List Call)
    (hcall : (State.new.run calls₀).call (.newKind descr hd adjust clear) = some (n, s))
    (hproc : descr % 4 = 2 → (descr >>> 2) % gcMaxMarkProcs < (s.run calls₁).nProcs)
    (hsize : size < 2 ^ 40)
    (hmalloc : gcGenericMalloc bits conv.usize alloc t m size n = some (b, m'))
    (hb : b.start + objectRefOffset < 2 ^ 64) (heap : Heap)
    (hmeta : VMKitObject.metadata (bdwgc bits conv addressBasedHashing) heap.memory ⟨object b⟩ =
      VMKitObject.metadata (bdwgc bits conv addressBasedHashing) m' ⟨object b⟩)
    {o : Object} (ho : objectAt bits conv addressBasedHashing heap.memory ⟨object b⟩ = some o) :
    o.kind = .withDescr n ∧
    ∀ r, TraceReturns (s.run (calls₁ ++ calls₂)).vm heap o r ↔
      TraceReturns (s.run calls₁).vm heap o r := by
  have hholds := holds_new.run calls₀
  rw [List.nil_append] at hholds
  obtain ⟨hn, hentry⟩ := objKinds_run hholds hcall
  obtain ⟨w, hw, hwkind⟩ := kind_of_genericMalloc hn hsize hmalloc hb
  have hkind : o.kind = .withDescr n := (kind_of_objectAt ho (hmeta.trans hw)).trans hwkind
  have hs : (State.new.run calls₀).after (.newKind descr hd adjust clear) = s := by
    simp [State.after, hcall]
  have hregistered := (hs ▸ hholds.after _).run calls₁
  have hrun : s.run (calls₁ ++ calls₂) = (s.run calls₁).run calls₂ := List.foldl_append
  refine ⟨hkind, fun r => traceReturns_congr hkind (hentry _) (hentry _) fun htag => ?_⟩
  rw [hrun]
  exact markProcs_run hregistered (hproc htag) calls₂

/-- A procedure that examines the first word of an object. -/
def examineFirst : GCMarkProc := fun heap addr _ t => t.examine heap addr

/-- A kind with a procedure, and another kind after it. -/
theorem traced_as_registered_proc : ∃ (s : State) (heap : Heap) (o : Object),
    (State.new.run [.newProc examineFirst]).call (.newKind 2 (by decide) false true) =
      some (0, s) ∧
    o.kind = .withDescr 0 ∧
    ∀ r, TraceReturns (s.run ([] ++ [.newKind 0 (by decide) false true])).vm heap o r ↔
      TraceReturns (s.run []).vm heap o r :=
  have hcall : (State.new.run [.newProc examineFirst]).call
      (.newKind 2 (by decide) false true) = some (0, _) := rfl
  have hmalloc : gcGenericMalloc .masks Conversions.byDivision.usize secondPage pageThread
      (fun _ => 0) 16 0 = some (⟨4096, 4120⟩, _) := rfl
  have ho : objectAt .masks .byDivision true (ByteMemory.store (fun _ => 0) 4096 headerBytes
      (2 ||| 2 * 2 ^ 37)) ⟨4104⟩ = some ⟨4104, 4096, 24, .withDescr 0, false, by decide⟩ := rfl
  ⟨_, ⟨_, 0, 0, fun _ => none⟩, _, hcall, traced_as_registered _ [] _ hcall (fun _ => Nat.one_pos)
    (by decide) hmalloc (by decide) ⟨_, 0, 0, fun _ => none⟩ rfl ho⟩

end VmkitCore.Kinds
