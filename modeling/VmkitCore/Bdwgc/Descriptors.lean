import VmkitCore.Lib.ByteMemory
import VmkitCore.Lib.Loop
import Mathlib.Data.Nat.Bitwise

/-! # Kind descriptors

A kind descriptor is one word whose two low bits say how it is read: as a length, as a
bitmap, as a mark procedure, or as the place of another descriptor. The trace callback
interprets the descriptor of an object's kind. Its loops are the rounds of one loop
over program points.
-/

namespace VmkitCore.Descriptors

def gcDsTags : ℕ := 2 ^ 2 - 1

def gcMaxMarkProcs : ℕ := 2 ^ 6

def gcIndirPerObjBias : ℕ := 16

def maxObjKinds : ℕ := 24

/-- The top bit of a word. -/
def signb : ℕ := 2 ^ 63

/-- What the callback reads besides the object: memory, the heap range and the object finder. -/
structure Heap where
  memory : ByteMemory
  leastHa : ℕ
  greatestHa : ℕ
  findObjectFromInternalPointer : ℕ → Option ℕ

def Heap.load (heap : Heap) (address : ℕ) : ℕ := heap.memory.load address 8

/-- The words a trace has examined and the objects it has handed to the tracer. -/
structure Trace where
  examined : List ℕ
  traced : List ℕ
  deriving DecidableEq, Repr

def Trace.start : Trace := ⟨[], []⟩

/-- Load the word and trace the object it points into. -/
def Trace.examine (heap : Heap) (address : ℕ) (t : Trace) : Trace :=
  ⟨t.examined ++ [address],
    t.traced ++ (heap.findObjectFromInternalPointer (heap.load address)).toList⟩

/-- Load the word and trace the object it points into if it lies in the heap range. -/
def Trace.examineInHeap (heap : Heap) (address : ℕ) (t : Trace) : Trace :=
  let q := heap.load address
  if heap.leastHa ≤ q ∧ q ≤ heap.greatestHa then t.examine heap address
  else { t with examined := t.examined ++ [address] }

/-- A mark procedure of the client, which returns. -/
abbrev GCMarkProc := Heap → (addr env : ℕ) → Trace → Trace

structure ObjKind where
  okDescriptor : ℕ
  okRelocateDescr : Bool
  okInit : Bool
  okDescriptor_lt : okDescriptor < 2 ^ 64

/-- The tables of kinds and mark procedures. -/
structure BDWGC where
  markProcs : ℕ → Option GCMarkProc
  objKinds : ℕ → Option ObjKind
  nKinds : ℕ

def BDWGC.new : BDWGC := ⟨fun _ => none, fun _ => none, 0⟩

/-- `GC_new_kind`, which panics when the table is full. -/
def BDWGC.gcNewKind (vm : BDWGC) (descr : ℕ) (hd : descr < 2 ^ 64) (adjust clear : Bool) :
    Option (ℕ × BDWGC) :=
  let result := vm.nKinds
  if result < maxObjKinds then
    some (result, { vm with
      objKinds := fun k => if k = result then some ⟨descr, adjust, clear, hd⟩ else vm.objKinds k
      nKinds := vm.nKinds + 1 })
  else none

def BDWGC.proc (vm : BDWGC) (descr : ℕ) : Option GCMarkProc :=
  vm.markProcs ((descr >>> 2) % gcMaxMarkProcs)

def BDWGC.env (descr : ℕ) : ℕ := descr >>> (2 + 6)

inductive ObjectKind
  | composite
  | withDescr (kind : ℕ)
  deriving DecidableEq, Repr

/-- An object as the callback sees it. -/
structure Object where
  address : ℕ
  objectStart : ℕ
  bytesUsed : ℕ
  kind : ObjectKind
  isAtomic : Bool
  address_lt : address < 2 ^ 64

/-- Where the callback is: at `'retry`, in the loop over a range, or in the loop over a bitmap. -/
inductive TracePoint
  | retry (kind : ℕ)
  | range (cursor finish : ℕ)
  | bitmap (descr currentP : ℕ)
  deriving DecidableEq, Repr

/-- The descriptor word behind the type descriptor that an object starts with. -/
def typeDescrSlot (typeDescr descr : ℕ) : ℕ :=
  (typeDescr + 2 ^ 65 - (descr + (gcIndirPerObjBias - 3))) % 2 ^ 64

variable (vm : BDWGC) (heap : Heap) (object : Object)

/-- One pass through `'retry`. -/
def retryRound (kind : ℕ) (t : Trace) : TracePoint × Trace ⊕ Trace :=
  match vm.objKinds kind with
  | none => .inr t
  | some entry =>
    let descr := entry.okDescriptor
    match descr % (gcDsTags + 1) with
    | 0 => .inl (.range object.address ((object.address + descr) % 2 ^ 64), t)
    | 1 => .inl (.bitmap (descr - descr % (gcDsTags + 1)) object.address, t)
    | 2 =>
      match vm.proc descr with
      | none => .inr t
      | some proc => .inr (proc heap object.address (BDWGC.env descr) t)
    | _ =>
      if descr &&& signb = 0 then
        -- the descriptor read from the object is assigned to a variable that the retry drops
        .inl (.retry kind, t)
      else
        let typeDescr := heap.load object.address
        if typeDescr = 0 then .inr t
        else if heap.load (typeDescrSlot typeDescr descr) = 0 then .inr t
        else .inl (.retry kind, t)

def traceRound : TracePoint × Trace → TracePoint × Trace ⊕ Trace
  | (.retry kind, t) => retryRound vm heap object kind t
  | (.range cursor finish, t) =>
    if cursor < finish then .inl (.range ((cursor + 8) % 2 ^ 64) finish, t.examine heap cursor)
    else .inr t
  | (.bitmap descr currentP, t) =>
    if descr = 0 then .inr t
    -- `continue` without a change of `descr`
    else if descr &&& signb = 0 then .inl (.bitmap descr currentP, t)
    else .inl (.bitmap ((descr <<< 1) % 2 ^ 64) ((currentP + 8) % 2 ^ 64),
      t.examineInHeap heap currentP)

/-- Where the callback starts, unless it returns at once. -/
def traceEntry : Option TracePoint :=
  if object.isAtomic then none
  else some (match object.kind with
    | .composite => .range object.objectStart ((object.objectStart + object.bytesUsed) % 2 ^ 64)
    | .withDescr kind => .retry kind)

/-- The trace callback of `CONSERVATIVE_METADATA` returns with the given trace. -/
def TraceReturns (r : Trace) : Prop :=
  match traceEntry object with
  | none => r = .start
  | some point => Loop.Returns (traceRound vm heap object) (point, .start) r

variable {vm heap object} {cursor finish descr currentP kind : ℕ} {t r : Trace} {entry : ObjKind}

theorem and_signb_eq_zero_iff (hd : descr < 2 ^ 64) : descr &&& signb = 0 ↔ descr < 2 ^ 63 := by
  rw [signb, Nat.and_two_pow, Nat.testBit_eq_decide_div_mod_eq]
  by_cases h : descr < 2 ^ 63
  · have hdiv : descr / 2 ^ 63 = 0 := by omega
    rw [hdiv]
    exact iff_of_true rfl h
  · have hdiv : descr / 2 ^ 63 = 1 := by omega
    rw [hdiv]
    exact iff_of_false (by decide) h

theorem traceRound_range_end (h : ¬ cursor < finish) :
    traceRound vm heap object (.range cursor finish, t) = .inr t := if_neg h

theorem traceRound_range (h : cursor < finish) :
    traceRound vm heap object (.range cursor finish, t) =
      .inl (.range ((cursor + 8) % 2 ^ 64) finish, t.examine heap cursor) := if_pos h

theorem traceRound_bitmap_end :
    traceRound vm heap object (.bitmap 0 currentP, t) = .inr t := rfl

theorem traceRound_bitmap_stuck (h0 : descr ≠ 0) (h : descr < 2 ^ 63) :
    traceRound vm heap object (.bitmap descr currentP, t) = .inl (.bitmap descr currentP, t) := by
  have hclear := (and_signb_eq_zero_iff (by omega)).mpr h
  simp only [traceRound, h0, ↓reduceIte, hclear]

theorem traceRound_bitmap (hd : descr < 2 ^ 64) (h : 2 ^ 63 ≤ descr) :
    traceRound vm heap object (.bitmap descr currentP, t) =
      .inl (.bitmap (2 * descr - 2 ^ 64) ((currentP + 8) % 2 ^ 64),
        t.examineInHeap heap currentP) := by
  have h0 : descr ≠ 0 := by omega
  have hset : ¬ descr &&& signb = 0 := fun hc => by
    have := (and_signb_eq_zero_iff hd).mp hc
    omega
  have hshift : (descr <<< 1) % 2 ^ 64 = 2 * descr - 2 ^ 64 := by
    rw [Nat.shiftLeft_eq]
    omega
  simp only [traceRound, h0, ↓reduceIte, hset, hshift]

/-- A range is scanned word by word up to its end. -/
theorem range_returns (hc : cursor < 2 ^ 64) (hf : finish ≤ 2 ^ 64 - 8 + cursor % 8) :
    ∃ r, Loop.Returns (traceRound vm heap object) (.range cursor finish, t) r ∧
      ∀ a, a ∈ r.examined ↔ a ∈ t.examined ∨ ∃ i, cursor + 8 * i < finish ∧ a = cursor + 8 * i := by
  obtain ⟨n, hn⟩ : ∃ n, finish ≤ cursor + 8 * n := ⟨finish, by omega⟩
  induction n generalizing cursor t with
  | zero =>
    refine ⟨t, (Loop.returns_of_inr (traceRound_range_end (by omega))).mpr rfl, fun a => ?_⟩
    constructor
    · exact .inl
    · rintro (h | ⟨i, hi, -⟩)
      · exact h
      · omega
  | succ n ih =>
    by_cases hlt : cursor < finish
    · have hnext : (cursor + 8) % 2 ^ 64 = cursor + 8 := by omega
      obtain ⟨r, hr, hmem⟩ := ih (t := t.examine heap cursor) (by omega : cursor + 8 < 2 ^ 64)
        (by omega) (by omega)
      rw [← hnext] at hr
      refine ⟨r, (Loop.returns_of_inl (traceRound_range hlt)).mpr hr, fun a => ?_⟩
      rw [hmem]
      simp only [Trace.examine, List.mem_append, List.mem_singleton]
      constructor
      · rintro ((h | rfl) | ⟨i, hi, rfl⟩)
        · exact .inl h
        · exact .inr ⟨0, by omega, by omega⟩
        · exact .inr ⟨i + 1, by omega, by omega⟩
      · rintro (h | ⟨_ | i, hi, rfl⟩)
        · exact .inl (.inl h)
        · exact .inl (.inr (by omega))
        · exact .inr ⟨i, by omega, by omega⟩
    · refine ⟨t, (Loop.returns_of_inr (traceRound_range_end hlt)).mpr rfl, fun a => ?_⟩
      constructor
      · exact .inl
      · rintro (h | ⟨i, hi, -⟩)
        · exact h
        · omega

/-- The cursor wraps around below an end in the last word of the address space. -/
theorem range_terminates_iff (hc : cursor < 2 ^ 64) :
    Loop.Terminates (traceRound vm heap object) (.range cursor finish, t) ↔
      finish ≤ 2 ^ 64 - 8 + cursor % 8 := by
  constructor
  · intro h
    by_contra hf
    refine Loop.not_terminates_of_invariant (I := fun s => ∃ c t', s = (.range c finish, t') ∧
      c < 2 ^ 64 ∧ c % 8 = cursor % 8) ?_ ⟨cursor, t, rfl, hc, rfl⟩ h
    rintro s ⟨c, t', rfl, hlt, hmod⟩
    exact ⟨_, traceRound_range (by omega), _, _, rfl, by omega, by omega⟩
  · intro hf
    exact ⟨_, (range_returns hc hf).choose_spec.1⟩

/-- The bits of the word are ones from the top down to some place and zeros below. -/
def LeadingOnes (descr : ℕ) : Prop := ∃ k ≤ 64, descr = 2 ^ 64 - 2 ^ (64 - k)

theorem two_pow_gap {k : ℕ} (hk : k < 64) : 2 ^ (64 - k) = 2 ^ (64 - (k + 1)) * 2 := by
  have hgap : 64 - k = 64 - (k + 1) + 1 := by omega
  rw [hgap, Nat.pow_succ]

theorem leadingOnes_shift (hd : descr < 2 ^ 64) (h : 2 ^ 63 ≤ descr) :
    LeadingOnes descr ↔ LeadingOnes (2 * descr - 2 ^ 64) := by
  constructor
  · rintro ⟨_ | j, hj, rfl⟩
    · omega
    · refine ⟨j, by omega, ?_⟩
      have hpow := two_pow_gap (by omega : j < 64)
      omega
  · rintro ⟨k, hk, he⟩
    have hlt : k ≠ 64 := by
      rintro rfl
      omega
    refine ⟨k + 1, by omega, ?_⟩
    have hpow := two_pow_gap (by omega : k < 64)
    have hle : 2 ^ (64 - k) ≤ 2 ^ 64 := Nat.pow_le_pow_right (by decide) (by omega)
    omega

theorem LeadingOnes.eq_zero (h : LeadingOnes descr) (hlow : descr < 2 ^ 63) : descr = 0 := by
  obtain ⟨_ | k, hk, rfl⟩ := h
  · rfl
  · have hpow := two_pow_gap (Nat.zero_lt_succ 63)
    have hle : 2 ^ (64 - (k + 1)) ≤ 2 ^ 63 := Nat.pow_le_pow_right (by decide) (by omega)
    omega

/-- The loop over a bitmap stops on a clear bit above a set one. -/
theorem bitmap_terminates_iff (hd : descr < 2 ^ 64) :
    Loop.Terminates (traceRound vm heap object) (.bitmap descr currentP, t) ↔
      LeadingOnes descr := by
  constructor
  · have key : ∀ s, Loop.Terminates (traceRound vm heap object) s →
        ∀ d p t, s = (.bitmap d p, t) → d < 2 ^ 64 → LeadingOnes d := by
      intro s h
      refine h.induction (P := fun s => ∀ d p t, s = (.bitmap d p, t) → d < 2 ^ 64 →
        LeadingOnes d) ?_ ?_
      · rintro s r hr d p t rfl hd
        have h0 : d = 0 := by
          by_contra h0
          by_cases hlow : d < 2 ^ 63
          · cases hr.symm.trans (traceRound_bitmap_stuck h0 hlow)
          · cases hr.symm.trans (traceRound_bitmap hd (by omega))
        exact ⟨0, by decide, h0⟩
      · rintro s s' hs' ih d p t rfl hd
        by_cases hlow : d < 2 ^ 63
        · by_cases h0 : d = 0
          · exact ⟨0, by decide, h0⟩
          · obtain rfl := Sum.inl.inj (hs'.symm.trans (traceRound_bitmap_stuck h0 hlow))
            exact ih d p t rfl hd
        · obtain rfl := Sum.inl.inj (hs'.symm.trans (traceRound_bitmap hd (by omega)))
          exact (leadingOnes_shift hd (by omega)).mpr (ih _ _ _ rfl (by omega))
    exact fun h => key _ h _ _ _ rfl hd
  · rintro ⟨k, hk, rfl⟩
    induction k generalizing currentP t with
    | zero => exact Loop.terminates_of_inr traceRound_bitmap_end
    | succ k ih =>
      have hpow := two_pow_gap (by omega : k < 64)
      have hle : 2 ^ (64 - k) ≤ 2 ^ 64 := Nat.pow_le_pow_right (by decide) (by omega)
      have hnext : 2 * (2 ^ 64 - 2 ^ (64 - (k + 1))) - 2 ^ 64 = 2 ^ 64 - 2 ^ (64 - k) := by omega
      rw [Loop.terminates_of_inl (traceRound_bitmap hd (by omega)), hnext]
      exact ih (by omega) (by omega)

/-- When tracing an object of a kind with the descriptor ends. -/
def TraceEnds (heap : Heap) (object : Object) (descr : ℕ) : Prop :=
  match descr % 4 with
  | 0 => (object.address + descr) % 2 ^ 64 ≤ 2 ^ 64 - 8 + object.address % 8
  | 1 => LeadingOnes (descr - descr % 4)
  | 2 => True
  | _ => 2 ^ 63 ≤ descr ∧ (heap.load object.address = 0 ∨
      heap.load (typeDescrSlot (heap.load object.address) descr) = 0)

/-- A retry reads the same descriptor again. -/
theorem not_terminates_of_retry {t : Trace}
    (h : ∀ t, retryRound vm heap object kind t = .inl (.retry kind, t)) :
    ¬ Loop.Terminates (traceRound vm heap object) (.retry kind, t) := by
  refine Loop.not_terminates_of_invariant (I := fun s => ∃ t, s = (.retry kind, t)) ?_ ⟨t, rfl⟩
  rintro s ⟨t, rfl⟩
  exact ⟨_, h t, t, rfl⟩

theorem retryRound_length (hk : vm.objKinds kind = some entry) (h : entry.okDescriptor % 4 = 0) :
    retryRound vm heap object kind t =
      .inl (.range object.address ((object.address + entry.okDescriptor) % 2 ^ 64), t) := by
  simp [retryRound, hk, gcDsTags, h]

theorem retryRound_bitmap (hk : vm.objKinds kind = some entry) (h : entry.okDescriptor % 4 = 1) :
    retryRound vm heap object kind t =
      .inl (.bitmap (entry.okDescriptor - entry.okDescriptor % 4) object.address, t) := by
  simp [retryRound, hk, gcDsTags, h]

theorem retryRound_proc (hk : vm.objKinds kind = some entry) (h : entry.okDescriptor % 4 = 2) :
    retryRound vm heap object kind t =
      .inr (match vm.proc entry.okDescriptor with
        | none => t
        | some proc => proc heap object.address (BDWGC.env entry.okDescriptor) t) := by
  cases hproc : vm.proc entry.okDescriptor <;> simp [retryRound, hk, gcDsTags, h, hproc]

/-- What the descriptor of the kind makes of a pass through `'retry`. -/
theorem retry_terminates_iff (hk : vm.objKinds kind = some entry) :
    Loop.Terminates (traceRound vm heap object) (.retry kind, t) ↔
      TraceEnds heap object entry.okDescriptor := by
  have hd := entry.okDescriptor_lt
  have hround : traceRound vm heap object (.retry kind, t) = retryRound vm heap object kind t := rfl
  obtain htag | htag | htag | htag : entry.okDescriptor % 4 = 0 ∨ entry.okDescriptor % 4 = 1 ∨
      entry.okDescriptor % 4 = 2 ∨ entry.okDescriptor % 4 = 3 := by omega
  · rw [Loop.terminates_of_inl (hround.trans (retryRound_length hk htag)),
      range_terminates_iff object.address_lt]
    simp [TraceEnds, htag]
  · rw [Loop.terminates_of_inl (hround.trans (retryRound_bitmap hk htag)),
      bitmap_terminates_iff (by omega)]
    simp [TraceEnds, htag]
  · refine iff_of_true (Loop.terminates_of_inr (hround.trans (retryRound_proc hk htag))) ?_
    simp [TraceEnds, htag]
  · have hclear := and_signb_eq_zero_iff hd
    by_cases hsign : entry.okDescriptor < 2 ^ 63
    · refine iff_of_false (not_terminates_of_retry fun t => ?_) fun h => ?_
      · simp [retryRound, hk, gcDsTags, htag, hclear.mpr hsign]
      · simp only [TraceEnds, htag] at h
        omega
    · have hset : ¬ entry.okDescriptor &&& signb = 0 := fun h => hsign (hclear.mp h)
      by_cases hempty : heap.load object.address = 0 ∨
          heap.load (typeDescrSlot (heap.load object.address) entry.okDescriptor) = 0
      · refine iff_of_true (Loop.terminates_of_inr (r := t) (hround.trans ?_)) ?_
        · rcases hempty with h | h <;> simp [retryRound, hk, gcDsTags, htag, hset, h]
        · simp only [TraceEnds, htag]
          exact ⟨by omega, hempty⟩
      · rw [not_or] at hempty
        refine iff_of_false (not_terminates_of_retry fun t => ?_) fun h => ?_
        · simp [retryRound, hk, gcDsTags, htag, hset, hempty]
        · simp only [TraceEnds, htag] at h
          exact h.2.elim hempty.1 hempty.2

/-- The callback enters the retry loop for an object of a kind that is not atomic. -/
theorem traceReturns_iff (hkind : object.kind = .withDescr kind) (ha : object.isAtomic = false) :
    TraceReturns vm heap object r ↔
      Loop.Returns (traceRound vm heap object) (.retry kind, .start) r := by
  have he : traceEntry object = some (.retry kind) := by simp [traceEntry, ha, hkind]
  simp only [TraceReturns, he]

/--
Tracing an object whose kind has been registered ends exactly when the object is atomic, or
the descriptor is a length, a bitmap without a clear bit above a set one, a procedure, or
names a type descriptor that is absent or empty.
-/
theorem trace_terminates_iff (hkind : object.kind = .withDescr kind)
    (hk : vm.objKinds kind = some entry) :
    (∃ r, TraceReturns vm heap object r) ↔
      object.isAtomic = true ∨ TraceEnds heap object entry.okDescriptor := by
  by_cases ha : object.isAtomic = true
  · have he : traceEntry object = none := if_pos ha
    simp [TraceReturns, he, ha]
  · rw [← retry_terminates_iff (t := .start) hk, Loop.Terminates]
    simp only [traceReturns_iff hkind (by simpa using ha), ha, false_or, Bool.false_eq_true]

theorem gcNewKind_spec {vm' : BDWGC} {hd : descr < 2 ^ 64} {adjust clear : Bool}
    (h : vm.gcNewKind descr hd adjust clear = some (kind, vm')) :
    vm'.objKinds kind = some ⟨descr, adjust, clear, hd⟩ ∧
      ∀ k ≠ kind, vm'.objKinds k = vm.objKinds k := by
  rw [BDWGC.gcNewKind] at h
  split at h
  · obtain ⟨rfl, rfl⟩ := Prod.mk.inj (Option.some.inj h)
    exact ⟨if_pos rfl, fun k hk => if_neg hk⟩
  · cases h

theorem gcNewKind_new (hd : descr < 2 ^ 64) :
    ∃ vm, BDWGC.new.gcNewKind descr hd false true = some (0, vm) := ⟨_, rfl⟩

/-- A zeroed heap without objects. -/
def Heap.empty : Heap := ⟨fun _ => 0, 0, 0, fun _ => none⟩

/-- An object of the first registered kind, with its header in front. -/
def Object.ofFirstKind : Object := ⟨4096, 4088, 64, .withDescr 0, false, by decide⟩

/-- Tracing ends for the bitmap of an object whose first two words are references. -/
theorem trace_terminates_two_words : ∃ vm,
    BDWGC.new.gcNewKind (2 ^ 63 + 2 ^ 62 + 1) (by decide) false true = some (0, vm) ∧
      ∃ r, TraceReturns vm .empty .ofFirstKind r := by
  obtain ⟨vm, hvm⟩ := gcNewKind_new (by decide : 2 ^ 63 + 2 ^ 62 + 1 < 2 ^ 64)
  refine ⟨vm, hvm, (trace_terminates_iff rfl (gcNewKind_spec hvm).1).mpr (.inr ?_)⟩
  exact ⟨2, by decide, by decide⟩

/--
Tracing does not end for the bitmap of an object whose second word is the only reference, and
for a descriptor that is stored in the object.
-/
theorem trace_runs_forever :
    (∃ vm, BDWGC.new.gcNewKind (2 ^ 62 + 1) (by decide) false true = some (0, vm) ∧
      ¬ ∃ r, TraceReturns vm .empty .ofFirstKind r) ∧
    ∃ vm, BDWGC.new.gcNewKind 3 (by decide) false true = some (0, vm) ∧
      ¬ ∃ r, TraceReturns vm .empty .ofFirstKind r := by
  obtain ⟨vm, hvm⟩ := gcNewKind_new (by decide : 2 ^ 62 + 1 < 2 ^ 64)
  obtain ⟨vm', hvm'⟩ := gcNewKind_new (by decide : 3 < 2 ^ 64)
  refine ⟨⟨vm, hvm, fun h => ?_⟩, vm', hvm', fun h => ?_⟩
  · have hends := (retry_terminates_iff (gcNewKind_spec hvm).1).mp h
    exact absurd (LeadingOnes.eq_zero hends (by decide)) (by decide)
  · have hends := (retry_terminates_iff (gcNewKind_spec hvm').1).mp h
    exact absurd hends.1 (by decide)

end VmkitCore.Descriptors
