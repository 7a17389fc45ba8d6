import VmkitCore.Mm.BlocksDisjoint
import VmkitCore.Mm.ObjectReferences
import VmkitCore.Mm.SideMetadata

/-! # Initialising objects

A block becomes an object when its header is stored and its valid-object bit is set. Setting the
bit loads a byte and stores it again, and other threads allocate in between. No bit is lost, since
threads never share the memory that a byte of bits is about.
-/

namespace VmkitCore

namespace ObjectInit

open Allocation (Region Request Outcome Left)

structure Object (τ : Type) where
  owner : τ
  block : Region
  metadata : UInt64
  los : Bool
  deriving DecidableEq

/-- `object_start + OBJECT_REF_OFFSET` -/
def Object.reference {τ : Type} (o : Object τ) : VMKitObject := ⟨o.block.start + objectRefOffset⟩

/-- What is left to do for the block that a thread has got. -/
inductive Phase (τ : Type)
  | done
  | header (o : Object τ)
  | load (o : Object τ)
  | store (o : Object τ) (byte : UInt8)
  | postAlloc (o : Object τ)

structure Mutator (τ : Type) where
  alloc : Allocation.State
  /-- The argument of the call. -/
  metadata : UInt64
  /-- The blocks from spaces other than the buffer's. -/
  others : List Region
  phase : Phase τ

structure State (τ : Type) where
  mutators : τ → Mutator τ
  memory : ByteMemory
  objects : List (Object τ)

structure Config where
  alloc : Allocation.Config
  cooperative : Bool
  /-- `VO_BIT_SIDE_METADATA_ADDR` -/
  base : ℕ

inductive Label (τ : Type)
  | alloc (t : τ) (l : Allocation.Label) (metadata : UInt64)
  /-- MMTk returns a block from a space other than the buffer's. -/
  | elsewhere (t : τ) (block : Region)
  | header (t : τ)
  | load (t : τ)
  | store (t : τ)
  | postAlloc (t : τ)
  | write (x : ℕ) (byte : UInt8)
  | collect (memory : ByteMemory) (live : Object τ → Bool)

/-- The block that a step of allocation has served. -/
def got (before after : Allocation.State) : Option Region :=
  if before.blocks.length < after.blocks.length then after.blocks.head? else none

/-- The call is one of `allocate_los`. -/
def isLos (s : Allocation.State) : Bool :=
  match s.pc with
  | .mmtk r => r.semantics = .los
  | _ => false

def Phase.isDone {τ : Type} : Phase τ → Bool
  | done => true
  | _ => false

def Phase.isPostAlloc {τ : Type} : Phase τ → Bool
  | postAlloc _ => true
  | _ => false

/-- Where `set_vo_bit` loads and stores. -/
def voAddr (base : ℕ) (o : VMKitObject) : ℕ := (base + o.address >>> 6) % 2 ^ 64

/-- The store in `set_vo_bit` of a byte that was loaded before. -/
def storeVoByte (base : ℕ) (m : ByteMemory) (o : VMKitObject) (byte : UInt8) : ByteMemory :=
  let mask := (1 : UInt8) <<< UInt8.ofNat (o.address >>> 3 &&& 7)
  Function.update m (voAddr base o) (byte ||| mask)

variable {τ : Type} [DecidableEq τ]

def State.set (s : State τ) (t : τ) (m : Mutator τ) : State τ :=
  { s with mutators := Function.update s.mutators t m }

@[simp] theorem State.set_self (s : State τ) (t : τ) (m : Mutator τ) :
    (s.set t m).mutators t = m := Function.update_self ..

theorem State.set_of_ne (s : State τ) {t t' : τ} (h : t' ≠ t) (m : Mutator τ) :
    (s.set t m).mutators t' = s.mutators t' := Function.update_of_ne h _ _

def step (cfg : Config) (s : State τ) : Label τ → Option (State τ)
  | .alloc t l metadata =>
    let m := s.mutators t
    -- a thread in the large object space refills its buffer before `post_alloc`
    if (m.phase.isDone ∨ l = .refill ∧ m.phase.isPostAlloc) ∧ l ≠ .mmtk .elsewhere then do
      let metadata := if m.alloc.pc = .idle then metadata else m.metadata
      let alloc ← Allocation.step cfg.alloc m.alloc l
      let phase := match got m.alloc alloc with
        | some block => .header ⟨t, block, metadata, isLos m.alloc⟩
        | none => m.phase
      some (s.set t { m with alloc, metadata, phase })
    else none
  | .elsewhere t block =>
    let m := s.mutators t
    match m.alloc.pc with
    | .mmtk r =>
      if m.phase.isDone ∧ block.stop = block.start + r.size then do
        let alloc ← Allocation.step cfg.alloc m.alloc (.mmtk .elsewhere)
        let phase := .header ⟨t, block, m.metadata, isLos m.alloc⟩
        some (s.set t { m with alloc, phase, others := block :: m.others })
      else none
    | _ => none
  | .header t =>
    let m := s.mutators t
    match m.phase with
    | .header o =>
      let phase := if o.los then .postAlloc o else if cfg.cooperative then .load o else .done
      some { s.set t { m with phase } with
        memory := s.memory.store o.block.start headerBytes o.metadata.toNat
        objects := o :: s.objects }
    | _ => none
  | .load t =>
    let m := s.mutators t
    match m.phase with
    | .load o =>
      some (s.set t { m with phase := .store o (s.memory (voAddr cfg.base o.reference)) })
    | _ => none
  | .store t =>
    let m := s.mutators t
    match m.phase with
    | .store o byte =>
      some { s.set t { m with phase := .done } with
        memory := storeVoByte cfg.base s.memory o.reference byte }
    | _ => none
  | .postAlloc t =>
    let m := s.mutators t
    match m.phase with
    | .postAlloc o =>
      if m.alloc.pc = .idle then
        -- MMTk sets the bit of a large object, in one atomic step
        some { s.set t { m with phase := .done } with
          memory := SideMetadata.setVoBit cfg.base s.memory cfg.cooperative o.reference }
      else none
    | _ => none
  | .write x byte => some { s with memory := Function.update s.memory x byte }
  | .collect memory live => some { s with memory, objects := s.objects.filter live }

/-- With no step in between, the load and the store are `set_vo_bit`. -/
theorem storeVoByte_load (base : ℕ) (m : ByteMemory) (o : VMKitObject) :
    storeVoByte base m o (m (voAddr base o)) = SideMetadata.setVoBit base m true o := rfl

/-! ### What a step of allocation serves -/

/-- The region that MMTk gives to the mutator in a step. -/
def newRegion : Allocation.Label → Option Region
  | .mmtk (.fresh region ..) | .gc (.replace region) => some region
  | _ => none

/-- The block is aligned, and has room for more than the header. -/
def Sized (b : Region) : Prop := 8 ∣ b.start ∧ b.start + headerBytes < b.stop

/-- A request for more than a header, in the alignment of objects. -/
def Sound (r : Request) : Prop := headerBytes < r.size ∧ 8 ∣ r.alignment ∧ 8 ∣ r.offset

/--
Calls are for some payload, of a size that a `usize` holds with its header, and in the alignment
of objects, and MMTk aligns blocks.
-/
def Proper (s : Allocation.State) : Allocation.Label → Prop
  | .allocate size k _ | .allocateOutOfLine size k _ =>
    0 < size ∧ ObjectReferences.Representable size k ∧ 3 ≤ k
  | .allocateSlow size k _ => headerBytes < size ∧ 3 ≤ k
  | .mmtk (.cut start) | .mmtk (.fresh _ start _) =>
    ∀ r, s.pc = .mmtk r → r.alignment ∣ start + r.offset
  | _ => True

section Allocation

variable {cfg : Allocation.Config} {s s' : Allocation.State} {size k : ℕ}
  {semantics : Allocation.AllocationSemantics}

theorem eight_dvd_two_pow (hk : 3 ≤ k) : 8 ∣ 2 ^ k := pow_dvd_pow 2 hk

theorem sized_of_dvd {start n : ℕ} (hd : 8 ∣ start + 8) (hn : headerBytes < n) :
    Sized ⟨start, start + n⟩ :=
  ⟨(Nat.dvd_add_left (Nat.dvd_refl 8)).mp hd, Nat.add_lt_add_left hn _⟩

theorem Sound.sized {r : Request} (h : Sound r) {start : ℕ} (hd : r.alignment ∣ start + r.offset) :
    Sized ⟨start, start + r.size⟩ := by
  obtain ⟨hsize, halign, hoffset⟩ := h
  exact ⟨(Nat.dvd_add_left hoffset).mp (halign.trans hd), Nat.add_lt_add_left hsize _⟩

/-- A call that goes to MMTk serves nothing yet. -/
structure Entered (s s' : Allocation.State) : Prop where
  blocks : s'.blocks = s.blocks
  regions : s'.regions = s.regions
  sound : ∀ r, s'.pc = .mmtk r → Sound r

theorem entered {r : Request} (hr : Sound r) (h : Allocation.enter cfg s r = some s') :
    Entered s s' := by
  obtain ⟨⟨tlab, bump⟩, -, rfl⟩ := Option.map_eq_some_iff.mp h
  refine ⟨rfl, rfl, ?_⟩
  rintro r' ⟨⟩
  exact hr

theorem lt_rawAlignUp (hsize : 0 < size) (hk : k < 64)
    (hlt : ObjectReferences.Representable size k) :
    headerBytes < cfg.conv.rawAlignUp ((size + headerBytes) % 2 ^ 64) (2 ^ k) := by
  have hle : size + headerBytes ≤ ObjectReferences.blockSize cfg.conv size (2 ^ k) :=
    (ObjectReferences.le_blockSize_iff hk).mpr hlt
  unfold ObjectReferences.blockSize at hle
  omega

theorem entered_allocateOutOfLine (hsize : 0 < size) (hk : 3 ≤ k) (hk' : k < 64)
    (hlt : ObjectReferences.Representable size k)
    (h : Allocation.allocateOutOfLine cfg s size (2 ^ k) semantics = some s') :
    Entered s s' := by
  have hsound : headerBytes < cfg.conv.rawAlignUp ((size + headerBytes) % 2 ^ 64) (2 ^ k) :=
    lt_rawAlignUp hsize hk' hlt
  unfold Allocation.allocateOutOfLine at h
  dsimp only at h
  split at h
  case h_4 => exact entered ⟨hsound, eight_dvd_two_pow hk, Nat.dvd_zero 8⟩ h
  all_goals exact entered ⟨hsound, eight_dvd_two_pow hk, Nat.dvd_refl 8⟩ h

/-- What a step of allocation does to the blocks and regions. -/
structure Served (s s' : Allocation.State) (region : Option Region) : Prop where
  regions : s'.regions = region.toList ++ s.regions
  blocks : s'.blocks = s.blocks ∧ (∀ r, s'.pc = .mmtk r → Sound r) ∨
    ∃ b, s'.blocks = b :: s.blocks ∧ Sized b ∧ ∀ r, s'.pc ≠ .mmtk r

theorem Entered.served (h : Entered s s') : Served s s' none :=
  ⟨h.regions, .inl ⟨h.blocks, h.sound⟩⟩

theorem served_allocate (hsize : 0 < size) (hk : 3 ≤ k) (hk' : k < 64)
    (hlt : ObjectReferences.Representable size k) (hidle : s.pc = .idle)
    (h : Allocation.allocate cfg s size (2 ^ k) semantics = some s') : Served s s' none := by
  have hsound : headerBytes < cfg.conv.rawAlignUp ((size + headerBytes) % 2 ^ 64) (2 ^ k) :=
    lt_rawAlignUp hsize hk' hlt
  unfold Allocation.allocate at h
  dsimp only at h
  split at h
  · split at h
    · next hstart =>
      cases h
      have hdvd := (eight_dvd_two_pow hk).trans (ObjectReferences.dvd_tlabAllocate hk' hstart)
      refine ⟨rfl, .inr ⟨_, rfl, sized_of_dvd hdvd hsound, fun r hr => ?_⟩⟩
      cases hidle.symm.trans hr
    · have hslow := entered ⟨hsound, eight_dvd_two_pow hk, Nat.dvd_refl 8⟩ h
      exact ⟨hslow.regions, .inl ⟨hslow.blocks, hslow.sound⟩⟩
  · exact (entered_allocateOutOfLine hsize hk hk' hlt h).served

/-- A step serves a block of the right shape, or none. -/
theorem served {l : Allocation.Label} (hproper : Proper s l) (hl : l ≠ .mmtk .elsewhere)
    (hsound : ∀ r, s.pc = .mmtk r → Sound r) (h : Allocation.step cfg s l = some s') :
    Served s s' (newRegion l) := by
  cases l with
  | allocate size k semantics =>
    obtain ⟨hsize, hlt, hk⟩ := hproper
    obtain ⟨⟨hidle, -, hk'⟩, h⟩ := Option.ite_none_right_eq_some.mp h
    exact served_allocate hsize hk hk' hlt hidle h
  | allocateOutOfLine size k semantics =>
    obtain ⟨hsize, hlt, hk⟩ := hproper
    obtain ⟨⟨-, -, hk'⟩, h⟩ := Option.ite_none_right_eq_some.mp h
    exact (entered_allocateOutOfLine hsize hk hk' hlt h).served
  | allocateSlow size k semantics =>
    obtain ⟨hsize, hk⟩ := hproper
    obtain ⟨-, h⟩ := Option.ite_none_right_eq_some.mp h
    have hslow := entered ⟨hsize, eight_dvd_two_pow hk, Nat.dvd_refl 8⟩ h
    exact hslow.served
  | mmtk o =>
    rw [Allocation.step] at h
    split at h
    case h_2 => cases h
    case h_1 r hr =>
      obtain ⟨-, h⟩ := Option.ite_none_right_eq_some.mp h
      cases h
      cases o with
      | cut start =>
        exact ⟨rfl, .inr ⟨_, rfl, (hsound r hr).sized (hproper r hr), by rintro r' ⟨⟩⟩⟩
      | fresh region start bump =>
        exact ⟨rfl, .inr ⟨_, rfl, (hsound r hr).sized (hproper r hr), by rintro r' ⟨⟩⟩⟩
      | elsewhere => exact absurd rfl hl
  | refill =>
    obtain ⟨-, h⟩ := Option.ite_none_right_eq_some.mp h
    cases h
    exact ⟨rfl, .inl ⟨rfl, by rintro r ⟨⟩⟩⟩
  | gc left =>
    obtain ⟨-, h⟩ := Option.ite_none_right_eq_some.mp h
    obtain ⟨⟨tlab, bump⟩, -, rfl⟩ := Option.map_eq_some_iff.mp h
    cases left <;> exact ⟨rfl, .inl ⟨rfl, hsound⟩⟩

theorem got_of_blocks_eq (h : s'.blocks = s.blocks) : got s s' = none := by
  rw [got, h]
  exact if_neg (Nat.lt_irrefl _)

theorem got_of_blocks_cons {b : Region} (h : s'.blocks = b :: s.blocks) : got s s' = some b := by
  rw [got, h]
  exact if_pos (Nat.lt_succ_self _)

end Allocation

/-! ### Who owns which memory -/

/-- The memory that MMTk has given to the thread. -/
def Mutator.Owns (m : Mutator τ) (x : ℕ) : Prop :=
  (∃ r ∈ m.alloc.regions, r.Has x) ∨ ∃ b ∈ m.others, b.Has x

def Mutator.blocks (m : Mutator τ) : List Region := m.alloc.blocks ++ m.others

/--
What MMTk promises of memory that it gives to a thread: nobody has it, no byte of the table of
bits is about it and about memory of another thread, the table is elsewhere, and no bit is set.
-/
structure Given (cfg : Config) (s : State τ) (t : τ) (c : Region) : Prop where
  bounded : ∀ x, c.Has x → cfg.base + x >>> 6 < 2 ^ 64
  fresh : ∀ x, c.Has x → ¬ (s.mutators t).Owns x
  lines : ∀ t' x y, t' ≠ t → c.Has x → (s.mutators t').Owns y → x >>> 6 ≠ y >>> 6
  table : ∀ x y, c.Has x → c.Has y ∨ (∃ t', (s.mutators t').Owns y) →
    cfg.base + x >>> 6 ≠ y ∧ cfg.base + y >>> 6 ≠ x
  clear : ∀ a, c.Has a → 8 ∣ a → SideMetadata.sideBit cfg.base s.memory a = false

structure Spaces (cfg : Config) (ms : τ → Mutator τ) : Prop where
  alloc : ∀ t, Allocation.Inv (ms t).alloc
  sound : ∀ t r, (ms t).alloc.pc = .mmtk r → Sound r
  others : ∀ t, ∀ r ∈ (ms t).alloc.regions, ∀ b ∈ (ms t).others, r.Disjoint b
  bounded : ∀ t x, (ms t).Owns x → cfg.base + x >>> 6 < 2 ^ 64
  lines : ∀ t t' x y, t ≠ t' → (ms t).Owns x → (ms t').Owns y → x >>> 6 ≠ y >>> 6
  table : ∀ t t' x y, (ms t).Owns x → (ms t').Owns y → cfg.base + x >>> 6 ≠ y

variable {cfg : Config} {s s' : State τ} {t : τ} {m : Mutator τ}

theorem owns_update {chunk : Option Region} {t' : τ} {x : ℕ}
    (howns : ∀ x, m.Owns x → (s.mutators t).Owns x ∨ ∃ c ∈ chunk, c.Has x)
    (h : (Function.update s.mutators t m t').Owns x) :
    (s.mutators t').Owns x ∨ t' = t ∧ ∃ c ∈ chunk, c.Has x := by
  by_cases ht : t' = t
  · subst ht
    rw [Function.update_self] at h
    exact (howns x h).imp_right fun hc => ⟨rfl, hc⟩
  · rw [Function.update_of_ne ht] at h
    exact .inl h

/-- A thread that goes on keeps the spaces apart, if all it gets is given to it by MMTk. -/
theorem Spaces.update (h : Spaces cfg s.mutators) {chunk : Option Region}
    (hgiven : ∀ c ∈ chunk, Given cfg s t c)
    (howns : ∀ x, m.Owns x → (s.mutators t).Owns x ∨ ∃ c ∈ chunk, c.Has x)
    (halloc : Allocation.Inv m.alloc) (hsound : ∀ r, m.alloc.pc = .mmtk r → Sound r)
    (hothers : ∀ r ∈ m.alloc.regions, ∀ b ∈ m.others, r.Disjoint b) :
    Spaces cfg (Function.update s.mutators t m) := by
  constructor
  case alloc =>
    intro t'
    by_cases ht : t' = t
    · subst ht
      rwa [Function.update_self]
    · rw [Function.update_of_ne ht]
      exact h.alloc t'
  case sound =>
    intro t'
    by_cases ht : t' = t
    · subst ht
      rwa [Function.update_self]
    · rw [Function.update_of_ne ht]
      exact h.sound t'
  case others =>
    intro t'
    by_cases ht : t' = t
    · subst ht
      rwa [Function.update_self]
    · rw [Function.update_of_ne ht]
      exact h.others t'
  case bounded =>
    intro t' x hx
    rcases owns_update howns hx with hx | ⟨-, c, hc, hx⟩
    · exact h.bounded t' x hx
    · exact (hgiven c hc).bounded x hx
  case lines =>
    intro t₁ t₂ x y hne hx hy
    rcases owns_update howns hx with hx' | ⟨rfl, c, hc, hx'⟩ <;>
      rcases owns_update howns hy with hy' | ⟨rfl, c', hc', hy'⟩
    · exact h.lines t₁ t₂ x y hne hx' hy'
    · exact ((hgiven c' hc').lines t₁ y x hne hy' hx').symm
    · exact (hgiven c hc).lines t₂ x y hne.symm hx' hy'
    · exact absurd rfl hne
  case table =>
    intro t₁ t₂ x y hx hy
    rcases owns_update howns hx with hx | ⟨-, c, hc, hx⟩ <;>
      rcases owns_update howns hy with hy | ⟨-, c', hc', hy⟩
    · exact h.table t₁ t₂ x y hx hy
    · exact ((hgiven c' hc').table y x hy (.inr ⟨t₁, hx⟩)).2
    · exact ((hgiven c hc).table x y hx (.inr ⟨t₂, hy⟩)).1
    · cases hc.symm.trans hc'
      exact ((hgiven c hc).table x y hx (.inl hy)).1

omit [DecidableEq τ] in
/-- Blocks are owned by their threads. -/
theorem Spaces.owns_of_mem_blocks {ms : τ → Mutator τ} (h : Spaces cfg ms) {b : Region}
    (hb : b ∈ (ms t).blocks) {x : ℕ} (hx : b.Has x) : (ms t).Owns x := by
  rcases List.mem_append.mp hb with hb | hb
  · obtain ⟨r, hr, hstart, hstop⟩ := (h.alloc t).inside b hb
    exact .inl ⟨r, hr, hstart.trans hx.1, hx.2.trans_le hstop⟩
  · exact .inr ⟨b, hb, hx⟩

omit [DecidableEq τ] in
/-- Different threads own different memory. -/
theorem Spaces.owner_unique {ms : τ → Mutator τ} (h : Spaces cfg ms) {t' : τ} {x : ℕ}
    (hx : (ms t).Owns x) (hx' : (ms t').Owns x) : t = t' := by
  by_contra hne
  exact h.lines t t' x x hne hx hx' rfl

end ObjectInit

end VmkitCore
