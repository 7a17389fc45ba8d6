import VmkitCore.Lib.Machine
import VmkitCore.Mm.Tlab

/-! # Allocation

A mutator allocates from its buffer, or flushes the buffer and calls MMTk, which
cuts the block from the bump pointer or from a fresh region. A collection flushes
the buffer as well, and may reset or replace the bump pointer.
-/

namespace VmkitCore.Allocation

inductive AllocationSemantics
  | default | immortal | los | code | readOnly | largeCode | nonMoving
  deriving DecidableEq, Repr

inductive AllocFastPath
  | tlab | freeList | none
  deriving DecidableEq, Repr

/-- A plan whose default allocator is a bump allocator. -/
structure Config where
  conv : UsizeConversions
  selector : AllocatorSelector
  isBump : selector.isBump = true
  maxNonLosDefaultAllocBytes : ℕ

/-- What `startoff` sets for the selector. -/
def Config.allocFastPath (cfg : Config) : AllocFastPath :=
  if cfg.selector.isBump then .tlab else .none

/-- The bytes from `start` up to `stop`. -/
structure Region where
  start : ℕ
  stop : ℕ
  deriving DecidableEq, Repr

namespace Region

def Has (r : Region) (x : ℕ) : Prop := r.start ≤ x ∧ x < r.stop

theorem has_mk {start stop x : ℕ} : (⟨start, stop⟩ : Region).Has x ↔ start ≤ x ∧ x < stop := .rfl

def Disjoint (r r' : Region) : Prop := ∀ x, r.Has x → ¬ r'.Has x

/-- A region in use, in any order of the two. -/
def Apart (r r' : Region) : Prop := r.stop ≤ r'.start ∨ r'.stop ≤ r.start

instance (r r' : Region) : Decidable (r.Apart r') := inferInstanceAs (Decidable (_ ∨ _))

def Inside (r r' : Region) : Prop := r'.start ≤ r.start ∧ r.stop ≤ r'.stop

instance (r r' : Region) : Decidable (r.Inside r') := inferInstanceAs (Decidable (_ ∧ _))

end Region

/-- The call of `alloc` or `alloc_slow` that a mutator is in. -/
structure Request where
  size : ℕ
  alignment : ℕ
  offset : ℕ
  semantics : AllocationSemantics
  slow : Bool
  deriving DecidableEq, Repr

inductive Pc
  | idle | mmtk (r : Request) | refill
  deriving DecidableEq, Repr

structure State where
  tlab : TLAB
  /-- The bump pointer of the default allocator. -/
  bump : TLAB
  pc : Pc
  /-- The regions MMTk has given to this mutator. -/
  regions : List Region
  /-- The blocks returned from them, the last one first. -/
  blocks : List Region

/-- What a call of MMTk returns; a block of another space is not followed further. -/
inductive Outcome
  | cut (start : ℕ)
  /-- From a fresh region, with the bump pointer moved there or not. -/
  | fresh (region : Region) (start : ℕ) (bump : Option TLAB)
  | elsewhere
  deriving DecidableEq, Repr

/-- What a collection leaves of the bump pointer. -/
inductive Left
  | keep | reset | replace (region : Region)
  deriving DecidableEq, Repr

inductive Label
  | allocate (size logAlignment : ℕ) (semantics : AllocationSemantics)
  | allocateOutOfLine (size logAlignment : ℕ) (semantics : AllocationSemantics)
  | allocateSlow (size logAlignment : ℕ) (semantics : AllocationSemantics)
  | mmtk (o : Outcome)
  | refill
  | gc (left : Left)
  deriving DecidableEq, Repr

section Source

variable (cfg : Config) (s : State)

/-- Flush the buffer, and call MMTk. -/
def enter (r : Request) : Option State :=
  (TLAB.flush cfg.selector s.tlab s.bump).map fun (tlab, bump) =>
    { s with tlab := tlab, bump := bump, pc := .mmtk r }

def allocateLos (size alignment : ℕ) : Option State :=
  enter cfg s ⟨size, alignment, objectRefOffset, .los, false⟩

def allocateNonmoving (size alignment : ℕ) : Option State :=
  enter cfg s ⟨size, alignment, objectRefOffset, .nonMoving, false⟩

def allocateImmortal (size alignment : ℕ) : Option State :=
  enter cfg s ⟨size, alignment, objectRefOffset, .immortal, false⟩

def allocateSlow (size alignment : ℕ) (semantics : AllocationSemantics) : Option State :=
  enter cfg s ⟨size, alignment, objectRefOffset, semantics, true⟩

/-- The size with a header, and the semantics for that size. -/
def withHeader (size : ℕ) (semantics : AllocationSemantics) : ℕ × AllocationSemantics :=
  let size := (size + headerBytes) % 2 ^ 64
  (size, if semantics = .default ∧ cfg.maxNonLosDefaultAllocBytes ≤ size then .los else semantics)

def allocateOutOfLine (size alignment : ℕ) (semantics : AllocationSemantics) : Option State :=
  let (size, semantics) := withHeader cfg size semantics
  let size := cfg.conv.rawAlignUp size alignment
  match semantics with
  | .los => allocateLos cfg s size alignment
  | .nonMoving => allocateNonmoving cfg s size alignment
  | .immortal => allocateImmortal cfg s size alignment
  | semantics => enter cfg s ⟨size, alignment, 0, semantics, false⟩

def allocate (origSize alignment : ℕ) (origSemantics : AllocationSemantics) : Option State :=
  let (size, semantics) := withHeader cfg origSize origSemantics
  let size := cfg.conv.rawAlignUp size alignment
  if semantics = .default ∧ cfg.allocFastPath = .tlab then
    let served := s.tlab.allocate cfg.conv size alignment objectRefOffset
    let objectStart := served.1
    if objectStart ≠ 0 then
      some { s with tlab := served.2, blocks := ⟨objectStart, objectStart + size⟩ :: s.blocks }
    else allocateSlow cfg { s with tlab := served.2 } size alignment semantics
  else allocateOutOfLine cfg s origSize alignment origSemantics

end Source

/-- A region MMTk has not given to this mutator before. -/
def State.Fresh (s : State) (region : Region) : Prop :=
  0 < region.start ∧ region.start ≤ region.stop ∧ region.stop < 2 ^ 64 ∧
    ∀ r ∈ s.regions, region.Apart r

instance (s : State) (region : Region) : Decidable (s.Fresh region) :=
  inferInstanceAs (Decidable (_ ∧ _ ∧ _ ∧ _))

/-- What MMTk may return for a request. -/
def Outcome.Allowed (s : State) (r : Request) : Outcome → Prop
  | cut start => 0 < start ∧ s.bump.cursor ≤ start ∧ start + r.size ≤ s.bump.limit
  | fresh region start bump => s.Fresh region ∧ region.start ≤ start ∧
    start + r.size ≤ region.stop ∧ ∀ b ∈ bump, b = .new ∨
      start + r.size ≤ b.cursor ∧ b.cursor ≤ b.limit ∧ b.limit ≤ region.stop
  | elsewhere => r.semantics ≠ .default

instance (s : State) (r : Request) : ∀ o : Outcome, Decidable (o.Allowed s r)
  | .cut _ => inferInstanceAs (Decidable (_ ∧ _ ∧ _))
  | .fresh .. => inferInstanceAs (Decidable (_ ∧ _ ∧ _ ∧ _))
  | .elsewhere => inferInstanceAs (Decidable (_ ≠ _))

/-- The return of MMTk. -/
def State.returned (s : State) (r : Request) : Outcome → State
  | .cut start => { s with
    bump := ⟨start + r.size, s.bump.limit⟩
    pc := .refill
    blocks := ⟨start, start + r.size⟩ :: s.blocks }
  | .fresh region start bump => { s with
    bump := bump.getD s.bump
    pc := .refill
    regions := region :: s.regions
    blocks := ⟨start, start + r.size⟩ :: s.blocks }
  | .elsewhere => { s with pc := .refill }

def Left.Allowed (s : State) : Left → Prop
  | replace region => s.Fresh region
  | _ => True

instance (s : State) : ∀ l : Left, Decidable (l.Allowed s)
  | .replace _ => inferInstanceAs (Decidable (s.Fresh _))
  | .keep | .reset => inferInstanceAs (Decidable True)

/-- The end of a collection. -/
def State.collected (s : State) : Left → State
  | .keep => s
  | .reset => { s with bump := .new }
  | .replace region => { s with
    bump := ⟨region.start, region.stop⟩
    regions := region :: s.regions }

/-- One step; the sizes and alignments of calls are a `usize`. -/
def step (cfg : Config) (s : State) : Label → Option State
  | .allocate size logAlignment semantics =>
    if s.pc = .idle ∧ size < 2 ^ 64 ∧ logAlignment < 64 then
      allocate cfg s size (2 ^ logAlignment) semantics
    else none
  | .allocateOutOfLine size logAlignment semantics =>
    if s.pc = .idle ∧ size < 2 ^ 64 ∧ logAlignment < 64 then
      allocateOutOfLine cfg s size (2 ^ logAlignment) semantics
    else none
  | .allocateSlow size logAlignment semantics =>
    if s.pc = .idle ∧ size < 2 ^ 64 ∧ logAlignment < 64 then
      allocateSlow cfg s size (2 ^ logAlignment) semantics
    else none
  | .mmtk o =>
    match s.pc with
    | .mmtk r => if o.Allowed s r then some (s.returned r o) else none
    | _ => none
  | .refill =>
    if s.pc = .refill then
      some { s with tlab := TLAB.refill cfg.selector s.tlab s.bump, pc := .idle }
    else none
  | .gc left =>
    if left.Allowed s then
      (TLAB.flush cfg.selector s.tlab s.bump).map fun (tlab, bump) =>
        { s with tlab := tlab, bump := bump }.collected left
    else none

def State.new : State := ⟨.new, .new, .idle, [], []⟩

def machine (cfg : Config) : Machine State Label where
  init s := s = State.new
  step := step cfg

end VmkitCore.Allocation
