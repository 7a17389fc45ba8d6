import VmkitCore.Lib.Simulation
import VmkitCore.Mm.Tlab

/-! # Signals between the accesses to a buffer

The operations of a mutator on its buffer are split into the single reads and writes
of the two words, of the buffer and of the bump pointer that it is refilled from. Between any two
of them the signal handler may flush the buffer, and the collection that sent the signal may
leave another bump pointer.
-/

namespace VmkitCore.TlabSignals

/-- The next access of the mutator. -/
inductive Pc
  | idle
  -- `TLAB::allocate`
  | allocCursor (size alignment offset : ℕ) | allocLimit (result size : ℕ)
  | allocWrite (result size : ℕ)
  -- `refill_tlab` and `TLAB::rebind`
  | refill | refillLimit (cursor : ℕ) | rebindCursor (cursor limit : ℕ) | rebindLimit (limit : ℕ)
  -- `flush_tlab` and `TLAB::take`
  | takeCursor | takeLimit (cursor : ℕ) | clearCursor (cursor limit : ℕ)
  | clearLimit (cursor limit : ℕ) | giveBack (cursor limit : ℕ)
  deriving DecidableEq, Repr

structure State where
  tlab : TLAB
  bump : TLAB
  pc : Pc
  /-- An assertion of `flush_tlab` has failed. -/
  panicked : Bool
  /-- Not in the source: the bytes the handler has given back and MMTk has left in place. -/
  given : ℕ → Bool
  /-- Not in the source: those that MMTk has used otherwise, and not handed out again. -/
  reclaimed : ℕ → Bool
  /-- Not in the source: a block with a byte of either kind has been returned. -/
  clash : Bool

inductive Label
  | allocate (size alignment offset : ℕ)
  | refill
  | flush
  | step
  /-- The handler flushes the buffer, and the collection may leave another bump pointer. -/
  | signal (left : Option TLAB)
  /-- MMTk changes the bump pointer in a call of the mutator. -/
  | mmtk (bump : TLAB)
  deriving DecidableEq, Repr

namespace State

def foreign (s : State) (x : ℕ) : Bool := s.given x || s.reclaimed x

/-- MMTk replaces the bump pointer. -/
def handOut (s : State) (bump : TLAB) : State :=
  { s with
    bump := bump
    given := fun _ => false
    reclaimed := fun x => s.foreign x && !decide (bump.Has x) }

/-- `flush_tlab` in the signal handler, up to the return of the handler. -/
def handler (selector : AllocatorSelector) (s : State) (left : Option TLAB) : State :=
  let ((cursor, limit), tlab) := s.tlab.take
  match TLAB.giveBack selector s.bump cursor limit with
  | none => { s with tlab := tlab, panicked := true }
  | some bump =>
    let flushed := { s with
      tlab := tlab
      bump := bump
      given := fun x => s.given x || decide (s.tlab.Has x) }
    match left with
    | none => flushed
    | some bump => flushed.handOut bump

end State

/-- The next access of the mutator inside an operation. -/
def mutatorStep (conv : UsizeConversions) (selector : AllocatorSelector) (s : State) :
    Option State :=
  match s.pc with
  | .idle => none
  | .allocCursor size alignment offset =>
    let result := s.tlab.alignedCursor alignment offset
    some { s with pc := .allocLimit result (conv.rawAlignUp size alignment) }
  | .allocLimit result size =>
    some { s with
      pc := if (result + size) % 2 ^ 64 > s.tlab.limit then .idle else .allocWrite result size }
  | .allocWrite result size =>
    some { s with
      tlab := { s.tlab with cursor := (result + size) % 2 ^ 64 }
      pc := .idle
      clash := s.clash || (List.range size).any fun i => s.foreign (result + i) }
  | .refill =>
    some { s with pc := if selector.isBump then .refillLimit s.bump.cursor else .idle }
  | .refillLimit cursor =>
    some { s with
      pc := .rebindCursor cursor s.bump.limit
      -- the buffer takes over what the bump pointer has
      given := fun x => s.given x && !decide (s.bump.Has x ∧ cursor ≤ x) }
  | .rebindCursor cursor limit =>
    some { s with tlab := { s.tlab with cursor := cursor }, pc := .rebindLimit limit }
  | .rebindLimit limit => some { s with tlab := { s.tlab with limit := limit }, pc := .idle }
  | .takeCursor => some { s with pc := .takeLimit s.tlab.cursor }
  | .takeLimit cursor => some { s with pc := .clearCursor cursor s.tlab.limit }
  | .clearCursor cursor limit =>
    some { s with tlab := { s.tlab with cursor := 0 }, pc := .clearLimit cursor limit }
  | .clearLimit cursor limit =>
    some { s with tlab := { s.tlab with limit := 0 }, pc := .giveBack cursor limit }
  | .giveBack cursor limit =>
    some (match TLAB.giveBack selector s.bump cursor limit with
    | none => { s with panicked := true }
    | some bump => { s with bump := bump, pc := .idle })

def step (conv : UsizeConversions) (selector : AllocatorSelector) (s : State) : Label → Option State
  | .signal left =>
    if s.panicked = false ∧ (∀ bump ∈ left, bump.Valid selector) then
      some (s.handler selector left)
    else none
  | .step => if s.panicked = false then mutatorStep conv selector s else none
  | .mmtk bump =>
    if s.panicked = false ∧ s.pc = .idle ∧ bump.Valid selector then some (s.handOut bump) else none
  | .allocate size alignment offset =>
    if s.panicked = false ∧ s.pc = .idle then
      some { s with pc := .allocCursor size alignment offset }
    else none
  | .refill =>
    if s.panicked = false ∧ s.pc = .idle then some { s with pc := .refill } else none
  | .flush =>
    if s.panicked = false ∧ s.pc = .idle then some { s with pc := .takeCursor } else none

def State.new : State := ⟨.new, .new, .idle, false, fun _ => false, fun _ => false, false⟩

def machine (conv : UsizeConversions) (selector : AllocatorSelector) : Machine State Label where
  init s := s = State.new
  step := step conv selector

/--
What a signal leaves of the words that the mutator has read: the limit it is about to read, and
the words it is about to store in the buffer or in the bump pointer, are still of bytes that are
its own, or will be.
-/
def Spared (selector : AllocatorSelector) (s : State) (left : Option TLAB) : Prop :=
  let s' := s.handler selector left
  match s.pc with
  | .idle | .allocCursor .. | .allocLimit .. | .refill | .takeCursor => True
  | .refillLimit cursor => TLAB.Valid selector ⟨cursor, s'.bump.limit⟩ ∧
      ∀ x, TLAB.Has ⟨cursor, s'.bump.limit⟩ x → s'.foreign x = true → s'.bump.Has x
  | .rebindCursor cursor limit => ∀ x, TLAB.Has ⟨cursor, limit⟩ x → s'.foreign x = false
  | .clearCursor cursor limit | .giveBack cursor limit =>
    ∀ x, TLAB.Has ⟨cursor, limit⟩ x → s'.reclaimed x = false
  | .clearLimit cursor limit =>
    s.tlab = .new ∧ ∀ x, TLAB.Has ⟨cursor, limit⟩ x → s'.reclaimed x = false
  | .allocWrite .. | .rebindLimit _ | .takeLimit _ => s.tlab = .new

/-- A signal spares what the mutator has read, and no block wraps around. -/
def Safe (conv : UsizeConversions) (selector : AllocatorSelector) (s : State) : Label → Prop
  | .signal left => Spared selector s left
  | .step =>
    match s.pc with
    | .allocCursor size alignment offset => ¬ s.tlab.Wraps conv size alignment offset
    | _ => True
  | _ => True

/-- The buffer has been written in one of its words only. -/
def Pc.half : Pc → Bool
  | .rebindLimit _ | .clearLimit .. => true
  | _ => false

/-- A region the mutator may serve: well formed, and with no byte that is not its own. -/
structure Mine (selector : AllocatorSelector) (s : State) (t : TLAB) : Prop where
  valid : t.Valid selector
  own : ∀ x, t.Has x → s.foreign x = false

/-- A region that the bump pointer may name. -/
structure Kept (selector : AllocatorSelector) (s : State) (t : TLAB) : Prop where
  valid : t.Valid selector
  own : ∀ x, t.Has x → s.reclaimed x = false

/-- What the mutator remembers at each access. -/
def Pc.Ok (selector : AllocatorSelector) (s : State) : Pc → Prop
  | .allocLimit result size => s.tlab.cursor ≤ result ∧ result + size < 2 ^ 64 ∨
      s.tlab.limit < (result + size) % 2 ^ 64
  | .allocWrite result size => s.tlab.cursor ≤ result ∧ result + size ≤ s.tlab.limit
  | .refillLimit cursor => TLAB.Valid selector ⟨cursor, s.bump.limit⟩ ∧
      ∀ x, TLAB.Has ⟨cursor, s.bump.limit⟩ x → s.foreign x = true → s.bump.Has x
  | .rebindCursor cursor limit => Mine selector s ⟨cursor, limit⟩
  | .rebindLimit limit => Mine selector s ⟨s.tlab.cursor, limit⟩
  | .takeLimit cursor => cursor = s.tlab.cursor
  | .clearCursor cursor limit => Kept selector s ⟨cursor, limit⟩
  | .clearLimit cursor limit => s.tlab.cursor = 0 ∧ Kept selector s ⟨cursor, limit⟩
  | .giveBack cursor limit => s.tlab = .new ∧ Kept selector s ⟨cursor, limit⟩
  | _ => True

structure Inv (selector : AllocatorSelector) (s : State) : Prop where
  panicked : s.panicked = false
  clash : s.clash = false
  bump : Kept selector s s.bump
  tlab : s.pc.half = false → Mine selector s s.tlab
  pc : s.pc.Ok selector s

variable {conv : UsizeConversions} {selector : AllocatorSelector} {s s' : State} {t : TLAB}

theorem mine_new : Mine selector s .new := ⟨.inl rfl, fun x hx => absurd hx (TLAB.not_has_new x)⟩

theorem Mine.mono (h : Mine selector s t) (hf : ∀ x, s'.foreign x = true → s.foreign x = true) :
    Mine selector s' t :=
  ⟨h.valid, fun x hx => Bool.eq_false_iff.mpr fun hn => by simpa [h.own x hx] using hf x hn⟩

theorem Mine.kept (h : Mine selector s t) : Kept selector s t :=
  ⟨h.valid, fun x hx => (Bool.or_eq_false_iff.mp (h.own x hx)).2⟩

/-- The handler with a buffer that it may flush. -/
theorem handler_spec (h : s.tlab.Valid selector) (left : Option TLAB) :
    s.handler selector left =
      let flushed := { s with
        tlab := .new
        bump := if s.tlab.cursor = 0 then s.bump else s.tlab
        given := fun x => s.given x || decide (s.tlab.Has x) }
      left.elim flushed flushed.handOut := by
  simp only [State.handler, TLAB.take, h.giveBack]
  cases left <;> rfl

theorem foreign_handOut (s : State) (bump : TLAB) (x : ℕ) :
    (s.handOut bump).foreign x = (s.foreign x && !decide (bump.Has x)) := by
  simp [State.handOut, State.foreign]

/-- What the handler leaves as it was, and the bump pointer that it leaves. -/
structure Handled (selector : AllocatorSelector) (s s' : State) : Prop where
  pc : s'.pc = s.pc
  panicked : s'.panicked = s.panicked
  clash : s'.clash = s.clash
  tlab : s'.tlab = .new
  bump : Kept selector s' s'.bump

theorem handled (hb : Kept selector s s.bump) (ht : Mine selector s s.tlab) {left : Option TLAB}
    (hl : ∀ bump ∈ left, bump.Valid selector) : Handled selector s (s.handler selector left) := by
  have hreclaimed := ht.kept.own
  rw [handler_spec ht.valid]
  cases left with
  | none =>
    refine ⟨rfl, rfl, rfl, rfl, ?_⟩
    dsimp only [Option.elim]
    split
    · exact ⟨hb.valid, hb.own⟩
    · exact ⟨ht.valid, hreclaimed⟩
  | some bump =>
    refine ⟨rfl, rfl, rfl, rfl, hl bump rfl, fun x hx => ?_⟩
    dsimp only [Option.elim, State.handOut] at hx ⊢
    simp [hx]

/-- The result of the rounding, and the limit that it is compared with. -/
theorem allocLimit_ok (h : s.tlab.Valid selector) {size alignment offset : ℕ}
    (hw : ¬ s.tlab.Wraps conv size alignment offset) :
    Pc.Ok selector s
      (.allocLimit (s.tlab.alignedCursor alignment offset) (conv.rawAlignUp size alignment)) := by
  have hlt : s.tlab.alignedCursor alignment offset < 2 ^ 64 := TLAB.alignedCursor_lt
  have hcursor := h.cursor_lt
  unfold TLAB.Wraps TLAB.blockEnd at hw
  simp only [Pc.Ok]
  omega

namespace Inv

theorem handOut (h : Inv selector s) (hidle : s.pc = .idle) (ht : t.Valid selector) :
    Inv selector (s.handOut t) := by
  have hf : ∀ x, (s.handOut t).foreign x = true → s.foreign x = true := by
    intro x hx
    rw [foreign_handOut, Bool.and_eq_true] at hx
    exact hx.1
  refine ⟨h.panicked, h.clash, ⟨ht, fun x hx => ?_⟩, fun hh => (h.tlab hh).mono hf, ?_⟩
  · have hx : t.Has x := hx
    simp [State.handOut, hx]
  · dsimp only [State.handOut]
    rw [hidle]
    trivial

/-- Where a signal spares what has been read, the handler finds a buffer that it may flush. -/
theorem mine_tlab (h : Inv selector s) {left : Option TLAB} (hc : Spared selector s left) :
    Mine selector s s.tlab := by
  unfold Spared at hc
  cases hpc : s.pc
  case rebindLimit =>
    rw [hpc] at hc
    rw [hc]
    exact mine_new
  case clearLimit =>
    rw [hpc] at hc
    rw [hc.1]
    exact mine_new
  all_goals exact h.tlab (by rw [hpc]; rfl)

theorem handler (h : Inv selector s) {left : Option TLAB} (hc : Spared selector s left)
    (hl : ∀ bump ∈ left, bump.Valid selector) : Inv selector (s.handler selector left) := by
  have hs := handled h.bump (h.mine_tlab hc) hl
  have hok := h.pc
  unfold Spared at hc
  dsimp only at hc
  generalize s.handler selector left = s' at hs hc ⊢
  refine ⟨hs.panicked.trans h.panicked, hs.clash.trans h.clash, hs.bump, fun _ => ?_, ?_⟩
  · rw [hs.tlab]
    exact mine_new
  · rw [hs.pc]
    cases hpc : s.pc <;> rw [hpc] at hc hok
    case idle | allocCursor | refill | takeCursor => trivial
    case allocLimit result size =>
      simp only [Pc.Ok, hs.tlab, TLAB.new] at hok ⊢
      omega
    case allocWrite result size =>
      simp only [Pc.Ok, hs.tlab, hc, TLAB.new] at hok ⊢
      exact hok
    case refillLimit cursor => exact hc
    case rebindCursor cursor limit => exact ⟨hok.valid, hc⟩
    case rebindLimit limit =>
      simp only [Pc.Ok, hs.tlab, hc] at hok ⊢
      have hz : (⟨TLAB.new.cursor, limit⟩ : TLAB) = .new := hok.valid.eq_new rfl
      rw [hz]
      exact mine_new
    case takeLimit cursor =>
      simp only [Pc.Ok, hs.tlab, hc] at hok ⊢
      exact hok
    case clearCursor cursor limit => exact ⟨hok.valid, hc⟩
    case clearLimit cursor limit =>
      refine ⟨?_, hok.2.valid, hc.2⟩
      rw [hs.tlab]
      rfl
    case giveBack cursor limit => exact ⟨hs.tlab, hok.2.valid, hc⟩

/-- The mutator moves on, and leaves the buffer as it is. -/
theorem goto (h : Inv selector s) {pc : Pc} (hs : s.pc.half = false)
    (hpc : pc.Ok selector { s with pc := pc }) : Inv selector { s with pc := pc } :=
  ⟨h.panicked, h.clash, ⟨h.bump.valid, h.bump.own⟩,
    fun _ => (h.tlab hs).mono fun _ hx => hx, hpc⟩

/-- The words of the bump pointer that a refill has read. -/
theorem refilled (h : Inv selector s) {cursor : ℕ} (hpc : s.pc = .refillLimit cursor) :
    Inv selector { s with
      pc := .rebindCursor cursor s.bump.limit
      given := fun x => s.given x && !decide (s.bump.Has x ∧ cursor ≤ x) } := by
  have hok := h.pc
  rw [hpc] at hok
  obtain ⟨hvalid, hback⟩ := hok
  have hf : ∀ x, (s.given x && !decide (s.bump.Has x ∧ cursor ≤ x) || s.reclaimed x) = true →
      s.foreign x = true := by
    intro x hx
    simp only [State.foreign]
    revert hx
    cases s.given x <;> simp
  refine ⟨h.panicked, h.clash, ⟨h.bump.valid, h.bump.own⟩,
    fun _ => (h.tlab (by rw [hpc]; rfl)).mono hf, hvalid, fun x hx => ?_⟩
  -- a byte that has been given back is taken over with the bump pointer
  rw [Bool.eq_false_iff]
  intro hforeign
  have hhas := hback x hx (hf x hforeign)
  revert hforeign
  simp [State.foreign, hhas, h.bump.own x hhas, hx.1]

/-- The block that the mutator has found room for. -/
theorem allocated (h : Inv selector s) {result size : ℕ} (hpc : s.pc = .allocWrite result size) :
    Inv selector { s with
      tlab := { s.tlab with cursor := (result + size) % 2 ^ 64 }
      pc := .idle
      clash := s.clash || (List.range size).any fun i => s.foreign (result + i) } := by
  have hok := h.pc
  rw [hpc] at hok
  obtain ⟨hle, hlimit⟩ := hok
  have hm := h.tlab (by rw [hpc]; rfl)
  have hend : (result + size) % 2 ^ 64 = result + size :=
    Nat.mod_eq_of_lt (hlimit.trans_lt hm.valid.limit_lt)
  have hblock : ∀ i < size, s.foreign (result + i) = false := fun i hi =>
    hm.own _ ⟨by omega, by omega⟩
  rw [hend]
  refine ⟨h.panicked, ?_, ⟨h.bump.valid, h.bump.own⟩, fun _ => ⟨?_, fun x hx => hm.own x ?_⟩,
    trivial⟩
  · rw [h.clash, Bool.false_or, List.any_eq_false]
    intro i hi
    simpa using hblock i (List.mem_range.mp hi)
  · rcases hm.valid with hv | ⟨hb, hc, -, hlt⟩
    · refine .inl ?_
      rw [hv] at hle hlimit ⊢
      simp only [TLAB.new] at hle hlimit ⊢
      congr 1
      omega
    · exact .inr ⟨hb, by dsimp only; omega, hlimit, hlt⟩
  · exact ⟨by have := hx.1; dsimp only at this; omega, hx.2⟩

theorem mutatorStep (h : Inv selector s) (hc : Safe conv selector s .step)
    (hs : TlabSignals.mutatorStep conv selector s = some s') : Inv selector s' := by
  have hok := h.pc
  unfold TlabSignals.mutatorStep at hs
  unfold Safe at hc
  cases hpc : s.pc
  all_goals simp only [hpc, Pc.Ok] at hs hok hc
  case idle => cases hs
  case allocCursor size alignment offset =>
    cases hs
    have hvalid := (h.tlab (by rw [hpc]; rfl)).valid
    exact h.goto (by rw [hpc]; rfl) (allocLimit_ok hvalid hc)
  case allocLimit result size =>
    cases hs
    split
    · exact h.goto (by rw [hpc]; rfl) trivial
    · next hn =>
      apply h.goto (by rw [hpc]; rfl)
      simp only [Pc.Ok]
      omega
  case allocWrite result size =>
    cases hs
    exact h.allocated hpc
  case refill =>
    cases hs
    split
    · exact h.goto (by rw [hpc]; rfl) ⟨h.bump.valid, fun x hx _ => hx⟩
    · exact h.goto (by rw [hpc]; rfl) trivial
  case refillLimit cursor =>
    cases hs
    exact h.refilled hpc
  case rebindCursor cursor limit =>
    cases hs
    exact ⟨h.panicked, h.clash, ⟨h.bump.valid, h.bump.own⟩, nofun, hok.mono fun _ hx => hx⟩
  case rebindLimit limit =>
    cases hs
    exact ⟨h.panicked, h.clash, ⟨h.bump.valid, h.bump.own⟩, fun _ => hok.mono fun _ hx => hx,
      trivial⟩
  case takeCursor =>
    cases hs
    exact h.goto (by rw [hpc]; rfl) rfl
  case takeLimit cursor =>
    cases hs
    have hm := (h.tlab (by rw [hpc]; rfl)).kept
    apply h.goto (by rw [hpc]; rfl)
    rw [hok]
    exact ⟨hm.valid, hm.own⟩
  case clearCursor cursor limit =>
    cases hs
    exact ⟨h.panicked, h.clash, ⟨h.bump.valid, h.bump.own⟩, nofun, rfl, hok.valid, hok.own⟩
  case clearLimit cursor limit =>
    cases hs
    have hnew : (⟨s.tlab.cursor, 0⟩ : TLAB) = .new := by rw [hok.1]; rfl
    rw [hnew]
    exact ⟨h.panicked, h.clash, ⟨h.bump.valid, h.bump.own⟩, fun _ => mine_new, rfl, hok.2.valid,
      hok.2.own⟩
  case giveBack cursor limit =>
    cases hs
    obtain ⟨hnew, hm⟩ := hok
    rw [hm.valid.giveBack]
    refine ⟨h.panicked, h.clash, ?_, fun _ => (h.tlab (by rw [hpc]; rfl)).mono fun _ hx => hx,
      trivial⟩
    dsimp only
    split
    · exact ⟨h.bump.valid, h.bump.own⟩
    · exact ⟨hm.valid, hm.own⟩

theorem step (h : Inv selector s) {l : Label} (hc : Safe conv selector s l)
    (hs : TlabSignals.step conv selector s l = some s') : Inv selector s' := by
  have hpanicked := h.panicked
  cases l with
  | signal left =>
    simp only [TlabSignals.step] at hs
    split at hs
    · next hl =>
      cases hs
      exact h.handler hc hl.2
    · cases hs
  | mmtk bump =>
    simp only [TlabSignals.step] at hs
    split at hs
    · next hl =>
      cases hs
      exact h.handOut hl.2.1 hl.2.2
    · cases hs
  | step =>
    simp only [TlabSignals.step, hpanicked, if_true] at hs
    exact h.mutatorStep hc hs
  | allocate _ _ _ | refill | flush =>
    simp only [TlabSignals.step] at hs
    split at hs
    · next hl =>
      cases hs
      exact h.goto (by rw [hl.2]; rfl) trivial
    · cases hs

theorem new : Inv selector State.new :=
  ⟨rfl, rfl, ⟨.inl rfl, fun _ _ => rfl⟩, fun _ => mine_new, trivial⟩

end Inv

end VmkitCore.TlabSignals
