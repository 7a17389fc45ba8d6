import Mathlib.Data.List.Pairwise
import VmkitCore.Lib.Simulation
import VmkitCore.Mm.ObjectInit

/-! # Headers and valid-object bits

Every object keeps the header it was allocated with, and the valid-object bits are those of the
objects. The bytes that a thread loads and stores are about memory that it owns, so that no other
thread changes them in between.
-/

namespace VmkitCore

namespace ObjectInit

open Allocation (Region Request Outcome Left)

variable {τ : Type} [DecidableEq τ] {cfg : Config} {s s' : State τ} {t : τ}

def Phase.object : Phase τ → Option (Object τ)
  | .load o | .store o _ | .postAlloc o => some o
  | _ => none

/-- What has to hold while a thread initialises a block. -/
def Phase.Ok (cfg : Config) (s : State τ) (t : τ) : Phase τ → Prop
  | .done => True
  | .header o => o.owner = t ∧ o.block ∈ (s.mutators t).blocks ∧ Sized o.block ∧
      ∀ o' ∈ s.objects, o.block.Disjoint o'.block
  | .load o => o ∈ s.objects ∧ o.owner = t ∧ cfg.cooperative = true
  | .store o byte => o ∈ s.objects ∧ o.owner = t ∧ cfg.cooperative = true ∧
      s.memory (voAddr cfg.base o.reference) = byte
  | .postAlloc o => o ∈ s.objects ∧ o.owner = t

/-- The bit of the object has been set. -/
def State.Marked (cfg : Config) (s : State τ) (o : Object τ) : Prop :=
  cfg.cooperative = true ∧ (s.mutators o.owner).phase.object ≠ some o

structure Inv (cfg : Config) (s : State τ) : Prop where
  spaces : Spaces cfg s.mutators
  block : ∀ o ∈ s.objects, o.block ∈ (s.mutators o.owner).blocks
  sized : ∀ o ∈ s.objects, Sized o.block
  header : ∀ o ∈ s.objects, s.memory.load o.block.start headerBytes = o.metadata.toNat
  disjoint : s.objects.Pairwise fun o o' => o.block.Disjoint o'.block
  phase : ∀ t, (s.mutators t).phase.Ok cfg s t
  bits : ∀ t a, (s.mutators t).Owns a → 8 ∣ a →
    (SideMetadata.sideBit cfg.base s.memory a = true ↔
      ∃ o ∈ s.objects, o.reference.address = a ∧ s.Marked cfg o)

namespace Inv

variable {o o' : Object τ} {memory : ByteMemory} {x : ℕ}

omit [DecidableEq τ] in
theorem has_reference (h : Sized o.block) : o.block.Has o.reference.address :=
  ⟨Nat.le_add_right _ _, h.2⟩

omit [DecidableEq τ] in
theorem dvd_reference (h : Sized o.block) : 8 ∣ o.reference.address :=
  (Nat.dvd_add_left (Nat.dvd_refl 8)).mpr h.1

omit [DecidableEq τ] in
theorem owns_block (h : Inv cfg s) (ho : o ∈ s.objects) (hx : o.block.Has x) :
    (s.mutators o.owner).Owns x := h.spaces.owns_of_mem_blocks (h.block o ho) hx

omit [DecidableEq τ] in
theorem owns_reference (h : Inv cfg s) (ho : o ∈ s.objects) :
    (s.mutators o.owner).Owns o.reference.address := h.owns_block ho (has_reference (h.sized o ho))

omit [DecidableEq τ] in
theorem voAddr_eq (h : Inv cfg s) (ho : o ∈ s.objects) :
    voAddr cfg.base o.reference = cfg.base + o.reference.address >>> 6 :=
  Nat.mod_eq_of_lt (h.spaces.bounded _ _ (h.owns_reference ho))

omit [DecidableEq τ] in
/-- An object is alone in its block. -/
theorem eq_of_has (h : Inv cfg s) (ho : o ∈ s.objects) (ho' : o' ∈ s.objects)
    (hx : o.block.Has x) (hx' : o'.block.Has x) : o = o' := by
  by_contra hne
  have hsymm : Std.Symm fun o o' : Object τ => o.block.Disjoint o'.block :=
    ⟨fun _ _ hd y hy hy' => hd y hy' hy⟩
  exact h.disjoint.forall ho ho' hne x hx hx'

omit [DecidableEq τ] in
/-- Where memory changes only in what threads own, the table stays as it is. -/
theorem table_eq (h : Inv cfg s) (hm : ∀ y, memory y ≠ s.memory y → ∃ t, (s.mutators t).Owns y)
    {a : ℕ} (ha : (s.mutators t).Owns a) :
    memory (cfg.base + a >>> 6) = s.memory (cfg.base + a >>> 6) := by
  by_contra hne
  obtain ⟨t', ht'⟩ := hm _ hne
  exact h.spaces.table t t' a _ ha ht' rfl

omit [DecidableEq τ] in
theorem sideBit_eq (h : Inv cfg s) (hm : ∀ y, memory y ≠ s.memory y → ∃ t, (s.mutators t).Owns y)
    {a : ℕ} (ha : (s.mutators t).Owns a) :
    SideMetadata.sideBit cfg.base memory a = SideMetadata.sideBit cfg.base s.memory a := by
  unfold SideMetadata.sideBit ByteMemory.bit SideMetadata.position
  rw [h.table_eq hm ha]

omit [DecidableEq τ] in
/-- Where memory changes outside the header of an object, its header stays as it is. -/
theorem header_eq (h : Inv cfg s) (ho : o ∈ s.objects)
    (hm : ∀ y, memory y ≠ s.memory y → ¬ (o.block.start ≤ y ∧ y < o.block.start + headerBytes)) :
    memory.load o.block.start headerBytes = o.metadata.toNat := by
  rw [← h.header o ho]
  apply ByteMemory.load_congr
  intro i hi
  by_contra hne
  exact hm _ hne ⟨Nat.le_add_right _ _, Nat.add_lt_add_left hi _⟩

omit [DecidableEq τ] in
theorem has_header (h : Sized o.block) {y : ℕ}
    (hy : o.block.start ≤ y ∧ y < o.block.start + headerBytes) : o.block.Has y :=
  ⟨hy.1, hy.2.trans h.2⟩

/-! #### Steps -/

theorem ok_set {m : Mutator τ} {t' : τ} (ht : t' ≠ t) {p : Phase τ} :
    p.Ok cfg (s.set t m) t' ↔ p.Ok cfg s t' := by
  cases p <;> simp only [Phase.Ok, State.set_of_ne _ ht] <;> rfl

/-- A thread goes on without touching memory. -/
theorem advance (h : Inv cfg s) {m : Mutator τ} {chunk : Option Region}
    (hspaces : Spaces cfg (s.set t m).mutators) (hgiven : ∀ c ∈ chunk, Given cfg s t c)
    (howns : ∀ x, m.Owns x → (s.mutators t).Owns x ∨ ∃ c ∈ chunk, c.Has x)
    (hblocks : ∀ b ∈ (s.mutators t).blocks, b ∈ m.blocks)
    (hobject : m.phase.object = (s.mutators t).phase.object)
    (hphase : m.phase.Ok cfg (s.set t m) t) : Inv cfg (s.set t m) := by
  have hmarked : ∀ o, (s.set t m).Marked cfg o ↔ s.Marked cfg o := by
    intro o
    unfold State.Marked
    by_cases ht : o.owner = t
    · rw [ht, State.set_self, hobject]
    · rw [State.set_of_ne _ ht]
  constructor
  case spaces => exact hspaces
  case block =>
    intro o ho
    have hblock := h.block o ho
    by_cases ht : o.owner = t
    · rw [ht] at hblock
      rw [ht, State.set_self]
      exact hblocks _ hblock
    · rw [State.set_of_ne _ ht]
      exact hblock
  case sized => exact h.sized
  case header => exact h.header
  case disjoint => exact h.disjoint
  case phase =>
    intro t'
    by_cases ht : t' = t
    · rw [ht, State.set_self]
      exact hphase
    · rw [State.set_of_ne _ ht, ok_set ht]
      exact h.phase t'
  case bits =>
    intro t' a ha hd
    simp only [hmarked]
    rcases owns_update howns ha with ha | ⟨rfl, c, hc, ha⟩
    · exact h.bits t' a ha hd
    · -- nobody has had the memory that is given now
      have hclear := (hgiven c hc).clear a ha hd
      refine iff_of_false (fun hbit => Bool.false_ne_true (hclear.symm.trans hbit)) ?_
      · rintro ⟨o, ho, rfl, -⟩
        have hown := h.owns_reference ho
        by_cases ht : o.owner = t'
        · rw [ht] at hown
          exact (hgiven c hc).fresh _ ha hown
        · exact (hgiven c hc).lines _ _ _ ht ha hown rfl

/-- A thread that keeps its memory keeps the spaces. -/
theorem spaces_phase (h : Inv cfg s) (t : τ) (phase : Phase τ) :
    Spaces cfg (s.set t { s.mutators t with phase }).mutators :=
  h.spaces.update (fun c hc => absurd hc (Option.not_mem_none c)) (fun _ => .inl)
    (h.spaces.alloc t) (h.spaces.sound t) (h.spaces.others t)

theorem load (h : Inv cfg s) (hload : (s.mutators t).phase = .load o) :
    Inv cfg (s.set t { s.mutators t with
      phase := .store o (s.memory (voAddr cfg.base o.reference)) }) := by
  obtain ⟨ho, howner, hcoop⟩ : Phase.Ok cfg s t (.load o) := hload ▸ h.phase t
  exact h.advance (h.spaces_phase t _) (fun c hc => absurd hc (Option.not_mem_none c))
    (fun _ => .inl) (fun _ => id)
    (by rw [hload]; rfl) ⟨ho, howner, hcoop, rfl⟩

omit [DecidableEq τ] in
/-- What a thread relies on while it initialises a block. -/
theorem ok_mono {p : Phase τ} (h : p.Ok cfg s t)
    (hblocks : (s'.mutators t).blocks = (s.mutators t).blocks)
    (hobjects : ∀ o ∈ s.objects, o ∈ s'.objects)
    (hdisjoint : ∀ o, p = .header o → ∀ o' ∈ s'.objects, o.block.Disjoint o'.block)
    (hmemory : ∀ o byte, p = .store o byte →
      s'.memory (voAddr cfg.base o.reference) = s.memory (voAddr cfg.base o.reference)) :
    p.Ok cfg s' t := by
  cases p with
  | done => trivial
  | header o =>
    obtain ⟨howner, hblock, hsized, -⟩ := h
    exact ⟨howner, hblocks ▸ hblock, hsized, hdisjoint o rfl⟩
  | load o =>
    obtain ⟨ho, howner, hcoop⟩ := h
    exact ⟨hobjects o ho, howner, hcoop⟩
  | postAlloc o =>
    obtain ⟨ho, howner⟩ := h
    exact ⟨hobjects o ho, howner⟩
  | store o byte =>
    obtain ⟨ho, howner, hcoop, hbyte⟩ := h
    exact ⟨hobjects o ho, howner, hcoop, (hmemory o byte rfl).trans hbyte⟩

theorem blocks_set_phase {t' : τ} (phase : Phase τ) :
    ((s.set t { s.mutators t with phase }).mutators t').blocks = (s.mutators t').blocks := by
  by_cases ht : t' = t
  · rw [ht, State.set_self]
    rfl
  · rw [State.set_of_ne _ ht]

theorem owns_set_phase {t' : τ} (phase : Phase τ) {x : ℕ} :
    ((s.set t { s.mutators t with phase }).mutators t').Owns x ↔ (s.mutators t').Owns x := by
  by_cases ht : t' = t
  · rw [ht, State.set_self]
    rfl
  · rw [State.set_of_ne _ ht]

omit [DecidableEq τ] in
/-- Setting the bit of an object changes no memory that a thread owns. -/
theorem setVoBit_apply (h : Inv cfg s) (ho : o ∈ s.objects) {y : ℕ}
    (hy : (s.mutators t).Owns y) :
    SideMetadata.setVoBit cfg.base s.memory cfg.cooperative o.reference y = s.memory y := by
  cases cfg.cooperative with
  | false => rfl
  | true =>
    have hown := h.owns_reference ho
    rw [SideMetadata.setVoBit_eq (h.spaces.bounded _ _ hown)]
    exact Function.update_of_ne (h.spaces.table _ t _ y hown hy).symm _ _

/-- The thread has set the bit of its object. -/
theorem mark (h : Inv cfg s) (ho : o ∈ s.objects) (howner : o.owner = t)
    (hobject : (s.mutators t).phase.object = some o) :
    Inv cfg { s.set t { s.mutators t with phase := .done } with
      memory := SideMetadata.setVoBit cfg.base s.memory cfg.cooperative o.reference } := by
  have hown := h.owns_reference ho
  have hmarked : ∀ o', (s.set t { s.mutators t with phase := .done }).Marked cfg o' ↔
      cfg.cooperative = true ∧ o' = o ∨ s.Marked cfg o' := by
    intro o'
    unfold State.Marked
    by_cases ht : o'.owner = t
    · rw [ht, State.set_self, hobject]
      simp only [Phase.object, ne_eq, reduceCtorEq, not_false_eq_true, and_true, Option.some.injEq]
      tauto
    · have hne : o' ≠ o := fun heq => ht (heq ▸ howner)
      rw [State.set_of_ne _ ht]
      simp [hne]
  constructor
  case spaces => exact h.spaces_phase t _
  case block =>
    intro o' ho'
    have hblock := h.block o' ho'
    rwa [← blocks_set_phase .done] at hblock
  case sized => exact h.sized
  case header =>
    intro o' ho'
    refine h.header_eq ho' fun y hne hy => hne ?_
    exact h.setVoBit_apply ho (h.owns_block ho' (has_header (h.sized o' ho') hy))
  case disjoint => exact h.disjoint
  case phase =>
    intro t'
    by_cases ht : t' = t
    · rw [ht]
      dsimp only
      rw [State.set_self]
      trivial
    · dsimp only
      rw [State.set_of_ne _ ht]
      refine ok_mono (h.phase t') (blocks_set_phase _) (fun _ => id) (fun o' hp => ?_)
        fun o' byte hp => ?_
      · have hok := h.phase t'
        rw [hp] at hok
        exact hok.2.2.2
      · have hok := h.phase t'
        rw [hp] at hok
        obtain ⟨ho', howner', -⟩ := hok
        have hown' := h.owns_reference ho'
        have hline := h.spaces.lines o'.owner o.owner _ _ (by rw [howner', howner]; exact ht) hown'
          hown
        dsimp only
        cases hcoop : cfg.cooperative with
        | false => rfl
        | true =>
          rw [SideMetadata.setVoBit_eq (h.spaces.bounded _ _ hown), h.voAddr_eq ho']
          refine Function.update_of_ne (fun heq => hline ?_) _ _
          exact Nat.add_left_cancel heq
  case bits =>
    intro t' a ha hd
    rw [owns_set_phase] at ha
    have hold := h.bits t' a ha hd
    have hnew : (∃ o' ∈ s.objects, o'.reference.address = a ∧
        (s.set t { s.mutators t with phase := .done }).Marked cfg o') ↔
        SideMetadata.sideBit cfg.base s.memory a = true ∨
          cfg.cooperative = true ∧ a = o.reference.address := by
      simp only [hmarked]
      rw [hold]
      constructor
      · rintro ⟨o', ho', rfl, ⟨hcoop, rfl⟩ | hmark⟩
        · exact .inr ⟨hcoop, rfl⟩
        · exact .inl ⟨o', ho', rfl, hmark⟩
      · rintro (⟨o', ho', ha, hmark⟩ | ⟨hcoop, rfl⟩)
        · exact ⟨o', ho', ha, .inr hmark⟩
        · exact ⟨o, ho, rfl, .inl ⟨hcoop, rfl⟩⟩
    refine Iff.trans ?_ hnew.symm
    dsimp only
    cases hcoop : cfg.cooperative with
    | false => simp [SideMetadata.setVoBit]
    | true =>
      rw [SideMetadata.setVoBit_eq (h.spaces.bounded _ _ hown), SideMetadata.sideBit,
        ByteMemory.bit_setBit SideMetadata.position_lt, and_iff_right rfl]
      exact or_congr_right (SideMetadata.position_inj hd (dvd_reference (h.sized o ho)))

/-- The block becomes an object, whose bit is not set yet. -/
theorem storeHeader (h : Inv cfg s) (hphase : (s.mutators t).phase = .header o) {p : Phase τ}
    (hp : p = if o.los then .postAlloc o else if cfg.cooperative then .load o else .done) :
    Inv cfg { s.set t { s.mutators t with phase := p } with
      memory := s.memory.store o.block.start headerBytes o.metadata.toNat
      objects := o :: s.objects } := by
  obtain ⟨howner, hblock, hsized, hdisjoint⟩ : Phase.Ok cfg s t (.header o) := hphase ▸ h.phase t
  have hown : ∀ {y}, o.block.Has y → (s.mutators t).Owns y := h.spaces.owns_of_mem_blocks hblock
  have hm : ∀ y, s.memory.store o.block.start headerBytes o.metadata.toNat y ≠ s.memory y →
      o.block.Has y := by
    intro y hne
    by_contra hy
    refine hne (ByteMemory.store_apply_outside ?_)
    by_contra hout
    refine hy (has_header hsized ?_)
    unfold ByteMemory.Disjoint at hout
    omega
  have hne : ∀ o' ∈ s.objects, o' ≠ o := by
    rintro o' ho' rfl
    have href := has_reference (h.sized o' ho')
    exact hdisjoint o' ho' _ href href
  have hmarked : ∀ o' ∈ s.objects, (s.set t { s.mutators t with phase := p }).Marked cfg o' ↔
      s.Marked cfg o' := by
    intro o' ho'
    unfold State.Marked
    by_cases ht : o'.owner = t
    · have hold : (s.mutators t).phase.object ≠ some o' := by
        rw [hphase]
        rintro ⟨⟩
      have hnew : p.object ≠ some o' := by
        intro hobject
        have hsome : some o = some o' := by
          rw [← hobject, hp]
          split_ifs at hobject ⊢ with hlos hcoop
          · rfl
          · rfl
          · rw [hp, if_neg hlos, if_neg hcoop] at hobject
            cases hobject
        exact hne o' ho' (Option.some.inj hsome).symm
      rw [ht, State.set_self]
      exact and_congr_right fun _ => iff_of_true hnew hold
    · rw [State.set_of_ne _ ht]
  have hunmarked : ¬ (s.set t { s.mutators t with phase := p }).Marked cfg o := by
    rintro ⟨hcoop, hobject⟩
    rw [howner, State.set_self] at hobject
    apply hobject
    dsimp only
    rw [hp, hcoop]
    split <;> rfl
  constructor
  case spaces => exact h.spaces_phase t _
  case block =>
    intro o' ho'
    dsimp only
    rw [blocks_set_phase]
    rcases List.mem_cons.mp ho' with rfl | ho'
    · rw [howner]
      exact hblock
    · exact h.block o' ho'
  case sized => exact List.forall_mem_cons.mpr ⟨hsized, h.sized⟩
  case header =>
    refine List.forall_mem_cons.mpr ⟨?_, fun o' ho' => ?_⟩
    · exact ByteMemory.load_store_of_lt _ o.metadata.toNat_lt
    · apply h.header_eq ho'
      intro y hne hy
      exact hdisjoint o' ho' y (hm y hne) (has_header (h.sized o' ho') hy)
  case disjoint => exact List.pairwise_cons.mpr ⟨hdisjoint, h.disjoint⟩
  case phase =>
    intro t'
    dsimp only
    by_cases ht : t' = t
    · rw [ht, State.set_self]
      dsimp only
      rw [hp]
      split_ifs with hlos hcoop
      · exact ⟨List.mem_cons_self, howner⟩
      · exact ⟨List.mem_cons_self, howner, hcoop⟩
      · trivial
    · rw [State.set_of_ne _ ht]
      refine ok_mono (h.phase t') (blocks_set_phase _) (fun _ => List.mem_cons_of_mem o)
        (fun o' ho' => ?_) fun o' byte ho' => ?_
      · have hok := h.phase t'
        rw [ho'] at hok
        obtain ⟨-, hblock', -, hdisjoint'⟩ := hok
        refine List.forall_mem_cons.mpr ⟨fun y hy hy' => ht ?_, hdisjoint'⟩
        exact h.spaces.owner_unique (h.spaces.owns_of_mem_blocks hblock' hy) (hown hy')
      · have hok := h.phase t'
        rw [ho'] at hok
        rw [h.voAddr_eq hok.1]
        exact h.table_eq (fun y hne => ⟨t, hown (hm y hne)⟩) (h.owns_reference hok.1)
  case bits =>
    intro t' a ha hd
    rw [owns_set_phase] at ha
    dsimp only
    rw [h.sideBit_eq (fun y hne => ⟨t, hown (hm y hne)⟩) ha, h.bits t' a ha hd]
    constructor
    · rintro ⟨o', ho', ha, hmark⟩
      exact ⟨o', List.mem_cons_of_mem _ ho', ha, (hmarked o' ho').mpr hmark⟩
    · rintro ⟨o', ho', ha, hmark⟩
      rcases List.mem_cons.mp ho' with rfl | ho'
      · exact absurd hmark hunmarked
      · exact ⟨o', ho', ha, (hmarked o' ho').mp hmark⟩

omit [DecidableEq τ] in
/-- A thread writes to the payload of an object. -/
theorem write (h : Inv cfg s) (ho : o ∈ s.objects)
    (hx : o.block.start + headerBytes ≤ x ∧ x < o.block.stop) (byte : UInt8) :
    Inv cfg { s with memory := Function.update s.memory x byte } := by
  have hhas : o.block.Has x := ⟨(Nat.le_add_right _ _).trans hx.1, hx.2⟩
  have hm : ∀ y, Function.update s.memory x byte y ≠ s.memory y → y = x := by
    intro y hne
    by_contra hy
    exact hne (Function.update_of_ne hy _ _)
  have howned : ∀ y, Function.update s.memory x byte y ≠ s.memory y →
      ∃ t, (s.mutators t).Owns y := by
    intro y hne
    rw [hm y hne]
    exact ⟨_, h.owns_block ho hhas⟩
  refine ⟨h.spaces, h.block, h.sized, fun o' ho' => ?_, h.disjoint, fun t => ?_,
    fun t a ha hd => ?_⟩
  · apply h.header_eq ho'
    intro y hne hy
    have hyx := hm y hne
    rw [hyx] at hy
    have heq := h.eq_of_has ho ho' hhas (has_header (h.sized o' ho') hy)
    rw [heq] at hx
    exact absurd hy.2 (Nat.not_lt.mpr hx.1)
  · refine ok_mono (h.phase t) rfl (fun _ => id) (fun o' hp => ?_) fun o' b hp => ?_
    · have hok := h.phase t
      rw [hp] at hok
      exact hok.2.2.2
    · have hok := h.phase t
      rw [hp] at hok
      rw [h.voAddr_eq hok.1]
      exact h.table_eq howned (h.owns_reference hok.1)
  · dsimp only
    rw [h.sideBit_eq howned ha]
    exact h.bits t a ha hd

end Inv

/-- What a collection that moves no object leaves behind. -/
structure Collected (cfg : Config) (s : State τ) (memory : ByteMemory) (live : Object τ → Bool) :
    Prop where
  done : ∀ t, (s.mutators t).phase = .done
  kept : ∀ o ∈ s.objects, live o = true → ∀ x, o.block.Has x → memory x = s.memory x
  bits : ∀ t a, (s.mutators t).Owns a → 8 ∣ a →
    (SideMetadata.sideBit cfg.base memory a = true ↔
      SideMetadata.sideBit cfg.base s.memory a = true ∧
        ∃ o ∈ s.objects, o.reference.address = a ∧ live o = true)

omit [DecidableEq τ] in
theorem Inv.collect (h : Inv cfg s) {memory : ByteMemory} {live : Object τ → Bool}
    (hc : Collected cfg s memory live) :
    Inv cfg { s with memory, objects := s.objects.filter live } := by
  refine ⟨h.spaces, fun o ho => h.block o (List.mem_filter.mp ho).1,
    fun o ho => h.sized o (List.mem_filter.mp ho).1, fun o ho => ?_, h.disjoint.filter _,
    fun t => ?_, fun t a ha hd => ?_⟩
  · obtain ⟨ho, hlive⟩ := List.mem_filter.mp ho
    exact h.header_eq ho fun y hne hy =>
      hne (hc.kept o ho hlive y (has_header (h.sized o ho) hy))
  · dsimp only
    rw [hc.done t]
    trivial
  · apply (hc.bits t a ha hd).trans
    rw [h.bits t a ha hd]
    constructor
    · rintro ⟨⟨o, ho, rfl, hmark⟩, o', ho', haddr, hlive⟩
      have href := has_reference (h.sized o' ho')
      rw [haddr] at href
      obtain rfl := h.eq_of_has ho' ho href (has_reference (h.sized o ho))
      exact ⟨o', List.mem_filter.mpr ⟨ho', hlive⟩, rfl, hmark⟩
    · rintro ⟨o, ho, ha, hmark⟩
      obtain ⟨ho, hlive⟩ := List.mem_filter.mp ho
      exact ⟨⟨o, ho, ha, hmark⟩, o, ho, ha, hlive⟩

/-! ### Steps of allocation -/

section Steps

variable {alloc' : Allocation.State} {l : Allocation.Label} {b : Region}

omit [DecidableEq τ] in
/-- What MMTk gives is apart from the blocks of all objects. -/
theorem Given.disjoint (hgiven : Given cfg s t b) (h : Inv cfg s) {o : Object τ}
    (ho : o ∈ s.objects) : b.Disjoint o.block := by
  intro y hy hy'
  have hown := h.owns_block ho hy'
  by_cases ht : o.owner = t
  · rw [ht] at hown
    exact hgiven.fresh y hy hown
  · exact hgiven.lines _ y y ht hy hown rfl

theorem Inv.alloc (h : Inv cfg s) (hproper : Proper (s.mutators t).alloc l)
    (hunwrapped : Allocation.Unwrapped cfg.alloc (s.mutators t).alloc l)
    (hgiven : ∀ c ∈ newRegion l, Given cfg s t c) (hl : l ≠ .mmtk .elsewhere)
    (hphase : (s.mutators t).phase.isDone = true ∨
      l = .refill ∧ (s.mutators t).phase.isPostAlloc = true)
    (hstep : Allocation.step cfg.alloc (s.mutators t).alloc l = some alloc')
    (metadata metadata' : UInt64) (los : Bool) :
    Inv cfg (s.set t { s.mutators t with
      alloc := alloc'
      metadata
      phase := match got (s.mutators t).alloc alloc' with
        | some block => .header ⟨t, block, metadata', los⟩
        | none => (s.mutators t).phase }) := by
  have hserved := served hproper hl (h.spaces.sound t) hstep
  have halloc := (h.spaces.alloc t).step hunwrapped hstep
  have hothers : ∀ r ∈ alloc'.regions, ∀ b ∈ (s.mutators t).others, r.Disjoint b := by
    intro r hr b hb
    rw [hserved.regions] at hr
    rcases List.mem_append.mp hr with hr | hr
    · intro y hy hy'
      exact (hgiven r (Option.mem_toList.mp hr)).fresh y hy (.inr ⟨b, hb, hy'⟩)
    · exact h.spaces.others t r hr b hb
  have howns : ∀ (phase : Phase τ) x,
      Mutator.Owns ⟨alloc', metadata, (s.mutators t).others, phase⟩ x →
      (s.mutators t).Owns x ∨ ∃ c ∈ newRegion l, c.Has x := by
    rintro phase x (⟨r, hr, hx⟩ | hx)
    · rw [hserved.regions] at hr
      rcases List.mem_append.mp hr with hr | hr
      · exact .inr ⟨r, Option.mem_toList.mp hr, hx⟩
      · exact .inl (.inl ⟨r, hr, hx⟩)
    · exact .inl (.inr hx)
  rcases hserved.blocks with ⟨hblocks, hsound⟩ | ⟨b, hblocks, hsized, hpc⟩
  · rw [got_of_blocks_eq hblocks]
    refine h.advance (h.spaces.update hgiven (howns _) halloc hsound hothers) hgiven (howns _) ?_
      rfl ?_
    · intro b hb
      unfold Mutator.blocks at hb ⊢
      rwa [hblocks]
    · refine ok_mono (h.phase t) ?_ (fun _ => id) (fun o hp => ?_) fun _ _ _ => rfl
      · rw [State.set_self]
        unfold Mutator.blocks
        rw [hblocks]
      · have hok := h.phase t
        rw [hp] at hok
        exact hok.2.2.2
  · have hdone : (s.mutators t).phase.object = none := by
      rcases hphase with hdone | ⟨rfl, -⟩
      · cases hp : (s.mutators t).phase <;> rw [hp] at hdone <;> first | rfl | cases hdone
      · obtain ⟨-, hstep⟩ := Option.ite_none_right_eq_some.mp hstep
        cases hstep
        exact absurd hblocks.symm (List.cons_ne_self _ _)
    rw [got_of_blocks_cons hblocks]
    refine h.advance (h.spaces.update hgiven (howns _) halloc (fun r hr => absurd hr (hpc r))
      hothers) hgiven (howns _) ?_ hdone.symm ?_
    · intro b hb
      unfold Mutator.blocks at hb ⊢
      rw [hblocks]
      exact List.mem_cons_of_mem _ hb
    · have hmem : b ∈ alloc'.blocks := hblocks ▸ List.mem_cons_self
      refine ⟨rfl, ?_, hsized, fun o ho y hy hy' => ?_⟩
      · rw [State.set_self]
        exact List.mem_append_left _ hmem
      · obtain ⟨r, hr, hstart, hstop⟩ := halloc.inside b hmem
        have hyr : r.Has y := ⟨hstart.trans hy.1, hy.2.trans_le hstop⟩
        by_cases ht : o.owner = t
        · have hblock := h.block o ho
          rw [ht] at hblock
          rcases List.mem_append.mp hblock with hold | hold
          · have hdisjoint := halloc.disjoint
            rw [hblocks] at hdisjoint
            exact (List.pairwise_cons.mp hdisjoint).1 _ hold y hy hy'
          · exact hothers r hr _ hold y hyr hy'
        · rcases howns .done y (.inl ⟨r, hr, hyr⟩) with hown | ⟨c, hc, hyc⟩
          · exact ht (h.spaces.owner_unique (h.owns_block ho hy') hown)
          · exact (hgiven c hc).disjoint h ho y hyc hy'

theorem Inv.elsewhere (h : Inv cfg s) {r : Request} (hpc : (s.mutators t).alloc.pc = .mmtk r)
    (hdvd : r.alignment ∣ b.start + r.offset) (hgiven : Given cfg s t b)
    (hphase : (s.mutators t).phase.isDone = true) (hstop : b.stop = b.start + r.size)
    (hstep : Allocation.step cfg.alloc (s.mutators t).alloc (.mmtk .elsewhere) = some alloc')
    (metadata : UInt64) (los : Bool) :
    Inv cfg (s.set t { s.mutators t with
      alloc := alloc'
      phase := .header ⟨t, b, metadata, los⟩
      others := b :: (s.mutators t).others }) := by
  have hsized : Sized b := by
    obtain ⟨start, stop⟩ := b
    obtain rfl : stop = start + r.size := hstop
    exact (h.spaces.sound t r hpc).sized hdvd
  have halloc := (h.spaces.alloc t).step (l := .mmtk .elsewhere) trivial hstep
  rw [Allocation.step, hpc] at hstep
  obtain ⟨-, hstep⟩ := Option.ite_none_right_eq_some.mp hstep
  cases hstep
  have hchunk : ∀ c ∈ some b, Given cfg s t c := by
    rintro c ⟨⟩
    exact hgiven
  have howns : ∀ x, Mutator.Owns ⟨(s.mutators t).alloc.returned r .elsewhere,
      (s.mutators t).metadata, b :: (s.mutators t).others, .header ⟨t, b, metadata, los⟩⟩ x →
      (s.mutators t).Owns x ∨ ∃ c ∈ some b, c.Has x := by
    rintro x (hx | ⟨b', hb', hx⟩)
    · exact .inl (.inl hx)
    · rcases List.mem_cons.mp hb' with rfl | hb'
      · exact .inr ⟨b', rfl, hx⟩
      · exact .inl (.inr ⟨b', hb', hx⟩)
  refine h.advance (h.spaces.update hchunk howns halloc ?_ ?_) hchunk howns ?_ ?_ ?_
  · rintro r ⟨⟩
  · intro r' hr'
    refine List.forall_mem_cons.mpr ⟨fun y hy hy' => ?_, h.spaces.others t r' hr'⟩
    exact hgiven.fresh y hy' (.inl ⟨r', hr', hy⟩)
  · intro b' hb'
    rcases List.mem_append.mp hb' with hb' | hb'
    · exact List.mem_append_left _ hb'
    · exact List.mem_append_right _ (List.mem_cons_of_mem _ hb')
  · cases hp : (s.mutators t).phase <;> rw [hp] at hphase <;> first | rfl | cases hphase
  · refine ⟨rfl, ?_, hsized, fun o ho => hgiven.disjoint h ho⟩
    rw [State.set_self]
    exact List.mem_append_right _ List.mem_cons_self

end Steps

/-- What MMTk and the program promise about a step. -/
def Allows (cfg : Config) (s : State τ) : Label τ → Prop
  | .alloc t l _ => Proper (s.mutators t).alloc l ∧
      Allocation.Unwrapped cfg.alloc (s.mutators t).alloc l ∧ ∀ c ∈ newRegion l, Given cfg s t c
  | .elsewhere t block => Given cfg s t block ∧
      ∀ r, (s.mutators t).alloc.pc = .mmtk r → r.alignment ∣ block.start + r.offset
  | .write x _ => ∃ o ∈ s.objects, o.block.start + headerBytes ≤ x ∧ x < o.block.stop
  | .collect memory live => Collected cfg s memory live
  | _ => True

theorem Inv.step (h : Inv cfg s) {l : Label τ} (hl : Allows cfg s l)
    (hstep : ObjectInit.step cfg s l = some s') : Inv cfg s' := by
  cases l with
  | alloc t l metadata =>
    obtain ⟨⟨hphase, hne⟩, hstep⟩ := Option.ite_none_right_eq_some.mp hstep
    obtain ⟨alloc', halloc, hstep⟩ := Option.bind_eq_some_iff.mp hstep
    cases hstep
    exact h.alloc hl.1 hl.2.1 hl.2.2 hne hphase halloc _ _ _
  | elsewhere t block =>
    rw [ObjectInit.step] at hstep
    dsimp only at hstep
    split at hstep
    case h_2 => cases hstep
    case h_1 r hpc =>
      obtain ⟨⟨hphase, hstop⟩, hstep⟩ := Option.ite_none_right_eq_some.mp hstep
      obtain ⟨alloc', halloc, hstep⟩ := Option.bind_eq_some_iff.mp hstep
      cases hstep
      exact h.elsewhere hpc (hl.2 r hpc) hl.1 hphase hstop halloc _ _
  | header t =>
    rw [ObjectInit.step] at hstep
    split at hstep
    case h_2 => cases hstep
    case h_1 o hphase =>
      cases hstep
      exact h.storeHeader hphase rfl
  | load t =>
    rw [ObjectInit.step] at hstep
    split at hstep
    case h_2 => cases hstep
    case h_1 o hphase =>
      cases hstep
      exact h.load hphase
  | store t =>
    rw [ObjectInit.step] at hstep
    split at hstep
    case h_2 => cases hstep
    case h_1 o byte hphase =>
      cases hstep
      obtain ⟨ho, howner, hcoop, hbyte⟩ : Phase.Ok cfg s t (.store o byte) := hphase ▸ h.phase t
      have hmark := h.mark ho howner (by rw [hphase]; rfl)
      rwa [hcoop, ← storeVoByte_load, hbyte] at hmark
  | postAlloc t =>
    rw [ObjectInit.step] at hstep
    split at hstep
    case h_2 => cases hstep
    case h_1 o hphase =>
      obtain ⟨-, hstep⟩ := Option.ite_none_right_eq_some.mp hstep
      cases hstep
      obtain ⟨ho, howner⟩ : Phase.Ok cfg s t (.postAlloc o) := hphase ▸ h.phase t
      exact h.mark ho howner (by rw [hphase]; rfl)
  | write x byte =>
    cases hstep
    obtain ⟨o, ho, hx⟩ := hl
    exact h.write ho hx byte
  | collect memory live =>
    cases hstep
    exact h.collect hl

def Mutator.new : Mutator τ := ⟨.new, 0, [], .done⟩

def State.new (memory : ByteMemory) : State τ := ⟨fun _ => .new, memory, []⟩

/-- Runs of threads that allocate, write to objects and stop for collections. -/
def machine (cfg : Config) : Machine (State τ) (Label τ) where
  init s := ∃ memory, s = .new memory
  step := step cfg

omit [DecidableEq τ] in
theorem not_owns_new {x : ℕ} : ¬ (Mutator.new : Mutator τ).Owns x := by
  rintro (⟨r, hr, -⟩ | ⟨b, hb, -⟩)
  · exact absurd hr List.not_mem_nil
  · exact absurd hb List.not_mem_nil

omit [DecidableEq τ] in
theorem Inv.new {memory : ByteMemory} : Inv cfg (State.new memory : State τ) where
  spaces := {
    alloc _ := Allocation.Inv.new
    sound _ := by rintro r ⟨⟩
    others _ _ h := absurd h List.not_mem_nil
    bounded _ _ h := absurd h not_owns_new
    lines _ _ _ _ _ h := absurd h not_owns_new
    table _ _ _ _ h := absurd h not_owns_new }
  block _ h := absurd h List.not_mem_nil
  sized _ h := absurd h List.not_mem_nil
  header _ h := absurd h List.not_mem_nil
  disjoint := .nil
  phase _ := trivial
  bits _ _ h := absurd h not_owns_new

theorem inv_of_reachable (h : (machine cfg).ReachableUnder (Allows cfg) s) : Inv cfg s := by
  refine h.invariant ?_ fun _ _ _ hi hl hs => hi.step hl hs
  rintro s ⟨memory, rfl⟩
  exact Inv.new

end ObjectInit

end VmkitCore
