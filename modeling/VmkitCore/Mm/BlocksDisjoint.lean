import VmkitCore.Mm.Allocation

/-! # Disjoint blocks

While a buffer is in use the bump pointer still names the same bytes, and some that
the buffer has served already. Every path into MMTk flushes the buffer first, so the
bytes in front of the current cursor are never served again, as long as no block that the buffer
serves wraps around.
-/

namespace VmkitCore.Allocation

variable {cfg : Config} {s s' : State} {r : Region}

/-- The bytes that are served next: those of the buffer, unless it is empty. -/
def State.free (s : State) : TLAB := if s.tlab.cursor = 0 then s.bump else s.tlab

/-- No block that the buffer is asked for wraps around into the buffer. -/
def Unwrapped (cfg : Config) (s : State) : Label → Prop
  | .allocate size logAlignment semantics =>
    let (size, semantics) := withHeader cfg size semantics
    let size := cfg.conv.rawAlignUp size (2 ^ logAlignment)
    semantics = .default → ¬ s.tlab.Wraps cfg.conv size (2 ^ logAlignment) objectRefOffset
  | _ => True

instance (cfg : Config) (s : State) : ∀ l, Decidable (Unwrapped cfg s l)
  | .allocate .. => inferInstanceAs (Decidable (_ → ¬ _))
  | .allocateOutOfLine .. | .allocateSlow .. | .mmtk _ | .refill | .gc _ =>
    inferInstanceAs (Decidable True)

structure Inv (s : State) : Prop where
  bounded : ∀ r ∈ s.regions, r.stop < 2 ^ 64
  bump : s.bump = .new ∨ 0 < s.bump.cursor ∧ s.bump.cursor ≤ s.bump.limit ∧
    ∃ r ∈ s.regions, r.start ≤ s.bump.cursor ∧ s.bump.limit ≤ r.stop
  /-- The buffer is a rest of what the bump pointer names. -/
  tlab : s.tlab = .new ∨ 0 < s.bump.cursor ∧ s.bump.cursor ≤ s.tlab.cursor ∧
    s.tlab.cursor ≤ s.tlab.limit ∧ s.tlab.limit = s.bump.limit
  busy : s.pc ≠ .idle → s.tlab = .new
  inside : ∀ b ∈ s.blocks, ∃ r ∈ s.regions, b.Inside r
  served : ∀ b ∈ s.blocks, ∀ x, b.Has x → ¬ s.free.Has x
  disjoint : s.blocks.Pairwise Region.Disjoint

namespace Inv

theorem tlab_valid (h : Inv s) : s.tlab.Valid cfg.selector := by
  rcases h.tlab with ht | ⟨hb, hc, hl, heq⟩
  · exact .inl ht
  · obtain ⟨-, -, r, hr, -, hstop⟩ := h.bump.resolve_left fun hn => by
      rw [hn] at hb
      cases hb
    exact .inr ⟨cfg.isBump, by omega, hl, heq ▸ hstop.trans_lt (h.bounded r hr)⟩

/-- What the current cursor and limit are within. -/
theorem free_spec (h : Inv s) : s.free = .new ∨ 0 < s.free.cursor ∧
    s.free.cursor ≤ s.free.limit ∧ ∃ r ∈ s.regions, r.start ≤ s.free.cursor ∧
      s.free.limit ≤ r.stop := by
  unfold State.free
  split
  · exact h.bump
  · rcases h.tlab with ht | ⟨hb, hc, hl, he⟩
    · exact .inl ht
    · rcases h.bump with hn | ⟨-, -, r, hr, hrc, hrl⟩
      · rw [hn] at hb
        cases hb
      · exact .inr ⟨by omega, hl, r, hr, by omega, by omega⟩

/-- The flush moves what is free into the bump pointer. -/
theorem flush_eq (h : Inv s) :
    TLAB.flush cfg.selector s.tlab s.bump = some (.new, s.free) := by
  rw [TLAB.flush, TLAB.take, h.tlab_valid.giveBack]
  rfl

theorem flushed (h : Inv s) (pc : Pc) :
    Inv { s with tlab := .new, bump := s.free, pc := pc } :=
  ⟨h.bounded, h.free_spec, .inl rfl, fun _ => rfl, h.inside, h.served, h.disjoint⟩

theorem enter (h : Inv s) {req : Request} (hs : Allocation.enter cfg s req = some s') :
    Inv s' := by
  rw [Allocation.enter, h.flush_eq] at hs
  cases hs
  exact h.flushed _

theorem allocateOutOfLine (h : Inv s) {size alignment : ℕ} {semantics : AllocationSemantics}
    (hs : Allocation.allocateOutOfLine cfg s size alignment semantics = some s') : Inv s' := by
  unfold Allocation.allocateOutOfLine at hs
  dsimp only at hs
  split at hs <;> exact h.enter hs

/-- A block from the front of the buffer. -/
theorem serve (h : Inv s) {start stop : ℕ} (hc : s.tlab.cursor ≠ 0)
    (hstart : s.tlab.cursor ≤ start) {cursor : ℕ} (hstop : stop ≤ cursor) (hsc : start ≤ cursor)
    (hlimit : cursor ≤ s.tlab.limit) :
    Inv { s with tlab := ⟨cursor, s.tlab.limit⟩, blocks := ⟨start, stop⟩ :: s.blocks } := by
  have hfree : s.free = s.tlab := if_neg hc
  have hb : 0 < s.bump.cursor ∧ s.bump.cursor ≤ s.tlab.cursor ∧
      s.tlab.cursor ≤ s.tlab.limit ∧ s.tlab.limit = s.bump.limit := by
    refine h.tlab.resolve_left fun hn => hc ?_
    rw [hn]
    rfl
  have hfree' : State.free { s with
      tlab := ⟨cursor, s.tlab.limit⟩, blocks := ⟨start, stop⟩ :: s.blocks } =
        ⟨cursor, s.tlab.limit⟩ := if_neg (by dsimp only; omega)
  refine ⟨h.bounded, h.bump, .inr ⟨hb.1, by dsimp only; omega, hlimit, hb.2.2.2⟩, fun hp => ?_,
    ?_, ?_, ?_⟩
  · exact absurd (h.busy hp) fun hn => hc (by rw [hn]; rfl)
  · rintro b hmem
    rcases List.mem_cons.mp hmem with rfl | hmem
    · rcases h.free_spec with hn | ⟨-, -, r, hr, hrc, hrl⟩
      · rw [hfree] at hn
        rw [hn] at hc
        exact absurd rfl hc
      · rw [hfree] at hrc hrl
        exact ⟨r, hr, by dsimp only; omega, by dsimp only; omega⟩
    · exact h.inside b hmem
  · rintro b hmem x hx
    rw [hfree']
    rcases List.mem_cons.mp hmem with rfl | hmem
    · rw [Region.has_mk] at hx
      rw [TLAB.has_mk]
      omega
    · intro hx'
      obtain ⟨hx₁, hx₂⟩ := TLAB.has_mk.mp hx'
      apply h.served b hmem x hx
      rw [hfree]
      exact ⟨by omega, hx₂⟩
  · refine List.pairwise_cons.mpr ⟨fun b hmem x hx hb' => h.served b hmem x hb' ?_, h.disjoint⟩
    obtain ⟨hx₁, hx₂⟩ := Region.has_mk.mp hx
    rw [hfree]
    exact ⟨by omega, by omega⟩

theorem allocate (h : Inv s) {size k : ℕ} {semantics : AllocationSemantics} (hk : k < 64)
    (hw : Unwrapped cfg s (.allocate size k semantics))
    (hs : Allocation.allocate cfg s size (2 ^ k) semantics = some s') : Inv s' := by
  unfold Allocation.allocate at hs
  unfold Unwrapped at hw
  dsimp only at hs hw
  have hround : cfg.conv.rawAlignUp (cfg.conv.rawAlignUp (withHeader cfg size semantics).1 (2 ^ k))
      (2 ^ k) = cfg.conv.rawAlignUp (withHeader cfg size semantics).1 (2 ^ k) :=
    cfg.conv.rawAlignUp_of_dvd hk (cfg.conv.dvd_rawAlignUp _ hk) (cfg.conv.rawAlignUp_lt _ _)
  generalize cfg.conv.rawAlignUp (withHeader cfg size semantics).1 (2 ^ k) = n at hs hw hround
  split at hs
  · next hfast =>
    have hvalid : s.tlab.Valid cfg.selector := h.tlab_valid
    have hspec := hvalid.allocate_spec (hw hfast.1)
    rw [hround] at hspec
    rcases hspec with ⟨hzero, hsame⟩ | ⟨hpos, hc, hnext, hl⟩
    · rw [if_neg (not_not.mpr hzero), hsame] at hs
      exact h.enter hs
    · rw [if_pos (Nat.pos_iff_ne_zero.mp hpos)] at hs
      cases hs
      rw [hnext]
      have hne : s.tlab.cursor ≠ 0 := by
        intro hz
        rcases h.tlab with hn | ⟨hb, hbc, -, -⟩
        · have hlim : s.tlab.limit = 0 := by rw [hn]; rfl
          omega
        · omega
      exact h.serve hne hc le_rfl (Nat.le_add_right _ _) hl
  · exact h.allocateOutOfLine hs

/-- A block MMTk returns from a region, with the buffer empty and the bump pointer past it. -/
theorem addBlock (h : Inv s) (ht : s.tlab = .new) (bump : TLAB) (regions : List Region) (b : Region)
    (hregions : ∀ r ∈ s.regions, r ∈ regions) (hbounded : ∀ r ∈ regions, r.stop < 2 ^ 64)
    (hbump : bump = .new ∨ 0 < bump.cursor ∧ bump.cursor ≤ bump.limit ∧
      ∃ r ∈ regions, r.start ≤ bump.cursor ∧ bump.limit ≤ r.stop)
    (hfree : ∀ x, bump.Has x → ∀ b' ∈ s.blocks, ¬ b'.Has x) (hb : ∀ x, b.Has x → ¬ bump.Has x)
    (hinside : ∃ r ∈ regions, b.Inside r) (hserved : ∀ x, b.Has x → ∀ b' ∈ s.blocks, ¬ b'.Has x)
    (pc : Pc) :
    Inv { s with bump := bump, pc := pc, regions := regions, blocks := b :: s.blocks } := by
  have hf : State.free { s with
      bump := bump, pc := pc, regions := regions, blocks := b :: s.blocks } = bump := by
    unfold State.free
    rw [if_pos (by rw [ht]; rfl)]
  refine ⟨hbounded, hbump, .inl ht, fun _ => ht, ?_, ?_, ?_⟩
  · rintro b' hmem
    rcases List.mem_cons.mp hmem with rfl | hmem
    · exact hinside
    · obtain ⟨r, hr, hi⟩ := h.inside b' hmem
      exact ⟨r, hregions r hr, hi⟩
  · rintro b' hmem x hx
    rw [hf]
    rcases List.mem_cons.mp hmem with rfl | hmem
    · exact hb x hx
    · exact fun hx' => hfree x hx' b' hmem hx
  · exact List.pairwise_cons.mpr ⟨fun b' hmem x hx => hserved x hx b' hmem, h.disjoint⟩

/-- No block has a byte of a fresh region. -/
theorem fresh_served (h : Inv s) (hr : s.Fresh r) {x : ℕ} (hx : r.Has x) :
    ∀ b ∈ s.blocks, ¬ b.Has x := by
  intro b hb hx'
  obtain ⟨r', hr', hi⟩ := h.inside b hb
  have hapart := hr.2.2.2 r' hr'
  unfold Region.Apart at hapart
  obtain ⟨hx₁, hx₂⟩ := hx
  obtain ⟨hx₃, hx₄⟩ := hx'
  obtain ⟨hi₁, hi₂⟩ := hi
  omega

theorem bounded_cons (h : Inv s) (hr : s.Fresh r) : ∀ r' ∈ r :: s.regions, r'.stop < 2 ^ 64 :=
  List.forall_mem_cons.mpr ⟨hr.2.2.1, h.bounded⟩

theorem returned (h : Inv s) (ht : s.tlab = .new) {req : Request} {o : Outcome}
    (ho : o.Allowed s req) : Inv (s.returned req o) := by
  have hfree : s.free = s.bump := if_pos (by rw [ht]; rfl)
  have hserved : ∀ x, s.bump.Has x → ∀ b ∈ s.blocks, ¬ b.Has x := fun x hx b hb hx' =>
    h.served b hb x hx' (hfree ▸ hx)
  cases o with
  | elsewhere => exact ⟨h.bounded, h.bump, h.tlab, fun _ => ht, h.inside, h.served, h.disjoint⟩
  | cut start =>
    obtain ⟨hpos, hc, hl⟩ := ho
    have hb : 0 < s.bump.cursor ∧ s.bump.cursor ≤ s.bump.limit ∧
        ∃ r ∈ s.regions, r.start ≤ s.bump.cursor ∧ s.bump.limit ≤ r.stop := by
      apply h.bump.resolve_left
      intro hn
      have hlim : s.bump.limit = 0 := by rw [hn]; rfl
      omega
    obtain ⟨hbc, hbl, r, hr, hrc, hrl⟩ := hb
    refine h.addBlock ht ⟨start + req.size, s.bump.limit⟩ s.regions ⟨start, start + req.size⟩
      (fun _ hr => hr) h.bounded (.inr ⟨Nat.add_pos_left hpos _, hl, r, hr, ?_, hrl⟩)
      (fun x hx => ?_) (fun x hx => ?_) ⟨r, hr, hrc.trans hc, hl.trans hrl⟩ (fun x hx => ?_) .refill
    · exact hrc.trans (hc.trans (Nat.le_add_right _ _))
    · rw [TLAB.has_mk] at hx
      exact hserved x ⟨by omega, hx.2⟩
    · rw [Region.has_mk] at hx
      rw [TLAB.has_mk]
      omega
    · rw [Region.has_mk] at hx
      exact hserved x ⟨by omega, by omega⟩
  | fresh region start bump =>
    obtain ⟨hfresh, hstart, hstop, hbump⟩ := ho
    have hin : ∀ x, Region.Has ⟨start, start + req.size⟩ x → region.Has x := fun x hx => by
      rw [Region.has_mk] at hx
      exact ⟨by omega, by omega⟩
    have hinside : ∃ r ∈ region :: s.regions, Region.Inside ⟨start, start + req.size⟩ r :=
      ⟨region, List.mem_cons_self, hstart, hstop⟩
    have hnew : ∀ x, Region.Has ⟨start, start + req.size⟩ x → ∀ b ∈ s.blocks, ¬ b.Has x :=
      fun x hx => h.fresh_served hfresh (hin x hx)
    have hcons : ∀ r ∈ s.regions, r ∈ region :: s.regions := fun _ => List.mem_cons_of_mem _
    have hbounded := h.bounded_cons hfresh
    cases bump with
    | none =>
      refine h.addBlock ht s.bump _ _ hcons hbounded (h.bump.imp_right ?_) hserved
        (fun x hx hx' => ?_) hinside hnew .refill
      · rintro ⟨hbc, hbl, r, hr, hrr⟩
        exact ⟨hbc, hbl, r, hcons r hr, hrr⟩
      · -- the bump pointer is in a region from before
        rcases h.bump with hn | ⟨-, -, r, hr, hrc, hrl⟩
        · rw [hn] at hx'
          exact TLAB.not_has_new x hx'
        · have hapart := hfresh.2.2.2 r hr
          unfold Region.Apart at hapart
          obtain ⟨h₁, h₂⟩ := hin x hx
          obtain ⟨h₃, h₄⟩ := hx'
          omega
    | some b =>
      rcases hbump b rfl with rfl | ⟨hbc, hbl, hbs⟩
      · exact h.addBlock ht .new _ _ hcons hbounded (.inl rfl)
          (fun x hx => absurd hx (TLAB.not_has_new x)) (fun x _ => TLAB.not_has_new x) hinside hnew
          .refill
      · have hpos := hfresh.1
        refine h.addBlock ht b _ _ hcons hbounded
          (.inr ⟨by omega, hbl, region, List.mem_cons_self, by omega, hbs⟩) (fun x hx => ?_)
          (fun x hx hx' => ?_) hinside hnew .refill
        · obtain ⟨hx₁, hx₂⟩ := hx
          exact h.fresh_served hfresh ⟨by omega, by omega⟩
        · obtain ⟨hx₁, hx₂⟩ := hx'
          rw [Region.has_mk] at hx
          omega

theorem collected (h : Inv s) (ht : s.tlab = .new) {left : Left} (hl : left.Allowed s) :
    Inv (s.collected left) := by
  cases left with
  | keep => exact h
  | reset =>
    refine ⟨h.bounded, .inl rfl, .inl ht, fun _ => ht, h.inside, fun b _ x _ hx => ?_, h.disjoint⟩
    unfold State.free at hx
    simp only [State.collected, ht, TLAB.new, if_true] at hx
    exact TLAB.not_has_new x hx
  | replace region =>
    have hfresh : s.Fresh region := hl
    refine ⟨h.bounded_cons hfresh,
      .inr ⟨hfresh.1, hfresh.2.1, region, List.mem_cons_self, le_rfl, le_rfl⟩, .inl ht,
      fun _ => ht, fun b hb => ?_, fun b hb x hx hx' => ?_, h.disjoint⟩
    · obtain ⟨r, hr, hi⟩ := h.inside b hb
      exact ⟨r, List.mem_cons_of_mem _ hr, hi⟩
    · refine h.fresh_served hfresh (x := x) ?_ b hb hx
      unfold State.free at hx'
      simp only [State.collected, ht, TLAB.new, if_true] at hx'
      exact hx'

/-- The refill copies the bump pointer, which is all that is free. -/
theorem refill (h : Inv s) (ht : s.tlab = .new) :
    Inv { s with tlab := TLAB.refill cfg.selector s.tlab s.bump, pc := .idle } := by
  have hr : TLAB.refill cfg.selector s.tlab s.bump = s.bump := by
    unfold TLAB.refill
    rw [if_pos cfg.isBump]
  have hfree : s.free = s.bump := if_pos (by rw [ht]; rfl)
  have hfree' : State.free { s with tlab := s.bump, pc := .idle } = s.bump := by
    unfold State.free
    dsimp only
    split <;> rfl
  rw [hr]
  refine ⟨h.bounded, h.bump, ?_, fun hp => absurd rfl hp, h.inside, ?_, h.disjoint⟩
  · rcases h.bump with hn | ⟨hc, hl, -⟩
    · exact .inl hn
    · exact .inr ⟨hc, le_rfl, hl, rfl⟩
  · rw [hfree', ← hfree]
    exact h.served

theorem step (h : Inv s) {l : Label} (hw : Unwrapped cfg s l)
    (hs : Allocation.step cfg s l = some s') : Inv s' := by
  cases l with
  | allocate size k semantics =>
    simp only [Allocation.step] at hs
    split at hs
    · next hcall => exact h.allocate hcall.2.2 hw hs
    · cases hs
  | allocateOutOfLine size k semantics =>
    simp only [Allocation.step] at hs
    split at hs
    · exact h.allocateOutOfLine hs
    · cases hs
  | allocateSlow size k semantics =>
    simp only [Allocation.step] at hs
    split at hs
    · exact h.enter hs
    · cases hs
  | mmtk o =>
    simp only [Allocation.step] at hs
    split at hs
    · next hpc =>
      split at hs <;> cases hs
      next ho => exact h.returned (h.busy (by rw [hpc]; nofun)) ho
    · cases hs
  | refill =>
    simp only [Allocation.step] at hs
    split at hs <;> cases hs
    next hpc => exact h.refill (h.busy (by rw [hpc]; nofun))
  | gc left =>
    simp only [Allocation.step] at hs
    split at hs
    · next hl =>
      rw [h.flush_eq] at hs
      cases hs
      apply (h.flushed s.pc).collected rfl
      cases left <;> exact hl
    · cases hs

theorem new : Inv State.new :=
  ⟨nofun, .inl rfl, .inl rfl, fun _ => rfl, nofun, nofun, .nil⟩

end Inv

theorem inv_of_reachable (h : (machine cfg).ReachableUnder (Unwrapped cfg) s) : Inv s := by
  refine h.invariant ?_ fun _ _ _ hi hw hs => hi.step hw hs
  rintro s rfl
  exact Inv.new

/-- A plan with Immix. -/
def Config.immix : Config := ⟨Conversions.byDivision.usize, .immix, rfl, 32768⟩

end VmkitCore.Allocation
