import VmkitCore.Threading.SoftHandshake

/-! # The handshake counter

`soft_handshake_left` is to count the signalled threads that have not acknowledged.
No path of a thread takes it down again, so it does until the first one acknowledges.
-/

namespace VmkitCore.SoftHandshake

variable {ι τ ρ : Type*}

/-- The call has signalled a thread and has not yet counted it. -/
def Pc.uncounted : Pc τ → Bool
  | .takeYieldpoint _ | .threadUnlock _ true | .countLock | .count => true
  | _ => false

/-- How many signalled threads are not counted yet; only who holds the lock signals. -/
def State.uncounted (s : State ι τ ρ) : ℕ :=
  match s.handshakeLock with
  | some r => if (s.calls r).pc.uncounted then 1 else 0
  | none => 0

/-- The counter is right, so nobody waits once all have acknowledged and been counted. -/
structure Accounted (s : State ι τ ρ) : Prop where
  count : (s.softHandshakeLeft + s.uncounted) % 2 ^ 64 = s.unacknowledged.card % 2 ^ 64
  done : s.unacknowledged = ∅ → s.uncounted = 0 → ¬ 0 < s.softHandshakeLeft

/-- No thread acknowledges a signal. -/
def NoAcknowledgement [DecidableEq ι] (as : List (BlockAdapter ι)) (s : State ι τ ρ) :
    Label ι τ ρ → Prop
  | .thread t l => Acknowledges as (s.threads t) l = true → t ∉ s.unacknowledged
  | _ => True

/-- What the counter and the number of unacknowledged signals are at each step of a call. -/
def Pc.Ledger (unacknowledged left : ℕ) : Pc τ → Prop
  | .takeYieldpoint _ | .threadUnlock _ true | .countLock | .count =>
    unacknowledged = 1 ∧ left = 0
  | .countUnlock | .asleep _ => unacknowledged = 1 ∧ left = 1
  | .waitLock _ | .waitTest _ => unacknowledged = left ∧ left ≤ 1
  | _ => unacknowledged = 0 ∧ left = 0

/-- A call that signals a thread waits for it, so nobody signals a second one. -/
structure Ledger (s : State ι τ ρ) : Prop where
  lock : ∀ r, (s.calls r).pc.inLoop = true ↔ s.handshakeLock = some r
  free : s.handshakeLock = none → s.unacknowledged.card = 0 ∧ s.softHandshakeLeft = 0
  held : ∀ r, s.handshakeLock = some r →
    (s.calls r).pc.Ledger s.unacknowledged.card s.softHandshakeLeft

variable [DecidableEq ι] [DecidableEq τ] [DecidableEq ρ] {s s' : State ι τ ρ} {r : ρ}
  {as : List (BlockAdapter ι)} {a : Label ι τ ρ}

omit [DecidableEq τ] in
theorem Pc.Ledger.total {pc : Pc τ} {unacknowledged left : ℕ}
    (h : pc.Ledger unacknowledged left) :
    left + (if pc.uncounted then 1 else 0) = unacknowledged ∧ unacknowledged ≤ 1 := by
  cases pc with
  | threadUnlock t wait =>
    cases wait <;>
      simp only [Pc.Ledger, Pc.uncounted, if_true, Bool.false_eq_true, if_false] at * <;> omega
  | _ => simp only [Pc.Ledger, Pc.uncounted, if_true, Bool.false_eq_true, if_false] at *; omega

omit [DecidableEq τ] in
theorem Pc.Ledger.wait {guard : Option τ} {unacknowledged left : ℕ}
    (h : unacknowledged = 0 ∧ left = 0) : (Pc.waitLock guard).Ledger unacknowledged left :=
  ⟨h.1.trans h.2.symm, h.2 ▸ Nat.zero_le 1⟩

namespace Ledger

omit [DecidableEq ι] [DecidableEq τ] [DecidableEq ρ] in
theorem total (h : Ledger s) :
    s.softHandshakeLeft + s.uncounted = s.unacknowledged.card ∧ s.unacknowledged.card ≤ 1 := by
  unfold State.uncounted
  split
  · next r hr => exact (h.held r hr).total
  · next hnone =>
    obtain ⟨hu, hl⟩ := h.free hnone
    omega

omit [DecidableEq ι] [DecidableEq τ] [DecidableEq ρ] in
theorem accounted (h : Ledger s) : Accounted s := by
  obtain ⟨ht, -⟩ := h.total
  refine ⟨by rw [ht], fun hu h0 => ?_⟩
  rw [hu, Finset.card_empty] at ht
  omega

omit [DecidableEq ι] [DecidableEq τ] in
/-- The call that holds the lock goes on, and what it changes is on record. -/
theorem move (h : Ledger s) (hr : s.handshakeLock = some r) {c : Call τ ρ}
    (hcalls : s'.calls = Function.update s.calls r c) (hlock : s'.handshakeLock = some r)
    (hc : c.pc.inLoop = true)
    (hl : c.pc.Ledger s'.unacknowledged.card s'.softHandshakeLeft) : Ledger s' := by
  refine ⟨fun q => ?_, fun hnone => ?_, fun q hq => ?_⟩
  · rw [hcalls, hlock]
    rcases eq_or_ne q r with rfl | hne
    · simp [hc]
    · rw [Function.update_of_ne hne, h.lock q, hr]
  · cases hlock.symm.trans hnone
  · obtain rfl := Option.some.inj (hlock.symm.trans hq)
    rw [hcalls, Function.update_self]
    exact hl

omit [DecidableEq ι] [DecidableEq τ] [DecidableEq ρ] in
/-- Nothing that the record is about changes. -/
theorem of_eq (h : Ledger s) (hcalls : s'.calls = s.calls)
    (hlock : s'.handshakeLock = s.handshakeLock)
    (hunack : s'.unacknowledged = s.unacknowledged)
    (hleft : s'.softHandshakeLeft = s.softHandshakeLeft) : Ledger s' :=
  ⟨by rw [hcalls, hlock]; exact h.lock, by rw [hlock, hunack, hleft]; exact h.free,
    by rw [hcalls, hlock, hunack, hleft]; exact h.held⟩

omit [DecidableEq ι] [DecidableEq τ] in
/-- A call that is not in its loop, before or after it changes. -/
theorem setCall (h : Ledger s) {c : Call τ ρ} (hr : (s.calls r).pc.inLoop = false)
    (hc : c.pc.inLoop = false) : Ledger (s.setCall r c) := by
  have hne : s.handshakeLock ≠ some r := by rw [Ne, ← h.lock r, hr]; exact Bool.false_ne_true
  refine ⟨fun q => ?_, h.free, fun q hq => ?_⟩
  · simp only [State.setCall]
    rcases eq_or_ne q r with rfl | hqr
    · simp [hc, hne]
    · rw [Function.update_of_ne hqr, h.lock q]
  · have hqr : q ≠ r := fun he => hne (he ▸ hq)
    simp only [State.setCall, Function.update_of_ne hqr]
    exact h.held q hq

omit [DecidableEq ι] in
theorem snapshot (h : Ledger s) {accepted : List τ}
    (hs : SoftHandshake.snapshot s r accepted = some s') : Ledger s' := by
  rw [SoftHandshake.snapshot, Option.ite_none_right_eq_some] at hs
  obtain ⟨⟨hidle, -⟩, hs⟩ := hs
  have hcall : Ledger (s.setCall r ⟨.drainLock accepted.length, accepted, [], none, []⟩) :=
    h.setCall (by rw [hidle]; rfl) rfl
  cases hs
  exact hcall.of_eq rfl rfl rfl rfl

omit [DecidableEq ι] [DecidableEq τ] in
theorem drain (h : Ledger s) (hfree : s.handshakeLock = none) {c : Call τ ρ} (hc : c.pc = .loop)
    {vector : List (ρ × τ)} {undrained : List ρ} :
    Ledger ({ s with
      handshakeLock := some r, handshakeThreads := vector, undrained }.setCall r c) := by
  refine ⟨fun q => ?_, fun hnone => (nomatch hnone), fun q hq => ?_⟩
  · simp only [State.setCall]
    rcases eq_or_ne q r with rfl | hqr
    · simp [hc, Pc.inLoop]
    · rw [Function.update_of_ne hqr, h.lock q, hfree]
      simp [hqr.symm]
  · cases hq
    simp only [State.setCall, Function.update_self, hc]
    exact h.free hfree

omit [DecidableEq ι] [DecidableEq τ] in
theorem finish (h : Ledger s) (hr : s.handshakeLock = some r)
    (hk : s.unacknowledged.card = 0 ∧ s.softHandshakeLeft = 0) :
    Ledger ({ s with handshakeLock := none }.goto r .idle) := by
  refine ⟨fun q => ?_, fun _ => hk, fun q hq => (nomatch hq)⟩
  simp only [State.goto, State.setCall]
  rcases eq_or_ne q r with rfl | hqr
  · simp [Pc.inLoop]
  · rw [Function.update_of_ne hqr, h.lock q, hr]
    simp [hqr.symm]

omit [DecidableEq ι] in
theorem callStep (h : Ledger s) (hs : SoftHandshake.callStep s r = some s') : Ledger s' := by
  have hheld := h.held r
  have hlock := h.lock r
  unfold SoftHandshake.callStep at hs
  cases hpc : (s.calls r).pc
  all_goals simp only [hpc, reduceCtorEq] at hs
  all_goals rw [hpc] at hheld hlock
  case drainLock n =>
    rw [Option.ite_none_right_eq_some] at hs
    cases hs.2
    exact h.drain hs.1.1 rfl
  all_goals
    have hr := hlock.mp rfl
    have hk := hheld hr
  case loop =>
    split at hs <;> cases hs
    · exact h.finish hr hk
    · exact h.move hr rfl hr rfl hk
  case threadLock t =>
    obtain ⟨s₁, hs₁, rfl⟩ := Option.map_eq_some_iff.mp hs
    rw [State.lockThread] at hs₁
    split at hs₁
    · cases hs₁
      exact h.move hr rfl hr rfl hk
    · obtain ⟨c, -, rfl⟩ := Option.map_eq_some_iff.mp hs₁
      exact h.move hr rfl hr rfl hk
  case threadTest t =>
    cases hs
    split
    · exact h.move hr rfl hr rfl (.wait hk)
    · exact h.move hr rfl hr rfl hk
  case isInManaged t =>
    cases hs
    split <;> exact h.move hr rfl hr rfl hk
  case request t =>
    cases hs
    have hempty := Finset.card_eq_zero.mp hk.1
    refine h.move hr rfl hr rfl ⟨?_, hk.2⟩
    simp [State.goto, State.setCall, hempty]
  case threadUnlock t wait =>
    cases hs
    cases wait with
    | true => exact h.move hr rfl hr rfl hk
    | false => exact h.move hr rfl hr rfl (.wait hk)
  case countLock | waitLock =>
    obtain ⟨s₁, hs₁, rfl⟩ := Option.map_eq_some_iff.mp hs
    rw [State.lockData, Option.ite_none_right_eq_some] at hs₁
    cases hs₁.2
    exact h.move hr rfl hr rfl hk
  case count =>
    cases hs
    obtain ⟨hu, hl⟩ := hk
    refine h.move hr rfl hr rfl ⟨hu, ?_⟩
    simp [State.goto, State.setCall, hl]
  case countUnlock =>
    cases hs
    obtain ⟨hu, hl⟩ := hk
    exact h.move hr rfl hr rfl ⟨hu.trans hl.symm, hl.le⟩
  case waitTest g =>
    cases hs
    obtain ⟨hu, hl⟩ := hk
    split
    · next hpos =>
      have hone := Nat.le_antisymm hl hpos
      exact h.move hr rfl hr rfl ⟨hu.trans hone, hone⟩
    · next hpos =>
      have hzero := Nat.eq_zero_of_not_pos hpos
      exact h.move hr rfl hr rfl ⟨hu.trans hzero, hzero⟩
  case waitUnlock g =>
    cases hs
    cases g <;> exact h.move hr rfl hr rfl hk
  all_goals
    cases hs
    exact h.move hr rfl hr rfl hk

theorem step (h : Ledger s) (ha : NoAcknowledgement as s a)
    (hs : SoftHandshake.step as s a = some s') : Ledger s' := by
  cases a with
  | thread t l =>
    rw [SoftHandshake.step, threadStep, Option.ite_none_right_eq_some] at hs
    obtain ⟨-, hs⟩ := hs
    obtain ⟨c, -, rfl⟩ := Option.map_eq_some_iff.mp hs
    refine h.of_eq rfl rfl ?_ rfl
    dsimp only
    split
    · next hack => exact Finset.erase_eq_of_notMem (ha hack)
    · rfl
  | snapshot r threads isCollectorThread includeThread =>
    exact h.snapshot hs
  | checkAndSignal r signalled =>
    rw [SoftHandshake.step] at hs
    split at hs
    · next t hpc =>
      cases hs
      have hr := (h.lock r).mp (by rw [hpc]; rfl)
      have hk := h.held r hr
      rw [hpc] at hk
      cases signalled with
      | true => exact h.move hr rfl hr rfl hk
      | false => exact h.move hr rfl hr rfl (.wait hk)
    · cases hs
  | step r => exact h.callStep hs

/-- An acknowledgement does not reach the counter. -/
theorem noAcknowledgement (h : Ledger s) (hs : SoftHandshake.step as s a = some s')
    (ha : Accounted s') : NoAcknowledgement as s a := by
  cases a with
  | snapshot | checkAndSignal | step => trivial
  | thread t l =>
    intro hack hmem
    obtain ⟨ht, hle⟩ := h.total
    rw [SoftHandshake.step, threadStep, Option.ite_none_right_eq_some] at hs
    obtain ⟨-, hs⟩ := hs
    obtain ⟨c, -, rfl⟩ := Option.map_eq_some_iff.mp hs
    have hcount := ha.count
    have hpos := Finset.card_pos.mpr ⟨t, hmem⟩
    change (s.softHandshakeLeft + s.uncounted) % 2 ^ 64 = _ at hcount
    rw [if_pos hack, Finset.card_erase_of_mem hmem, ht] at hcount
    omega

end Ledger

/--
In every run, the counter is the number of signalled threads that have not acknowledged, and
zero once all have, exactly when no signalled thread ever acknowledges.
-/
theorem accounted_iff {threads : τ → Blocking.State ι ρ} {l : List (Label ι τ ρ)} :
    (machine ι τ ρ as).Always Accounted (.new threads) l ↔
      (machine ι τ ρ as).Meets (NoAcknowledgement as) (.new threads) l := by
  have hnew : Ledger (State.new threads : State ι τ ρ) :=
    ⟨fun _ => by simp [State.new, Pc.inLoop], fun _ => ⟨rfl, rfl⟩, fun _ h => (nomatch h)⟩
  exact Machine.always_iff_meets_of_kept (I := Ledger) (fun _ _ _ h ha hs => h.step ha hs)
    (fun _ h => h.accounted) (fun _ _ _ h hs ha => h.noAcknowledgement hs ha) hnew

/-- A running thread is signalled and counted; then it takes a whole yieldpoint. -/
def acknowledgedRun : List (Label Unit Unit Unit) :=
  [.snapshot () [some ()] (fun _ => false) (fun _ => true)] ++ List.replicate 4 (.step ()) ++
  [.checkAndSignal () true] ++ List.replicate 10 (.step ()) ++
  [.thread () (.call .yieldpoint)] ++ List.replicate 11 (.thread () .step)

theorem waits_for_acknowledged : ∃ s, (machine Unit Unit Unit [.flags ()]).exec
      (.new fun _ => { Blocking.State.started with
        thread := { Thread.forMutator with
          execStatus := .inManaged
          yieldpointsEnabledCount := 1 } })
      acknowledgedRun = some s ∧
    (s.threads ()).pc = .managed ∧ s.unacknowledged = ∅ ∧ s.uncounted = 0 ∧
    s.softHandshakeLeft = 1 ∧ (s.calls ()).pc = .asleep none ∧ ¬ Accounted s := by
  refine ⟨_, rfl, rfl, rfl, rfl, rfl, rfl, fun h => h.done rfl rfl Nat.one_pos⟩

end VmkitCore.SoftHandshake
