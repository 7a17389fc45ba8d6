import Mathlib.Data.List.Count
import VmkitCore.Lib.LockOrder
import VmkitCore.Lib.Machine

/-! # Pairing threads

`block` and `async_block` pair the calling thread with the target, and `begin_pair_with`
pairs any two threads. A pair takes two communication locks, which are reentrant
monitors: first the one of the receiver, then the one of the other thread.
-/

namespace VmkitCore.Pairing

/-- The holder and the recursion count of a communication lock. -/
structure Lock (ι : Type*) where
  holder : Option ι
  recCount : ℕ
  deriving DecidableEq, Repr

/-- The calls of the pairing interface. -/
inductive Call (ι : Type*)
  | beginPairWith (self other : ι)
  | beginPairWithCurrent (self : ι)
  | block (self : ι)
  | asyncBlock (self : ι)
  deriving DecidableEq, Repr

/-- The two locks a call of the current thread takes, in their order. -/
def Call.pair (current : ι) : Call ι → ι × ι
  | .beginPairWith self other => (self, other)
  | .beginPairWithCurrent self | .block self | .asyncBlock self => (self, current)

inductive Pc (ι : Type*)
  | idle
  -- `begin_pair_with`
  | lockFirst (c : Call ι) | lockSecond (c : Call ι)
  -- `safe_block_impl`, once the threads are paired
  | blockUnchecked (self : ι) | dropFirst (self : ι) | dropSecond
  deriving DecidableEq, Repr

/-- One thread, with the locks of its live guards. -/
structure Local (ι : Type*) where
  pc : Pc ι
  guards : List ι
  deriving DecidableEq, Repr

structure State (ι : Type*) where
  locks : ι → Lock ι
  threads : ι → Local ι

inductive Label (ι : Type*)
  | call (t : ι) (c : Call ι)
  | step (t : ι)
  /-- A thread drops one of the guards that `begin_pair_with` has returned to it. -/
  | drop (t l : ι)
  deriving DecidableEq, Repr

variable {ι : Type*} [DecidableEq ι]

namespace State

def goto (s : State ι) (t : ι) (pc : Pc ι) : State ι :=
  { s with threads := Function.update s.threads t { s.threads t with pc } }

/-- `lock_no_handshake`, which waits for another holder. -/
def lockNoHandshake (s : State ι) (t l : ι) (pc : Pc ι) : Option (State ι) :=
  if (s.locks l).holder = none ∨ (s.locks l).holder = some t then
    some {
      locks := Function.update s.locks l ⟨some t, (s.locks l).recCount + 1⟩
      threads := Function.update s.threads t ⟨pc, l :: (s.threads t).guards⟩ }
  else none

/-- `Drop for MonitorGuard` -/
def dropGuard (s : State ι) (t l : ι) (pc : Pc ι) : State ι where
  locks := Function.update s.locks l
    ⟨if (s.locks l).recCount = 1 then none else (s.locks l).holder, (s.locks l).recCount - 1⟩
  threads := Function.update s.threads t ⟨pc, (s.threads t).guards.erase l⟩

end State

/-- Where a call goes on when it has both locks. -/
def Call.paired : Call ι → Pc ι
  | .beginPairWith .. | .beginPairWithCurrent _ => .idle
  | .block self | .asyncBlock self => .blockUnchecked self

def step (s : State ι) : Label ι → Option (State ι)
  | .call t c => if (s.threads t).pc = .idle then some (s.goto t (.lockFirst c)) else none
  | .step t =>
    match (s.threads t).pc with
    | .idle => none
    | .lockFirst c => s.lockNoHandshake t (c.pair t).1 (.lockSecond c)
    | .lockSecond c => s.lockNoHandshake t (c.pair t).2 c.paired
    -- it waits for the target, but for no communication lock
    | .blockUnchecked self => some (s.goto t (.dropFirst self))
    | .dropFirst self => some (s.dropGuard t self .dropSecond)
    | .dropSecond => some (s.dropGuard t t .idle)
  | .drop t l =>
    if (s.threads t).pc = .idle ∧ l ∈ (s.threads t).guards then some (s.dropGuard t l .idle)
    else none

def State.new : State ι := ⟨fun _ => ⟨none, 0⟩, fun _ => ⟨.idle, []⟩⟩

def machine (ι : Type*) [DecidableEq ι] : Machine (State ι) (Label ι) where
  init s := s = .new
  step := step

/-- The lock that a thread is about to take. -/
def Local.wanted (t : ι) (l : Local ι) : Option ι :=
  match l.pc with
  | .lockFirst c => some (c.pair t).1
  | .lockSecond c => some (c.pair t).2
  | _ => none

def State.table (s : State ι) : LockTable ι ι where
  holder l := (s.locks l).holder
  wanted t := (s.threads t).wanted t

/-- Some threads each hold a communication lock and wait for the next one's. -/
def State.Deadlocked (s : State ι) : Prop := s.table.Deadlocked

/--
The locks that a call takes come, in the given relation, after those that its thread holds,
and the second one after the first one; a lock that the thread holds already does not matter.
-/
def Ordered (R : ι → ι → Prop) (s : State ι) : Label ι → Prop
  | .call t c =>
    let (first, second) := c.pair t
    (∀ l ∈ (s.threads t).guards, first ∈ (s.threads t).guards ∨ R l first) ∧
    ∀ l ∈ first :: (s.threads t).guards, second ∈ first :: (s.threads t).guards ∨ R l second
  | _ => True

variable {R : ι → ι → Prop} {s s' : State ι} {t u l : ι}

/-- The part of the invariant about one thread. -/
def Local.Ok (R : ι → ι → Prop) (t : ι) (l : Local ι) : Prop :=
  match l.pc with
  | .idle => True
  | .lockFirst c =>
    (∀ k ∈ l.guards, (c.pair t).1 ∈ l.guards ∨ R k (c.pair t).1) ∧
    ∀ k ∈ (c.pair t).1 :: l.guards,
      (c.pair t).2 ∈ (c.pair t).1 :: l.guards ∨ R k (c.pair t).2
  | .lockSecond c => (c.pair t).1 ∈ l.guards ∧
    ∀ k ∈ l.guards, (c.pair t).2 ∈ l.guards ∨ R k (c.pair t).2
  | .blockUnchecked self | .dropFirst self => [self, t].Subperm l.guards
  | .dropSecond => t ∈ l.guards

/-- A lock is held by the thread that has guards for it, as many as it counts. -/
structure Inv (R : ι → ι → Prop) (s : State ι) : Prop where
  count : ∀ t l, (s.threads t).guards.count l =
    if (s.locks l).holder = some t then (s.locks l).recCount else 0
  free : ∀ l, (s.locks l).recCount = 0 ↔ (s.locks l).holder = none
  ok : ∀ t, (s.threads t).Ok R t

namespace Inv

theorem holder_iff (h : Inv R s) : (s.locks l).holder = some t ↔ l ∈ (s.threads t).guards := by
  rw [← List.count_pos_iff, h.count]
  constructor
  · intro hl
    rw [if_pos hl, Nat.pos_iff_ne_zero, Ne, h.free, hl]
    simp
  · intro hl
    by_contra hne
    rw [if_neg hne] at hl
    exact absurd hl (Nat.lt_irrefl 0)

/-- Only the locals of one thread change. -/
theorem ok_update (h : Inv R s) {q : Local ι} (hq : q.Ok R t) (u : ι) :
    (Function.update s.threads t q u).Ok R u := by
  rcases eq_or_ne u t with rfl | hu
  · rwa [Function.update_self]
  · rw [Function.update_of_ne hu]
    exact h.ok u

theorem goto (h : Inv R s) {pc : Pc ι} (hpc : (Local.mk pc (s.threads t).guards).Ok R t) :
    Inv R (s.goto t pc) := by
  refine ⟨fun u l => (h.count u l).symm ▸ ?_, h.free, h.ok_update hpc⟩
  rcases eq_or_ne u t with rfl | hu
  · simp only [State.goto, Function.update_self, h.count]
  · simp only [State.goto, Function.update_of_ne hu, h.count]

theorem lockNoHandshake (h : Inv R s) {pc : Pc ι}
    (hpc : (Local.mk pc (l :: (s.threads t).guards)).Ok R t)
    (hs : s.lockNoHandshake t l pc = some s') : Inv R s' := by
  rw [State.lockNoHandshake] at hs
  split at hs
  · next hfree =>
    cases hs
    refine ⟨fun u k => ?_, fun k => ?_, h.ok_update hpc⟩
    · have hc := h.count u k
      have hf := h.free l
      rcases eq_or_ne k l with rfl | hk <;> rcases eq_or_ne u t with rfl | hu
      · simp only [Function.update_self, List.count_cons_self, if_true]
        grind
      · simp only [Function.update_self, Function.update_of_ne hu]
        grind
      · simpa only [Function.update_self, Function.update_of_ne hk, List.count_cons_of_ne hk.symm]
          using hc
      · simpa only [Function.update_of_ne hk, Function.update_of_ne hu] using hc
    · rcases eq_or_ne k l with rfl | hk
      · simp
      · simpa only [Function.update_of_ne hk] using h.free k
  · cases hs

theorem dropGuard (h : Inv R s) {pc : Pc ι} (hl : l ∈ (s.threads t).guards)
    (hpc : (Local.mk pc ((s.threads t).guards.erase l)).Ok R t) : Inv R (s.dropGuard t l pc) := by
  have hholder := h.holder_iff.mpr hl
  refine ⟨fun u k => ?_, fun k => ?_, h.ok_update hpc⟩
  · have hc := h.count u k
    unfold State.dropGuard
    rcases eq_or_ne k l with rfl | hk <;> rcases eq_or_ne u t with rfl | hu
    · simp only [Function.update_self, List.count_erase_self]
      grind
    · simp only [Function.update_self, Function.update_of_ne hu]
      grind
    · simpa only [Function.update_self, Function.update_of_ne hk, List.count_erase_of_ne hk]
        using hc
    · simpa only [Function.update_of_ne hk, Function.update_of_ne hu] using hc
  · have hf := h.free k
    unfold State.dropGuard
    rcases eq_or_ne k l with rfl | hk
    · simp only [Function.update_self]
      grind
    · simpa only [Function.update_of_ne hk] using hf

theorem step (h : Inv R s) {a : Label ι} (ha : Ordered R s a)
    (hs : Pairing.step s a = some s') : Inv R s' := by
  cases a with
  | call t c =>
    rw [Pairing.step, Option.ite_none_right_eq_some] at hs
    cases hs.2
    exact h.goto ha
  | drop t l =>
    rw [Pairing.step, Option.ite_none_right_eq_some] at hs
    cases hs.2
    exact h.dropGuard hs.1.2 trivial
  | step t =>
    have hok := h.ok t
    rw [Pairing.step] at hs
    rw [Local.Ok] at hok
    split at hs <;> rename_i hpc <;> rw [hpc] at hok
    · cases hs
    · next c =>
      have hsecond : (Local.mk (.lockSecond c) ((c.pair t).1 :: (s.threads t).guards)).Ok R t :=
        ⟨List.mem_cons_self, hok.2⟩
      exact h.lockNoHandshake hsecond hs
    · next c =>
      refine h.lockNoHandshake ?_ hs
      cases c with
      | beginPairWith | beginPairWithCurrent => trivial
      | block self | asyncBlock self =>
        exact (List.Perm.swap t self []).subperm.trans
          ((List.subperm_cons t).mpr (List.singleton_subperm_iff.mpr hok.1))
    · cases hs
      exact h.goto hok
    · next self =>
      cases hs
      have herase : [t].Subperm ((s.threads t).guards.erase self) := by
        simpa using hok.erase self
      exact h.dropGuard (hok.subset List.mem_cons_self) (List.singleton_subperm_iff.mp herase)
    · cases hs
      exact h.dropGuard hok trivial

/-- Threads in a call want a lock that comes after the ones they hold. -/
theorem ordered (h : Inv R s) : s.table.Ordered R := by
  intro t k l hk hl
  have hok := h.ok t
  rw [Local.Ok] at hok
  change (s.locks l).holder = some t ∨ R k l
  rw [h.holder_iff]
  replace hk := h.holder_iff.mp hk
  change (s.threads t).wanted t = some l at hl
  rw [Local.wanted] at hl
  split at hl <;> rename_i hpc
  · rw [hpc] at hok
    cases hl
    exact hok.1 k hk
  · rw [hpc] at hok
    cases hl
    exact hok.2 k hk
  · cases hl

end Inv

theorem inv_of_reachable (h : (machine ι).ReachableUnder (Ordered R) s) : Inv R s := by
  refine h.invariant (fun s hs => ?_) fun _ _ _ hi ha hs => hi.step ha hs
  rw [show s = .new from hs]
  exact ⟨fun _ _ => rfl, fun _ => ⟨fun _ => rfl, fun _ => rfl⟩, fun _ => trivial⟩

section Cycle

variable {n : ℕ} {f : ℕ → ι}

/-- The first threads of the cycle have taken their own locks, and go on to the next ones. -/
structure Around (f : ℕ → ι) (k : ℕ) (s : State ι) : Prop where
  started : ∀ j < k, s.threads (f j) = ⟨.lockSecond (.beginPairWith (f j) (f (j + 1))), [f j]⟩ ∧
    (s.locks (f j)).holder = some (f j)
  others : ∀ t, (∀ j < k, f j ≠ t) → s.threads t = ⟨.idle, []⟩ ∧ s.locks t = ⟨none, 0⟩

theorem Around.next {k : ℕ} (hinj : Set.InjOn f (Set.Iio n)) (hk : k < n)
    (hR : R (f k) (f (k + 1))) (h : Around f k s)
    (hs : (machine ι).ReachableUnder (Ordered R) s) :
    ∃ s', (machine ι).ReachableUnder (Ordered R) s' ∧ Around f (k + 1) s' := by
  have hne : ∀ j < k, f j ≠ f k := fun j hj he =>
    absurd (hinj (hj.trans hk) hk he) (Nat.ne_of_lt hj)
  obtain ⟨hthread, hlock⟩ := h.others (f k) hne
  have hidle : (s.threads (f k)).pc = .idle := congrArg Local.pc hthread
  have hcall : Ordered R s (.call (f k) (.beginPairWith (f k) (f (k + 1)))) := by
    simp [Ordered, Call.pair, hthread, hR]
  let s' : State ι := {
    locks := Function.update s.locks (f k) ⟨some (f k), 1⟩
    threads := Function.update s.threads (f k)
      ⟨.lockSecond (.beginPairWith (f k) (f (k + 1))), [f k]⟩ }
  refine ⟨s', (hs.step hcall (if_pos hidle)).step (a := .step (f k)) trivial ?_, ?_⟩
  · simp [s', machine, step, State.goto, State.lockNoHandshake, hlock, hthread, Call.pair]
  · constructor
    · intro j hj
      rcases Nat.lt_succ_iff_lt_or_eq.mp hj with hjk | rfl
      · simpa [s', hne j hjk] using h.started j hjk
      · simp [s']
    · intro t ht
      have htk : t ≠ f k := (ht k k.lt_succ_self).symm
      simpa [s', htk] using h.others t fun j hj => ht j (hj.trans k.lt_succ_self)

/-- The threads of a cycle can all take their own lock, and then wait for the next one's. -/
theorem deadlocked_of_cycle (hn : 0 < n) (hf : f n = f 0) (hinj : Set.InjOn f (Set.Iio n))
    (hR : ∀ k < n, R (f k) (f (k + 1)) ∧ f k ≠ f (k + 1)) :
    ∃ s, (machine ι).ReachableUnder (Ordered R) s ∧ s.Deadlocked := by
  have haround : ∀ k ≤ n, ∃ s, (machine ι).ReachableUnder (Ordered R) s ∧ Around f k s := by
    intro k hk
    induction k with
    | zero => exact ⟨.new, .init rfl, by simp, fun _ _ => ⟨rfl, rfl⟩⟩
    | succ k ih =>
      obtain ⟨s, hs, ha⟩ := ih (Nat.le_of_succ_le hk)
      exact ha.next hinj hk (hR k hk).1 hs
  obtain ⟨s, hs, ha⟩ := haround n le_rfl
  refine ⟨s, hs, LockTable.deadlocked_of_cycle hn hf fun k hk => ⟨(hR k hk).2, f (k + 1), ?_, ?_⟩⟩
  · simp [State.table, (ha.started k hk).1, Local.wanted, Call.pair]
  · rcases Nat.lt_or_eq_of_le (Nat.succ_le_of_lt hk) with hk' | hk'
    · exact (ha.started (k + 1) hk').2
    · rw [show k + 1 = n from hk', hf]
      exact (ha.started 0 hn).2

end Cycle

/--
No run whose calls take their locks along a relation ever deadlocks exactly when the relation
has no cycle of different locks.
-/
theorem no_deadlock_iff (R : ι → ι → Prop) :
    (∀ s, (machine ι).ReachableUnder (Ordered R) s → ¬ s.Deadlocked) ↔
      ∀ l, ¬ Relation.TransGen (fun k l => R k l ∧ k ≠ l) l l := by
  constructor
  · intro h l hl
    obtain ⟨n, f, hn, hf, hR, hinj⟩ := hl.exists_injOn_cycle
    obtain ⟨s, hs, hd⟩ := deadlocked_of_cycle hn hf hinj hR
    exact h s hs hd
  · intro h s hs
    exact (inv_of_reachable hs).ordered.not_deadlocked h

/-- Two threads block each other. -/
theorem blocks_deadlocked : ∃ s, (machine Bool).Reachable s ∧ s.Deadlocked := by
  obtain ⟨s, hs, hw⟩ : ∃ s, (machine Bool).checkedExec (fun _ _ => True) .new
      [.call true (.block false), .call false (.block true), .step true, .step false] = some s ∧
    ∀ t u, t ≠ u → s.table.wanted t = some t ∧ s.table.holder t = some u := ⟨_, rfl, by decide⟩
  refine ⟨s, .checkedExec (.init rfl) hs, true, .tail (b := false) (.single ?_) ?_⟩
  · exact ⟨by decide, true, hw true false (by decide)⟩
  · exact ⟨by decide, false, hw false true (by decide)⟩

end VmkitCore.Pairing
