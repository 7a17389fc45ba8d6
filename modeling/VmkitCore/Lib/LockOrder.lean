import Mathlib.Algebra.Group.Nat.Defs
import Mathlib.Data.Nat.Find
import Mathlib.Data.Set.Function
import Mathlib.Logic.Relation
import Mathlib.Order.Interval.Set.Defs

/-! # Lock orders

Every lock has at most one holder, and every thread wants at most one lock. When
the locks that a thread holds come before the lock it wants, in a relation without
cycles, no threads wait for each other in a cycle.
-/

open Relation

theorem Relation.TransGen.exists_walk {α : Type*} {r : α → α → Prop} {a b : α}
    (h : TransGen r a b) : ∃ n, 0 < n ∧ ∃ f : ℕ → α, f 0 = a ∧ f n = b ∧
      ∀ k < n, r (f k) (f (k + 1)) := by
  induction h with
  | @single b hab =>
    refine ⟨1, Nat.one_pos, fun k => if k = 0 then a else b, rfl, rfl, fun k hk => ?_⟩
    obtain rfl : k = 0 := by omega
    exact hab
  | @tail b c _ hbc ih =>
    obtain ⟨n, -, f, hf0, hfn, hf⟩ := ih
    refine ⟨n + 1, n.succ_pos, fun k => if k ≤ n then f k else c, by simpa using hf0, by simp,
      fun k hk => ?_⟩
    rcases Nat.lt_succ_iff_lt_or_eq.mp hk with hkn | rfl
    · simpa [hkn.le, Nat.succ_le_of_lt hkn] using hf k hkn
    · simpa [hfn, Nat.not_succ_le_self] using hbc

/-- A relation with a cycle has one that meets no element twice. -/
theorem Relation.TransGen.exists_injOn_cycle {α : Type*} {r : α → α → Prop} {a : α}
    (h : TransGen r a a) : ∃ (n : ℕ) (f : ℕ → α), 0 < n ∧ f n = f 0 ∧
      (∀ k < n, r (f k) (f (k + 1))) ∧ Set.InjOn f (Set.Iio n) := by
  classical
  have hex : ∃ n, 0 < n ∧ ∃ f : ℕ → α, f n = f 0 ∧ ∀ k < n, r (f k) (f (k + 1)) := by
    obtain ⟨n, hn, f, hf0, hfn, hf⟩ := h.exists_walk
    exact ⟨n, hn, f, hfn.trans hf0.symm, hf⟩
  obtain ⟨hn, f, hfn, hf⟩ := Nat.find_spec hex
  -- a repetition would close a shorter cycle
  have hlt : ∀ i j, i < j → j < Nat.find hex → f i ≠ f j := by
    intro i j hij hj he
    refine Nat.find_min hex (m := j - i) (by omega)
      ⟨by omega, fun k => f (i + k), ?_, fun k hk => ?_⟩
    · simp only [Nat.add_sub_cancel' hij.le, Nat.add_zero, he]
    · exact hf (i + k) (by omega)
  refine ⟨Nat.find hex, f, hn, hfn, hf, fun i hi j hj he => ?_⟩
  rcases Nat.lt_trichotomy i j with hij | hij | hij
  · exact absurd he (hlt i j hij hj)
  · exact hij
  · exact absurd he.symm (hlt j i hij hi)

/-- Who holds each lock, and which lock each thread is trying to take. -/
structure LockTable (τ κ : Type*) where
  holder : κ → Option τ
  wanted : τ → Option κ

namespace LockTable

variable {τ κ : Type*} {T : LockTable τ κ} {R : κ → κ → Prop}

/-- The first thread wants a lock that the second one, another thread, holds. -/
def Waits (T : LockTable τ κ) (t u : τ) : Prop :=
  t ≠ u ∧ ∃ k, T.wanted t = some k ∧ T.holder k = some u

def Deadlocked (T : LockTable τ κ) : Prop := ∃ t, TransGen T.Waits t t

/-- What a thread holds comes before the lock it wants, unless it has that one already. -/
def Ordered (T : LockTable τ κ) (R : κ → κ → Prop) : Prop :=
  ∀ t h k, T.holder h = some t → T.wanted t = some k → T.holder k = some t ∨ R h k

/-- Along a chain of waiting threads, the wanted locks ascend. -/
theorem Ordered.ascends (ho : T.Ordered R) {t u : τ} (h : TransGen T.Waits t u) {k : κ}
    (hk : T.wanted t = some k) :
    ∃ l, T.holder l = some u ∧ ReflTransGen (fun a b => R a b ∧ a ≠ b) k l := by
  induction h with
  | single hw =>
    obtain ⟨-, l, hl, hu⟩ := hw
    obtain rfl := Option.some.inj (hk.symm.trans hl)
    exact ⟨k, hu, .refl⟩
  | @tail u v _ hw ih =>
    obtain ⟨l, hlu, hkl⟩ := ih
    obtain ⟨huv, m, hm, hv⟩ := hw
    have hmu : T.holder m ≠ some u := fun h => huv (Option.some.inj (h.symm.trans hv))
    have hlm := (ho u l m hlu hm).resolve_left hmu
    exact ⟨m, hv, hkl.tail ⟨hlm, fun h => hmu (h ▸ hlu)⟩⟩

theorem Ordered.not_deadlocked (ho : T.Ordered R)
    (hR : ∀ k, ¬ TransGen (fun a b => R a b ∧ a ≠ b) k k) : ¬ T.Deadlocked := by
  rintro ⟨t, ht⟩
  obtain ⟨u, ⟨htu, k, hk, hu⟩, -⟩ := TransGen.head'_iff.mp ht
  obtain ⟨l, hl, hkl⟩ := ho.ascends ht hk
  have hkt : T.holder k ≠ some t := fun h => htu (Option.some.inj (h.symm.trans hu))
  have hlk := (ho t l k hl hk).resolve_left hkt
  exact hR k (.tail' hkl ⟨hlk, fun h => hkt (h ▸ hl)⟩)

/-- Threads that wait for each other in a circle are deadlocked. -/
theorem deadlocked_of_cycle {n : ℕ} {f : ℕ → τ} (hn : 0 < n) (hf : f n = f 0)
    (hw : ∀ k < n, T.Waits (f k) (f (k + 1))) : T.Deadlocked := by
  have hchain : ∀ m, 0 < m → m ≤ n → TransGen T.Waits (f 0) (f m) := by
    intro m hm hmn
    induction m, hm using Nat.le_induction with
    | base => exact .single (hw 0 hn)
    | succ m _ ih => exact (ih (by omega)).tail (hw m (by omega))
  exact ⟨f 0, by simpa only [hf] using hchain n hn le_rfl⟩

end LockTable
