import Mathlib.Algebra.GroupWithZero.Nat
import VmkitCore.Lib.Machine

/-! # Reentrant locks

A thread that holds the lock may lock it again, and unlocks it as often. It may also give all of
its levels up at once, and take them back when the lock is free. Each operation is one step.
-/

structure ReentrantLock (τ : Type*) where
  /-- The holder, with its levels above the first one. -/
  held : Option (τ × ℕ)
  /-- What the threads have given up and not taken back, the latest first. -/
  givenUp : τ → List ℕ

namespace ReentrantLock

inductive Label (τ : Type*)
  | lock (t : τ) | unlock (t : τ) | giveUp (t : τ) | takeBack (t : τ)
  deriving DecidableEq, Repr

variable {τ : Type*}

/-- Nobody has locked it. -/
def new : ReentrantLock τ := ⟨none, fun _ => []⟩

variable [DecidableEq τ] {s s' : ReentrantLock τ} {t : τ}

def step (s : ReentrantLock τ) : Label τ → Option (ReentrantLock τ)
  | .lock t =>
    match s.held with
    | none => some { s with held := some (t, 0) }
    | some (u, n) => if u = t then some { s with held := some (t, n + 1) } else none
  | .unlock t =>
    match s.held with
    | none => none
    | some (u, 0) => if u = t then some { s with held := none } else none
    | some (u, n + 1) => if u = t then some { s with held := some (t, n) } else none
  | .giveUp t =>
    match s.held with
    | none => none
    | some (u, n) =>
      if u = t then some ⟨none, Function.update s.givenUp t (n :: s.givenUp t)⟩ else none
  | .takeBack t =>
    match s.held, s.givenUp t with
    | none, n :: ns => some ⟨some (t, n), Function.update s.givenUp t ns⟩
    | _, _ => none

theorem step_lock : s.step (.lock t) = some s' ↔
    s.held = none ∧ s' = { s with held := some (t, 0) } ∨
      ∃ n, s.held = some (t, n) ∧ s' = { s with held := some (t, n + 1) } := by
  cases hh : s.held with
  | none => simp [step, hh, eq_comm]
  | some p => grind [step]

theorem step_unlock : s.step (.unlock t) = some s' ↔
    s.held = some (t, 0) ∧ s' = { s with held := none } ∨
      ∃ n, s.held = some (t, n + 1) ∧ s' = { s with held := some (t, n) } := by
  cases hh : s.held with
  | none => simp [step, hh]
  | some p => grind [step]

theorem step_giveUp : s.step (.giveUp t) = some s' ↔
    ∃ n, s.held = some (t, n) ∧
      s' = ⟨none, Function.update s.givenUp t (n :: s.givenUp t)⟩ := by
  cases hh : s.held with
  | none => simp [step, hh]
  | some p => grind [step]

theorem step_takeBack : s.step (.takeBack t) = some s' ↔
    ∃ n ns, s.held = none ∧ s.givenUp t = n :: ns ∧
      s' = ⟨some (t, n), Function.update s.givenUp t ns⟩ := by
  cases hh : s.held with
  | none => cases hn : s.givenUp t <;> simp [step, hh, hn, eq_comm]
  | some p => simp [step, hh]

def machine (τ : Type*) [DecidableEq τ] : Machine (ReentrantLock τ) (Label τ) where
  init s := s = new
  step := step

/-- The levels that a thread holds. -/
def levels (s : ReentrantLock τ) (t : τ) : ℕ :=
  match s.held with
  | none => 0
  | some (u, n) => if u = t then n + 1 else 0

/-- All levels of a thread, those it has given up included. -/
def total (s : ReentrantLock τ) (t : τ) : ℕ := s.levels t + ((s.givenUp t).map (· + 1)).sum

/-- Locking adds a level to those of the thread, and unlocking takes one away. -/
theorem total_step {a : Label τ} (hs : s.step a = some s') (t : τ) :
    s'.total t + [a].count (.unlock t) = s.total t + [a].count (.lock t) := by
  cases a with
  | lock u =>
    by_cases hu : u = t
    · subst hu
      obtain ⟨hh, rfl⟩ | ⟨n, hh, rfl⟩ := step_lock.mp hs
      · simp [total, levels, hh]
        omega
      · simp [total, levels, hh]
        omega
    · obtain ⟨hh, rfl⟩ | ⟨n, hh, rfl⟩ := step_lock.mp hs <;> simp [total, levels, hh, hu]
  | unlock u =>
    by_cases hu : u = t
    · subst hu
      obtain ⟨hh, rfl⟩ | ⟨n, hh, rfl⟩ := step_unlock.mp hs
      · simp [total, levels, hh]
        omega
      · simp [total, levels, hh]
        omega
    · obtain ⟨hh, rfl⟩ | ⟨n, hh, rfl⟩ := step_unlock.mp hs <;> simp [total, levels, hh, hu]
  | giveUp u =>
    obtain ⟨n, hh, rfl⟩ := step_giveUp.mp hs
    by_cases hu : u = t
    · subst hu
      simp [total, levels, hh]
    · simp [total, levels, hh, hu, Function.update_of_ne (Ne.symm hu)]
  | takeBack u =>
    obtain ⟨n, ns, hh, hn, rfl⟩ := step_takeBack.mp hs
    by_cases hu : u = t
    · subst hu
      simp [total, levels, hh, hn]
    · simp [total, levels, hh, hu, Function.update_of_ne (Ne.symm hu)]

/-- A thread has locked the lock as often as it has unlocked it, but for its levels. -/
theorem total_exec {l : List (Label τ)} (hs : (machine τ).exec s l = some s') (t : τ) :
    s'.total t + l.count (.unlock t) = s.total t + l.count (.lock t) := by
  induction l generalizing s with
  | nil =>
    cases hs
    rfl
  | cons a l ih =>
    obtain ⟨s₁, hs₁, hs⟩ := Machine.exec_cons_eq_some.mp hs
    have hstep := total_step hs₁ t
    have hrun := ih hs
    rw [List.count_cons, List.count_cons]
    simp only [List.count_singleton] at hstep
    omega

end ReentrantLock
