import VmkitCore.Lib.Simulation

/-! # Stores

A store has a value for every key, of a type of its own. Of many writes to a key the last one
counts. A property that some steps establish and others destroy depends on the last such step.
-/

namespace Store

variable {ι : Type*} [DecidableEq ι] {V : ι → Type*}

def write (s : ∀ i, V i) (w : Σ i, V i) : ∀ i, V i := Function.update s w.1 w.2

/-- Writes, one after the other. -/
def writes (s : ∀ i, V i) (l : List (Σ i, V i)) : ∀ i, V i := l.foldl write s

/-- The machine whose steps are writes. -/
def machine (V : ι → Type*) : Machine (∀ i, V i) (Σ i, V i) where
  init _ := True
  step s w := some (write s w)

variable {s : ∀ i, V i} {l : List (Σ i, V i)}

theorem exec_machine : (machine V).exec s l = some (writes s l) := by
  induction l generalizing s with
  | nil => rfl
  | cons w l ih => exact ih

section Last

variable {σ α : Type*} {step : σ → α → σ} {P : σ → Prop} {A R : α → Prop} {s : σ} {l : List α}

/-- A step establishes the property, and none destroys it afterwards. -/
def Last (A R : α → Prop) (l : List α) : Prop :=
  ∃ before a after, l = before ++ a :: after ∧ A a ∧ ∀ b ∈ after, ¬ R b

theorem last_cons {a : α} : Last A R (a :: l) ↔ (A a ∧ ∀ b ∈ l, ¬ R b) ∨ Last A R l := by
  constructor
  · rintro ⟨before, x, after, h, hx, hafter⟩
    cases before with
    | nil =>
      cases h
      exact .inl ⟨hx, hafter⟩
    | cons b before =>
      cases h
      exact .inr ⟨before, x, after, rfl, hx, hafter⟩
  · rintro (⟨ha, hl⟩ | ⟨before, x, after, rfl, hx, hafter⟩)
    · exact ⟨[], a, l, rfl, ha, hl⟩
    · exact ⟨a :: before, x, after, rfl, hx, hafter⟩

/-- The property holds after the steps if it was established last, or never destroyed. -/
theorem foldl_iff_last (hstep : ∀ s a, P (step s a) ↔ A a ∨ P s ∧ ¬ R a) :
    P (l.foldl step s) ↔ Last A R l ∨ P s ∧ ∀ b ∈ l, ¬ R b := by
  induction l generalizing s with
  | nil =>
    refine ⟨fun h => .inr ⟨h, by simp⟩, ?_⟩
    rintro (⟨before, a, after, h, -⟩ | ⟨h, -⟩)
    · exact absurd h (by simp)
    · exact h
  | cons a l ih =>
    rw [List.foldl_cons, ih, hstep, last_cons, List.forall_mem_cons]
    tauto

end Last

end Store
