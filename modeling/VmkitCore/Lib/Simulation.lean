import VmkitCore.Lib.Machine

/-! # Simulations

A machine simulates another one along a relation between their states, if every step from
related states is answered by a run of the other machine that leads to related states again.
The answer may be empty, and it may depend on the state.
-/

namespace Machine

variable {σ τ α β : Type*} {M : Machine σ α} {A : Machine τ β} {C : σ → α → Prop}
  {R : σ → τ → Prop} {f : σ → α → List β} {s s' : σ} {t t' : τ}

theorem exec_append {l l' : List α} :
    M.exec s (l ++ l') = (M.exec s l).bind fun s' => M.exec s' l' := by
  induction l generalizing s with
  | nil => rfl
  | cons a l ih =>
    cases hs : M.step s a with
    | none => simp [exec, hs]
    | some s' => simpa [exec, hs] using ih

theorem exec_singleton {a : α} : M.exec s [a] = M.step s a := by
  cases hs : M.step s a <;> simp [exec, hs]

/-- Runs lead from reachable states to reachable states. -/
theorem ReachableUnder.exec {l : List α} (h : M.ReachableUnder C s) (hl : M.Meets C s l)
    (hs : M.exec s l = some s') : M.ReachableUnder C s' := by
  induction l generalizing s with
  | nil =>
    cases hs
    exact h
  | cons a l ih =>
    obtain ⟨s₁, ha, hs⟩ := exec_cons_eq_some.mp hs
    obtain ⟨hc, hl⟩ := hl s₁ ha
    exact ih (.step h hc ha) hl hs

theorem Reachable.exec {l : List α} (h : M.Reachable s) (hs : M.exec s l = some s') :
    M.Reachable s' := ReachableUnder.exec h (meets_of_mem fun _ _ _ => trivial) hs

/-- The answers to the steps of a run. -/
def answers (M : Machine σ α) (f : σ → α → List β) : σ → List α → List β
  | _, [] => []
  | s, a :: l => f s a ++ (M.step s a).elim [] fun s' => M.answers f s' l

theorem answers_cons {a : α} {l : List α} (hs : M.step s a = some s') :
    M.answers f s (a :: l) = f s a ++ M.answers f s' l := by
  rw [answers, hs]
  rfl

/-- Answers that do not depend on the state. -/
theorem answers_const {g : α → List β} {l : List α} (hs : M.exec s l = some s') :
    M.answers (fun _ => g) s l = l.flatMap g := by
  induction l generalizing s with
  | nil => rfl
  | cons a l ih =>
    obtain ⟨s₁, hs₁, hs⟩ := exec_cons_eq_some.mp hs
    rw [answers_cons hs₁, ih hs, List.flatMap_cons]

/-- Steps of `M` that meet the condition are answered by runs of `A`, along `R`. -/
structure Simulates (A : Machine τ β) (M : Machine σ α) (C : σ → α → Prop) (f : σ → α → List β)
    (R : σ → τ → Prop) : Prop where
  step : ∀ s t a s', R s t → C s a → M.step s a = some s' →
    ∃ t', A.exec t (f s a) = some t' ∧ R s' t'

/-- Runs are answered by the answers to their steps. -/
theorem Simulates.exec (h : A.Simulates M C f R) (hr : R s t) {l : List α} (hl : M.Meets C s l)
    (hs : M.exec s l = some s') : ∃ t', A.exec t (M.answers f s l) = some t' ∧ R s' t' := by
  induction l generalizing s t with
  | nil =>
    cases hs
    exact ⟨t, rfl, hr⟩
  | cons a l ih =>
    obtain ⟨s₁, hs₁, hs⟩ := exec_cons_eq_some.mp hs
    obtain ⟨hc, hl⟩ := hl s₁ hs₁
    obtain ⟨t₁, ht₁, hr₁⟩ := h.step s t a s₁ hr hc hs₁
    obtain ⟨t', ht', hr'⟩ := ih hr₁ hl hs
    refine ⟨t', ?_, hr'⟩
    rw [answers_cons hs₁, exec_append, ht₁]
    exact ht'

end Machine
