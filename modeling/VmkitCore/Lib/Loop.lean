import Mathlib.Data.Sum.Basic
import Mathlib.Data.Nat.Basic

/-! # Loops that may not end

A loop body continues with a new state or leaves with a result. A loop returns when
some number of rounds leaves it, which happens with one result at most. A loop whose
body always continues inside an invariant never returns.
-/

/-- Run a loop body for at most the given number of rounds. -/
def runLoop {σ ρ : Type*} (body : σ → σ ⊕ ρ) : ℕ → σ → Option ρ
  | 0, _ => none
  | n + 1, s =>
    match body s with
    | .inl s' => runLoop body n s'
    | .inr r => some r

namespace Loop

variable {σ ρ : Type*} {body : σ → σ ⊕ ρ} {s s' : σ} {r r' : ρ}

/-- The loop leaves with the result after finitely many rounds. -/
def Returns (body : σ → σ ⊕ ρ) (s : σ) (r : ρ) : Prop := ∃ fuel, runLoop body fuel s = some r

def Terminates (body : σ → σ ⊕ ρ) (s : σ) : Prop := ∃ r, Returns body s r

theorem returns_of_inr (h : body s = .inr r) : Returns body s r' ↔ r' = r := by
  constructor
  · rintro ⟨_ | n, hn⟩
    · cases hn
    · simpa [runLoop, h, eq_comm] using hn
  · rintro rfl
    exact ⟨1, by simp [runLoop, h]⟩

theorem returns_of_inl (h : body s = .inl s') : Returns body s r ↔ Returns body s' r := by
  constructor
  · rintro ⟨_ | n, hn⟩
    · cases hn
    · exact ⟨n, by simpa [runLoop, h] using hn⟩
  · rintro ⟨n, hn⟩
    exact ⟨n + 1, by simpa [runLoop, h] using hn⟩

theorem Returns.unique (h : Returns body s r) (h' : Returns body s r') : r = r' := by
  obtain ⟨n, hn⟩ := h
  induction n generalizing s with
  | zero => cases hn
  | succ n ih =>
    cases hb : body s with
    | inl t => exact ih ((returns_of_inl hb).mp h') (by simpa [runLoop, hb] using hn)
    | inr q =>
      have hq : q = r := by simpa [runLoop, hb] using hn
      exact hq.symm.trans ((returns_of_inr hb).mp h').symm

theorem terminates_of_inr (h : body s = .inr r) : Terminates body s :=
  ⟨r, (returns_of_inr h).mpr rfl⟩

theorem terminates_of_inl (h : body s = .inl s') : Terminates body s ↔ Terminates body s' :=
  exists_congr fun _ => returns_of_inl h

/-- A property of the states a loop leaves from that goes back along its rounds. -/
theorem Terminates.induction {P : σ → Prop} (hleave : ∀ s r, body s = .inr r → P s)
    (hback : ∀ s s', body s = .inl s' → P s' → P s) (h : Terminates body s) : P s := by
  obtain ⟨r, n, hn⟩ := h
  induction n generalizing s with
  | zero => cases hn
  | succ n ih =>
    cases hb : body s with
    | inl s' => exact hback s s' hb (ih (by simpa [runLoop, hb] using hn))
    | inr r' => exact hleave s r' hb

/-- What every round keeps holds where the loop leaves. -/
theorem Returns.invariant {I : σ → Prop} {Q : ρ → Prop}
    (hround : ∀ s s', I s → body s = .inl s' → I s') (hleave : ∀ s r, I s → body s = .inr r → Q r)
    (hs : I s) (h : Returns body s r) : Q r := by
  obtain ⟨n, hn⟩ := h
  induction n generalizing s with
  | zero => cases hn
  | succ n ih =>
    cases hb : body s with
    | inl s' => exact ih (hround s s' hs hb) (by simpa [runLoop, hb] using hn)
    | inr q =>
      obtain rfl : q = r := by simpa [runLoop, hb] using hn
      exact hleave s q hs hb

/-- Two bodies that agree inside an invariant return the same from there. -/
theorem returns_congr {I : σ → Prop} {body' : σ → σ ⊕ ρ} (hbody : ∀ s, I s → body s = body' s)
    (hround : ∀ s s', I s → body s = .inl s' → I s') (hs : I s) :
    Returns body s r ↔ Returns body' s r := by
  refine exists_congr fun n => ?_
  have hrun : runLoop body n s = runLoop body' n s := by
    induction n generalizing s with
    | zero => rfl
    | succ n ih =>
      rw [runLoop, runLoop, ← hbody s hs]
      cases hb : body s with
      | inl s' => exact ih (hround s s' hs hb)
      | inr r' => rfl
  rw [hrun]

/-- A loop whose rounds decrease a measure leaves within that many rounds. -/
theorem exists_runLoop_of_decreasing (f : σ → ℕ) (h : ∀ s s', body s = .inl s' → f s' < f s)
    {n : ℕ} (hn : f s < n) : ∃ r, runLoop body n s = some r := by
  induction n generalizing s with
  | zero => exact absurd hn (Nat.not_lt_zero _)
  | succ n ih =>
    cases hb : body s with
    | inl s' =>
      obtain ⟨r, hr⟩ := ih (Nat.lt_of_lt_of_le (h s s' hb) (Nat.le_of_lt_succ hn))
      exact ⟨r, by simpa [runLoop, hb] using hr⟩
    | inr r => exact ⟨r, by simp [runLoop, hb]⟩

/-- A loop that always continues inside an invariant never leaves. -/
theorem not_terminates_of_invariant {I : σ → Prop}
    (hstep : ∀ s, I s → ∃ s', body s = .inl s' ∧ I s') (hs : I s) : ¬ Terminates body s := by
  intro h
  refine h.induction (P := fun s => ¬ I s) (fun s r hr hi => ?_) (fun s t ht hnot hi => ?_) hs
  · obtain ⟨s', hs', -⟩ := hstep s hi
    cases hr.symm.trans hs'
  · obtain ⟨s', hs', hi'⟩ := hstep s hi
    obtain rfl : t = s' := Sum.inl.inj (ht.symm.trans hs')
    exact hnot hi'

end Loop
