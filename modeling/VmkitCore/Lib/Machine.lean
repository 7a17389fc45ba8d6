import Mathlib.Logic.Function.Basic
import Mathlib.Data.List.Basic

/-! # Labelled machines

A machine has initial states and a partial step for every label. Reachability
may be restricted to steps that meet a condition, so a fact about one step
becomes a fact about every run whose steps all meet it.
-/

/-- A transition system whose step is a partial function of the state and the label. -/
structure Machine (σ α : Type*) where
  init : σ → Prop
  step : σ → α → Option σ

namespace Machine

variable {σ α : Type*} {M : Machine σ α} {C D : σ → α → Prop} {s s' : σ}

/-- States reached from an initial state by steps that all meet the condition. -/
inductive ReachableUnder (M : Machine σ α) (C : σ → α → Prop) : σ → Prop
  | init {s : σ} : M.init s → ReachableUnder M C s
  | step {s s' : σ} {a : α} : ReachableUnder M C s → C s a → M.step s a = some s' →
      ReachableUnder M C s'

/-- States reached by any run. -/
abbrev Reachable (M : Machine σ α) : σ → Prop := M.ReachableUnder fun _ _ => True

theorem ReachableUnder.mono (hCD : ∀ s a, C s a → D s a) (h : M.ReachableUnder C s) :
    M.ReachableUnder D s := by
  induction h with
  | init h => exact .init h
  | step _ hc hs ih => exact .step ih (hCD _ _ hc) hs

theorem Reachable.next {a : α} (h : M.Reachable s) (hs : M.step s a = some s') :
    M.Reachable s' :=
  .step h trivial hs

/-- An invariant established initially and kept by every step holds of every reachable state. -/
theorem ReachableUnder.invariant {I : σ → Prop} (hinit : ∀ s, M.init s → I s)
    (hstep : ∀ s a s', I s → C s a → M.step s a = some s' → I s')
    (h : M.ReachableUnder C s) : I s := by
  induction h with
  | init h => exact hinit _ h
  | step _ hc hs ih => exact hstep _ _ _ ih hc hs

/-- Run the machine along a list of labels. -/
def exec (M : Machine σ α) (s : σ) : List α → Option σ
  | [] => some s
  | a :: l => (M.step s a).bind fun s' => M.exec s' l

@[simp] theorem exec_nil : M.exec s [] = some s := rfl

theorem exec_cons_eq_some {a : α} {l : List α} :
    M.exec s (a :: l) = some s' ↔ ∃ t, M.step s a = some t ∧ M.exec t l = some s' := by
  simp [exec, Option.bind_eq_some_iff]

/-- A run whose labels are all of one kind leads from the first state to the second. -/
def Leads (M : Machine σ α) (A : α → Prop) (s s' : σ) : Prop :=
  ∃ l, (∀ a ∈ l, A a) ∧ M.exec s l = some s'

variable {A : α → Prop}

theorem Leads.refl : M.Leads A s s := ⟨[], nofun, rfl⟩

theorem Leads.head {a : α} {t : σ} (ha : A a) (hs : M.step s a = some t) (h : M.Leads A t s') :
    M.Leads A s s' := by
  obtain ⟨l, hl, hr⟩ := h
  exact ⟨a :: l, List.forall_mem_cons.mpr ⟨ha, hl⟩, exec_cons_eq_some.mpr ⟨t, hs, hr⟩⟩

/-- Run the machine along a list of labels, as far as the steps meet the condition. -/
def checkedExec (M : Machine σ α) (C : σ → α → Prop) [∀ s a, Decidable (C s a)] (s : σ) :
    List α → Option σ
  | [] => some s
  | a :: l => if C s a then (M.step s a).bind fun s' => M.checkedExec C s' l else none

theorem ReachableUnder.checkedExec [∀ s a, Decidable (C s a)] {l : List α}
    (h : M.ReachableUnder C s) (hl : M.checkedExec C s l = some s') : M.ReachableUnder C s' := by
  induction l generalizing s with
  | nil => cases hl; exact h
  | cons a l ih =>
    rw [Machine.checkedExec] at hl
    split at hl
    · next hc =>
      obtain ⟨t, hs, hl⟩ := Option.bind_eq_some_iff.mp hl
      exact ih (.step h hc hs) hl
    · cases hl

/-- The property holds in the start state and after every step of the run. -/
def Always (M : Machine σ α) (P : σ → Prop) : σ → List α → Prop
  | s, [] => P s
  | s, a :: l => P s ∧ ∀ s', M.step s a = some s' → M.Always P s' l

/-- Every step the run takes meets the condition in the state before it. -/
def Meets (M : Machine σ α) (C : σ → α → Prop) : σ → List α → Prop
  | _, [] => True
  | s, a :: l => ∀ s', M.step s a = some s' → C s a ∧ M.Meets C s' l

theorem Always.start {P : σ → Prop} {l : List α} (h : M.Always P s l) : P s := by
  cases l with
  | nil => exact h
  | cons _ _ => exact h.1

theorem meets_of_mem {l : List α} (h : ∀ a ∈ l, ∀ s, C s a) : M.Meets C s l := by
  induction l generalizing s with
  | nil => trivial
  | cons a l ih =>
    exact fun s' _ => ⟨h a List.mem_cons_self s, ih fun b hb => h b (List.mem_cons_of_mem _ hb)⟩

theorem meets_of_checkedExec [∀ s a, Decidable (C s a)] {l : List α}
    (h : M.checkedExec C s l = some s') : M.Meets C s l := by
  induction l generalizing s with
  | nil => trivial
  | cons a l ih =>
    obtain ⟨hc, h⟩ := Option.ite_none_right_eq_some.mp h
    obtain ⟨t, hs, h⟩ := Option.bind_eq_some_iff.mp h
    intro t' ht'
    cases hs.symm.trans ht'
    exact ⟨hc, ih h⟩

/-- What always holds in a run holds at its end. -/
theorem Always.last {P : σ → Prop} {l : List α} (h : M.Always P s l)
    (hs : M.exec s l = some s') : P s' := by
  induction l generalizing s with
  | nil => cases hs; exact h
  | cons a l ih =>
    obtain ⟨t, ht, hs⟩ := exec_cons_eq_some.mp hs
    exact ih (h.2 t ht) hs

/--
If a valid step from a state with the property keeps it exactly when the step meets the
condition, then a valid run keeps the property throughout exactly when all its steps meet it.
-/
theorem always_iff_meets_of_meets {V : σ → α → Prop} {J P : σ → Prop}
    (hJ : ∀ s a s', J s → V s a → M.step s a = some s' → J s')
    (hP : ∀ s a s', J s → V s a → P s → M.step s a = some s' → (P s' ↔ C s a))
    {l : List α} (hv : M.Meets V s l) (hj : J s) (hp : P s) :
    M.Always P s l ↔ M.Meets C s l := by
  induction l generalizing s with
  | nil => simp [Always, Meets, hp]
  | cons a l ih =>
    constructor
    · intro h s' hs
      obtain ⟨hva, hvl⟩ := hv s' hs
      have hp' := (h.2 s' hs).start
      exact ⟨(hP s a s' hj hva hp hs).mp hp', (ih hvl (hJ s a s' hj hva hs) hp').mp (h.2 s' hs)⟩
    · intro h
      refine ⟨hp, fun s' hs => ?_⟩
      obtain ⟨hva, hvl⟩ := hv s' hs
      obtain ⟨hc, hm⟩ := h s' hs
      exact (ih hvl (hJ s a s' hj hva hs) ((hP s a s' hj hva hp hs).mpr hc)).mpr hm

theorem always_iff_meets {J P : σ → Prop}
    (hJ : ∀ s a s', J s → M.step s a = some s' → J s')
    (hP : ∀ s a s', J s → P s → M.step s a = some s' → (P s' ↔ C s a))
    {l : List α} (hj : J s) (hp : P s) : M.Always P s l ↔ M.Meets C s l :=
  always_iff_meets_of_meets (V := fun _ _ => True) (fun s a s' hj _ => hJ s a s' hj)
    (fun s a s' hj _ => hP s a s' hj) (meets_of_mem fun _ _ _ => trivial) hj hp

/--
If the condition keeps an invariant that gives the property, and a step from the invariant leads
to the property only when it meets the condition, then a run keeps the property throughout
exactly when all its steps meet the condition.
-/
theorem always_iff_meets_of_kept {I P : σ → Prop}
    (hI : ∀ s a s', I s → C s a → M.step s a = some s' → I s') (hIP : ∀ s, I s → P s)
    (hC : ∀ s a s', I s → M.step s a = some s' → P s' → C s a)
    {l : List α} (hi : I s) : M.Always P s l ↔ M.Meets C s l := by
  induction l generalizing s with
  | nil => exact ⟨fun _ => trivial, fun _ => hIP s hi⟩
  | cons a l ih =>
    constructor
    · intro h s' hs
      have hc := hC s a s' hi hs (h.2 s' hs).start
      exact ⟨hc, (ih (hI s a s' hi hc hs)).mp (h.2 s' hs)⟩
    · intro h
      refine ⟨hIP s hi, fun s' hs => ?_⟩
      obtain ⟨hc, hm⟩ := h s' hs
      exact (ih (hI s a s' hi hc hs)).mpr hm

/-- The same with an invariant that holds whether or not steps meet the condition. -/
theorem always_iff_meets_of_invariant {J I P : σ → Prop}
    (hJ : ∀ s a s', J s → M.step s a = some s' → J s')
    (hI : ∀ s a s', J s → I s → C s a → M.step s a = some s' → I s') (hIP : ∀ s, I s → P s)
    (hC : ∀ s a s', J s → M.step s a = some s' → P s' → C s a)
    {l : List α} (hj : J s) (hi : I s) : M.Always P s l ↔ M.Meets C s l :=
  always_iff_meets_of_kept (I := fun s => J s ∧ I s)
    (fun s a s' h hc hs => ⟨hJ s a s' h.1 hs, hI s a s' h.1 h.2 hc hs⟩) (fun s h => hIP s h.2)
    (fun s a s' h => hC s a s' h.1) ⟨hj, hi⟩

end Machine
