import VmkitCore.ObjectModel.PendingFinalizers

/-! # Finalizers that do not revive

A drop finalizer only wants to know that its object is gone. The loop over the registered
finalizers traces the object of each one that it queues, without a look at its kind.
-/

namespace VmkitCore.Finalization

variable {κ : Type*}

def FinalizerKind.isUnordered : FinalizerKind κ → Bool
  | .unordered _ => true
  | _ => false

def FinalizerKind.isDrop : FinalizerKind κ → Bool
  | .drop _ => true
  | _ => false

/-- What the loop does with one entry. -/
structure Visit (κ : Type*) where
  entry : Finalizer κ
  /-- When the loop comes to the entry. -/
  isReachable : Bool
  registered : List (Finalizer κ)
  queued : List (Finalizer κ)
  /-- The arguments of `trace_object`. -/
  traced : List VMKitObject

namespace Collection

variable (c : Collection) (r : VMKitObject → Bool)

def visit (f : Finalizer κ) : Visit κ :=
  if f.object = .null then ⟨f, r f.object, [], [], []⟩
  else if r f.object then ⟨f, true, [{ f with object := c.forward f.object }], [], []⟩
  else ⟨f, false, [], [{ f with object := c.forward f.object }], [f.object]⟩

/-- One visit for each entry, in the order of the loop. -/
def visits : (VMKitObject → Bool) → List (Finalizer κ) → List (Visit κ)
  | _, [] => []
  | r, f :: fs => c.visit r f :: visits ((c.visit r f).traced.foldl c.traceObject r) fs

variable {c r}

theorem visit_entry {f : Finalizer κ} : (c.visit r f).entry = f := by
  unfold visit
  split_ifs <;> rfl

theorem visit_queued_eq_nil {f : Finalizer κ} :
    (c.visit r f).queued = [] ↔ (c.visit r f).traced = [] := by
  unfold visit
  split_ifs <;> simp

theorem visit_traced_eq_nil {f : Finalizer κ} :
    (c.visit r f).traced = [] ↔ f.object = .null ∨ r f.object = true := by
  unfold visit
  split_ifs <;> simp [*]

/-- The loop is the visits one after the other. -/
theorem retain_eq_visits (r : VMKitObject → Bool) (l : List (Finalizer κ)) : c.retain r l =
    ((c.visits r l).flatMap (·.registered), (c.visits r l).flatMap (·.queued),
      ((c.visits r l).flatMap (·.traced)).foldl c.traceObject r) := by
  induction l generalizing r with
  | nil => rfl
  | cons f fs ih =>
    rw [retain, visits, visit]
    split_ifs <;> simp [ih]

/-- What is reached after the first entry and then the others. -/
theorem retain_cons_reachable {f : Finalizer κ} {l : List (Finalizer κ)} :
    (c.retain r (f :: l)).2.2 =
      (c.retain ((c.visit r f).traced.foldl c.traceObject r) l).2.2 := by
  simp only [retain_eq_visits, visits, List.flatMap_cons, List.foldl_append]

/-- Every visit is that of an entry, after the entries before it. -/
theorem mem_visits {v : Visit κ} {l : List (Finalizer κ)} : v ∈ c.visits r l ↔
    ∃ before f after, l = before ++ f :: after ∧ v = c.visit (c.retain r before).2.2 f := by
  induction l generalizing r with
  | nil => simp [visits]
  | cons g fs ih =>
    rw [visits, List.mem_cons, ih]
    constructor
    · rintro (rfl | ⟨before, f, after, rfl, rfl⟩)
      · exact ⟨[], g, fs, rfl, rfl⟩
      · exact ⟨g :: before, f, after, rfl, by rw [retain_cons_reachable]⟩
    · rintro ⟨_ | ⟨g', before⟩, f, after, h, rfl⟩
      · obtain ⟨rfl, rfl⟩ := List.cons.inj h
        exact .inl rfl
      · obtain ⟨rfl, rfl⟩ := List.cons.inj h
        exact .inr ⟨before, f, after, rfl, by rw [retain_cons_reachable]⟩

end Collection

/-- Only unordered finalizers revive their objects; drop finalizers are queued all the same. -/
structure RevivesUnordered (s : State κ) (c : Collection) (r : VMKitObject → Bool) : Prop where
  isUnordered : ∀ v ∈ c.visits r s.registered, v.traced ≠ [] →
    v.entry.finalizer.isUnordered = true
  /-- A visit adds one entry to the pending ones, and the entry does not stay. -/
  moved : ∀ v ∈ c.visits r s.registered, v.entry.finalizer.isDrop = true →
    v.entry.object ≠ .null → v.isReachable = false →
    v.registered = [] ∧ ∃ o, v.queued = [{ v.entry with object := o }]
  registered_eq : (s.process c r).1.registered = (c.visits r s.registered).flatMap (·.registered)
  pending_eq : (s.process c r).1.pending =
    s.pending ++ (c.visits r s.registered).flatMap (·.queued)
  closure_iff : (s.process c r).2.2 = true ↔
    ∃ v ∈ c.visits r s.registered, v.entry.finalizer.isUnordered = true ∧ v.traced ≠ []

variable {c : Collection} {r : VMKitObject → Bool} {s : State κ} {l : List (Finalizer κ)}

theorem visit_moved {f : Finalizer κ} (hn : f.object ≠ .null)
    (h : (c.visit r f).isReachable = false) :
    (c.visit r f).registered = [] ∧ ∃ o, (c.visit r f).queued = [{ f with object := o }] := by
  unfold Collection.visit at h ⊢
  split_ifs at h ⊢
  · exact absurd ‹_› hn
  · exact ⟨rfl, _, rfl⟩

/-- Something is queued if and only if something is traced. -/
theorem process_closure : (s.process c r).2.2 = true ↔
    ∃ v ∈ c.visits r s.registered, v.traced ≠ [] := by
  have hqueued : ∀ v ∈ c.visits r s.registered, (v.queued ≠ [] ↔ v.traced ≠ []) := by
    intro v hv
    obtain ⟨before, f, after, -, rfl⟩ := Collection.mem_visits.mp hv
    exact not_congr Collection.visit_queued_eq_nil
  rw [State.process, Collection.retain_eq_visits]
  dsimp only
  rw [Bool.not_eq_true', List.isEmpty_eq_false_iff, ne_eq, List.flatMap_eq_nil_iff]
  push Not
  exact exists_congr fun v => and_congr_right fun hv => hqueued v hv

/-- Nothing but the kinds of the traced entries can go wrong. -/
theorem revivesUnordered_iff : RevivesUnordered s c r ↔
    ∀ v ∈ c.visits r s.registered, v.traced ≠ [] → v.entry.finalizer.isUnordered = true := by
  refine ⟨fun h => h.isUnordered, fun h => ⟨h, fun v hv _ hn hr => ?_, ?_, ?_, ?_⟩⟩
  · obtain ⟨before, f, after, -, rfl⟩ := Collection.mem_visits.mp hv
    rw [Collection.visit_entry] at hn ⊢
    exact visit_moved hn hr
  · rw [State.process, Collection.retain_eq_visits]
  · rw [State.process, Collection.retain_eq_visits]
  · rw [process_closure]
    refine exists_congr fun v => and_congr_right fun hv => ?_
    exact ⟨fun ht => ⟨h v hv ht, ht⟩, fun ht => ht.2⟩

/--
Processing revives nothing for a drop finalizer exactly if the object of each one is reached
from the roots, or is that of an entry further to the front.
-/
theorem revives_unordered_iff {objectAt : VMKitObject → Option ℕ} (hv : c.Valid objectAt)
    (hr : c.Closed r) : RevivesUnordered s c r ↔
    ∀ before f after, s.registered = before ++ f :: after → f.object ≠ .null →
      f.finalizer.isUnordered = false → r f.object = true ∨
        ∃ g ∈ before, g.object ≠ .null ∧
          (f.object = g.object ∨ f.object = c.forward g.object) := by
  rw [revivesUnordered_iff]
  constructor
  · intro h before f after hsplit hn hkind
    rw [← (retain_reachable hv hr).2]
    have hvisit := h _ (Collection.mem_visits.mpr ⟨before, f, after, hsplit, rfl⟩)
    rw [Collection.visit_entry, hkind] at hvisit
    have htraced := Decidable.of_not_not (mt hvisit Bool.false_ne_true)
    exact (Collection.visit_traced_eq_nil.mp htraced).resolve_left hn
  · intro h v hmem htraced
    obtain ⟨before, f, after, hsplit, rfl⟩ := Collection.mem_visits.mp hmem
    rw [Collection.visit_entry]
    rw [ne_eq, Collection.visit_traced_eq_nil, not_or] at htraced
    by_contra hkind
    have hreached := h before f after hsplit htraced.1 (Bool.eq_false_of_not_eq_true hkind)
    exact htraced.2 (((retain_reachable hv hr).2 _).mpr hreached)

/-- The first entry revives the object, for which the second one then stays registered. -/
theorem revives_unordered_behind : RevivesUnordered
    (State.mk (fun _ => none) 1 [⟨⟨8⟩, .unordered (), none⟩, ⟨⟨8⟩, .drop (), none⟩] [] [])
    (.still fun _ => false) (fun _ => false) := by
  refine (revives_unordered_iff (Collection.still_valid (h := fun _ => none) _)
    (fun o h => absurd h Bool.false_ne_true)).mpr ?_
  rintro (_ | ⟨g, _ | ⟨g', before⟩⟩) f after h - hkind
  · cases h
    cases hkind
  · cases h
    exact .inr ⟨_, List.mem_cons_self, by decide, .inl rfl⟩
  · simp at h

/-- A drop finalizer on its own revives its object. -/
theorem drop_finalizer_revives : ¬ ∀ (s : State Unit) (c : Collection) (r : VMKitObject → Bool)
    (objectAt : VMKitObject → Option ℕ), c.Valid objectAt → c.Closed r →
    RevivesUnordered s c r := by
  intro h
  have hrevives := h (State.mk (fun _ => none) 1 [⟨⟨8⟩, .drop (), none⟩] [] [])
    (.still fun _ => false) (fun _ => false) (fun _ => none) (Collection.still_valid _)
    (fun o h => absurd h Bool.false_ne_true)
  exact absurd (hrevives.isUnordered _ List.mem_cons_self (List.cons_ne_nil _ _)) (by decide)

end VmkitCore.Finalization
