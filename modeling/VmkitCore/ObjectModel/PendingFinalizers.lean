import VmkitCore.ObjectModel.Finalization

/-! # Pending finalizers

A finalizer knows its object as long as it is registered, and when it is queued.
From then on no collection looks at it again.
-/

namespace VmkitCore.Finalization

variable {κ : Type*} {c : Collection} {h : VMKitObject → Option ℕ} {r : VMKitObject → Bool}
  {s s' : State κ} {f : Finalizer κ} {l : List (Finalizer κ)} {o x : VMKitObject}

/-- The reference of the finalizer is where its object is. -/
def Current (h : VMKitObject → Option ℕ) (f : Finalizer κ) : Prop :=
  ∃ n, h f.object = some n ∧ f.subject = some n

/-- In the middle of a collection, the reference is where the object will be. -/
def Settled (c : Collection) (h : VMKitObject → Option ℕ) (r : VMKitObject → Bool)
    (f : Finalizer κ) : Prop :=
  ∃ o n, c.forward o = f.object ∧ r o = true ∧ h o = some n ∧ f.subject = some n

/-- With a reached object its copy is reached. -/
def Collection.Closed (c : Collection) (r : VMKitObject → Bool) : Prop :=
  ∀ o, r o = true → r (c.forward o) = true

namespace Collection.Valid

theorem origin_eq_none (hv : c.Valid h) (ho : (h o).isSome) : c.origin o = none := by
  cases hx : c.origin o with
  | none => rfl
  | some x =>
    have hn := (hv.objectAt_forwarded x o ((hv.forwarded_iff x o).mpr hx)).2.1
    rw [hn] at ho
    cases ho

theorem forward_forward (hv : c.Valid h) (o : VMKitObject) :
    c.forward (c.forward o) = c.forward o := by
  unfold forward
  cases hx : c.getForwardedObject o with
  | none => simp [hx]
  | some x =>
    -- a copy is in free space, so it is not copied again
    have hn : c.getForwardedObject x = none := by
      cases hy : c.getForwardedObject x with
      | none => rfl
      | some y =>
        have hs := (hv.objectAt_forwarded x y hy).1
        rw [(hv.objectAt_forwarded o x hx).2.1] at hs
        cases hs
    simp [hn]

end Collection.Valid

theorem Settled.mono {r' : VMKitObject → Bool} (hf : Settled c h r f)
    (hr : ∀ o, r o = true → r' o = true) : Settled c h r' f := by
  obtain ⟨o, n, ho, hro, hn⟩ := hf
  exact ⟨o, n, ho, hr o hro, hn⟩

/-- After the collection a settled reference is where the object is. -/
theorem Settled.current (hv : c.Valid h) (hf : Settled c h r f) :
    Current (c.survivors r h) f := by
  obtain ⟨o, n, ho, hro, hn, hs⟩ := hf
  refine ⟨n, ?_, hs⟩
  rw [← ho, Collection.forward]
  cases hx : c.getForwardedObject o with
  | none =>
    simp [Collection.survivors, hv.origin_eq_none (by simp [hn] : (h o).isSome), hro, hx, hn]
  | some x => simp [Collection.survivors, (hv.forwarded_iff o x).mp hx, hro, hn]

theorem closed_traceObject (hv : c.Valid h) (hr : c.Closed r) : c.Closed (c.traceObject r o) := by
  intro x hx
  simp only [Collection.traceObject, Bool.or_eq_true, decide_eq_true_eq] at hx ⊢
  rcases hx with (hx | rfl) | rfl
  · exact .inl (.inl (hr x hx))
  · exact .inr rfl
  · exact .inr (hv.forward_forward o)

/-- What one pass over the registered finalizers reaches. -/
theorem retain_reachable (hv : c.Valid h) (hr : c.Closed r) :
    c.Closed (c.retain r l).2.2 ∧ ∀ x, (c.retain r l).2.2 x = true ↔ r x = true ∨
      ∃ f ∈ l, f.object ≠ .null ∧ (x = f.object ∨ x = c.forward f.object) := by
  induction l generalizing r with
  | nil => exact ⟨hr, fun x => by simp [Collection.retain]⟩
  | cons f fs ih =>
    rw [Collection.retain]
    by_cases hn : f.object = .null
    · simpa [hn] using ih hr
    by_cases hf : r f.object = true
    · simp only [hn, if_false, hf, if_true]
      refine ⟨(ih hr).1, fun x => ((ih hr).2 x).trans ?_⟩
      constructor
      · rintro (hx | ⟨g, hg, hgx⟩)
        · exact .inl hx
        · exact .inr ⟨g, List.mem_cons_of_mem _ hg, hgx⟩
      · rintro (hx | ⟨g, hg, hgn, hgx⟩)
        · exact .inl hx
        · rcases List.mem_cons.mp hg with rfl | hg
          · rcases hgx with rfl | rfl
            · exact .inl hf
            · exact .inl (hr _ hf)
          · exact .inr ⟨g, hg, hgn, hgx⟩
    · have ht := ih (closed_traceObject hv hr (o := f.object))
      simp only [hn, if_false, hf]
      refine ⟨ht.1, fun x => (ht.2 x).trans ?_⟩
      simp [Collection.traceObject, hn, or_assoc]

/-- A pass over the registered finalizers settles all that stay or are queued. -/
theorem retain_settled (hv : c.Valid h) (hr : c.Closed r)
    (hfs : ∀ f ∈ l, f.object = .null ∨ Current h f ∨ Settled c h r f) :
    ∀ f ∈ (c.retain r l).1 ++ (c.retain r l).2.1, Settled c h (c.retain r l).2.2 f := by
  induction l generalizing r with
  | nil => simp [Collection.retain]
  | cons f fs ih =>
    obtain ⟨hf, hfs⟩ := List.forall_mem_cons.mp hfs
    rw [Collection.retain]
    by_cases hn : f.object = .null
    · simpa [hn] using ih hr hfs
    by_cases hrf : r f.object = true
    · simp only [hn, if_false, hrf, if_true]
      have hmono := fun x hx => ((retain_reachable (l := fs) hv hr).2 x).mpr (.inl hx)
      refine List.forall_mem_cons.mpr ⟨Settled.mono ?_ hmono, ih hr hfs⟩
      rcases hf.resolve_left hn with ⟨n, hn, hs⟩ | ⟨o, n, ho, hro, hn, hs⟩
      · exact ⟨f.object, n, rfl, hrf, hn, hs⟩
      · exact ⟨o, n, by rw [← ho, hv.forward_forward], hro, hn, hs⟩
    · simp only [hn, if_false, hrf]
      have ht := closed_traceObject hv hr (o := f.object)
      have hmono := fun x hx => ((retain_reachable (l := fs) hv ht).2 x).mpr (.inl hx)
      have hsub : ∀ x, r x = true → c.traceObject r f.object x = true := fun x hx => by
        simp [Collection.traceObject, hx]
      have hfs' : ∀ g ∈ fs, g.object = .null ∨ Current h g ∨
          Settled c h (c.traceObject r f.object) g := fun g hg =>
        (hfs g hg).imp_right (.imp_right fun hs => hs.mono hsub)
      have hcur : Current h f := by
        -- a settled object has been reached already
        refine (hf.resolve_left hn).resolve_right ?_
        rintro ⟨o, n, ho, hro, -⟩
        exact hrf (ho ▸ hr o hro)
      obtain ⟨n, hn, hs⟩ := hcur
      have hnew : Settled c h (c.retain (c.traceObject r f.object) fs).2.2
          { f with object := c.forward f.object } :=
        ⟨f.object, n, rfl, hmono _ (by simp [Collection.traceObject]), hn, hs⟩
      intro g hg
      rcases List.mem_append.mp hg with hg | hg
      · exact ih ht hfs' g (List.mem_append.mpr (.inl hg))
      · rcases List.mem_cons.mp hg with rfl | hg
        · exact hnew
        · exact ih ht hfs' g (List.mem_append.mpr (.inr hg))

/-- In the middle of a collection that started from `s₀`. -/
structure Collecting (c : Collection) (s₀ s : State κ) (r : VMKitObject → Bool) : Prop where
  objectAt : s.objectAt = s₀.objectAt
  held : s.held = s₀.held
  closed : c.Closed r
  settled : ∀ f ∈ s.registered, Settled c s₀.objectAt r f
  pending : ∃ queued, s.pending = s₀.pending ++ queued ∧
    ∀ f ∈ queued, Settled c s₀.objectAt r f

theorem collecting_process {s₀ : State κ} (hv : c.Valid s₀.objectAt) (hr : c.Closed r)
    (hobj : s.objectAt = s₀.objectAt) (hheld : s.held = s₀.held)
    (hreg : ∀ f ∈ s.registered,
      f.object = .null ∨ Current s₀.objectAt f ∨ Settled c s₀.objectAt r f)
    (hpend : ∃ queued, s.pending = s₀.pending ++ queued ∧
      ∀ f ∈ queued, Settled c s₀.objectAt r f) :
    Collecting c s₀ (s.process c r).1 (s.process c r).2.1 := by
  have hall := retain_settled hv hr hreg
  obtain ⟨hclosed, hreach⟩ := retain_reachable (l := s.registered) hv hr
  obtain ⟨queued, hp, hq⟩ := hpend
  refine ⟨hobj, hheld, hclosed, fun f hf => hall f (List.mem_append.mpr (.inl hf)),
    queued ++ (c.retain r s.registered).2.1, by simp [State.process, hp], fun f hf => ?_⟩
  rcases List.mem_append.mp hf with hf | hf
  · exact (hq f hf).mono fun o ho => (hreach o).mpr (.inl ho)
  · exact hall f (List.mem_append.mpr (.inr hf))

/-- A further call of `process` finds all registered objects reached. -/
theorem Collecting.process {s₀ : State κ} (hc : Collecting c s₀ s r) (hv : c.Valid s₀.objectAt)
    {closure : VMKitObject → Bool} (hcl : c.Closed closure) :
    Collecting c s₀ (s.process c fun x => r x || closure x).1
      (s.process c fun x => r x || closure x).2.1 ∧
    ∀ o, (s.process c fun x => r x || closure x).2.1 o = true ↔ r o = true ∨ closure o = true := by
  have hclosed : c.Closed fun x => r x || closure x := by
    intro o ho
    simp only [Bool.or_eq_true] at ho ⊢
    exact ho.imp (hc.closed o) (hcl o)
  have hmono : ∀ o, r o = true → (r o || closure o) = true := fun o ho => by simp [ho]
  obtain ⟨queued, hp, hq⟩ := hc.pending
  refine ⟨collecting_process hv hclosed hc.objectAt hc.held
    (fun f hf => .inr (.inr ((hc.settled f hf).mono hmono)))
    ⟨queued, hp, fun f hf => (hq f hf).mono hmono⟩, fun o => ?_⟩
  refine ((retain_reachable hv hclosed).2 o).trans ?_
  simp only [Bool.or_eq_true]
  refine ⟨fun ho => ho.elim id ?_, .inl⟩
  rintro ⟨f, hf, -, hof⟩
  obtain ⟨o', n, ho', hro', -⟩ := hc.settled f hf
  have hrf : r f.object = true := ho' ▸ hc.closed o' hro'
  rcases hof with rfl | rfl
  · exact .inl hrf
  · exact .inl (hc.closed _ hrf)

theorem Collecting.processRounds {s₀ : State κ} (hc : Collecting c s₀ s r)
    (hv : c.Valid s₀.objectAt) {closures : List (VMKitObject → Bool)}
    (hcl : ∀ closure ∈ closures, c.Closed closure) :
    Collecting c s₀ (s.processRounds c r closures).1 (s.processRounds c r closures).2 ∧
    ∀ o, (s.processRounds c r closures).2 o = true ↔
      r o = true ∨ ∃ closure ∈ closures, closure o = true := by
  induction closures generalizing s r with
  | nil => exact ⟨hc, fun o => by simp [State.processRounds]⟩
  | cons closure closures ih =>
    obtain ⟨hhead, htail⟩ := List.forall_mem_cons.mp hcl
    obtain ⟨hc', hr'⟩ := hc.process hv hhead
    obtain ⟨hend, hreach⟩ := ih hc' htail
    refine ⟨hend, fun o => (hreach o).trans ?_⟩
    simp [hr' o, or_assoc]

/-- Every registered finalizer knows its object. -/
structure Inv (s : State κ) : Prop where
  null : s.objectAt .null = none
  registered : ∀ f ∈ s.registered, f.object = .null ∨ Current s.objectAt f

/-- The collector reaches the object, or `process` does for a finalizer that is registered. -/
def Kept (s : State κ) (c : Collection) (o : VMKitObject) : Prop :=
  c.isReachable o = true ∨ (∃ f ∈ s.registered, f.object = o) ∨
    ∃ closure ∈ c.closures, closure o = true

theorem collect_spec (hi : Inv s) (hv : c.Valid s.objectAt) :
    ∃ s' r, Collecting c s s' r ∧
      s.collect c = { s' with objectAt := c.survivors r s.objectAt } ∧
      ∀ o, (s.objectAt o).isSome → (r o = true ↔ Kept s c o) := by
  have hfirst : Collecting c s (s.process c c.isReachable).1 (s.process c c.isReachable).2.1 :=
    collecting_process hv hv.reachable_forward rfl rfl
      (fun f hf => (hi.registered f hf).imp_right .inl) ⟨[], by simp, nofun⟩
  obtain ⟨hc, hr⟩ := hfirst.processRounds hv hv.closure_forward
  refine ⟨_, _, hc, by rw [← hc.objectAt]; rfl, fun o ho => ?_⟩
  have hreach : (s.process c c.isReachable).2.1 o = true ↔
      c.isReachable o = true ∨ ∃ f ∈ s.registered, f.object = o := by
    refine ((retain_reachable hv hv.reachable_forward).2 o).trans (or_congr_right ?_)
    constructor
    · rintro ⟨f, hf, -, rfl | rfl⟩
      · exact ⟨f, hf, rfl⟩
      · refine ⟨f, hf, ?_⟩
        unfold Collection.forward at ho ⊢
        cases hx : c.getForwardedObject f.object with
        | none => rfl
        | some x => simp [hx, (hv.objectAt_forwarded _ _ hx).2.1] at ho
    · rintro ⟨f, hf, rfl⟩
      refine ⟨f, hf, fun hn => ?_, .inl rfl⟩
      rw [hn, hi.null] at ho
      cases ho
  rw [hr o, hreach, Kept, or_assoc]

theorem Finalizer.run_eq_unordered {callback : κ} :
    f.run.2 = some (.unordered callback o) ↔ f.finalizer = .unordered callback ∧ f.object = o := by
  unfold Finalizer.run
  cases hf : f.finalizer <;> simp

/-- Every unordered finalizer that may run now passes the reference at which its object is. -/
def RunsCurrent (s : State κ) : Prop :=
  ∀ f ∈ s.pending ++ s.held, ∀ callback o, f.run.2 = some (.unordered callback o) →
    ∃ n, s.objectAt o = some n ∧ f.subject = some n

/-- A collection keeps, and does not move, the objects of queued unordered finalizers. -/
def KeepsQueued (s : State κ) : Label κ → Prop
  | .collect c => ∀ f ∈ s.pending ++ s.held, ∀ callback o,
    f.run.2 = some (.unordered callback o) → Kept s c o ∧ c.getForwardedObject o = none
  | _ => True

/-- Collections do what collectors promise. -/
def ValidCollection (s : State κ) : Label κ → Prop
  | .collect c => c.Valid s.objectAt
  | _ => True

theorem Inv.step (hi : Inv s) {l : Label κ} (hv : ValidCollection s l)
    (hs : Finalization.step s l = some s') : Inv s' := by
  cases l with
  | allocate o =>
    simp only [Finalization.step] at hs
    split at hs
    · cases hs
    next ho =>
    obtain ⟨hn, hfree⟩ := not_or.mp ho
    cases hs
    refine ⟨?_, fun f hf => (hi.registered f hf).imp_right ?_⟩
    · simpa [Function.update_of_ne (Ne.symm hn)] using hi.null
    · rintro ⟨n, hfn, hs⟩
      have hne : f.object ≠ o := by
        rintro rfl
        exact hfree (by simp [hfn])
      exact ⟨n, by simpa [hne] using hfn, hs⟩
  | registerFinalizer o callback =>
    simp only [Finalization.step] at hs
    split at hs
    · next ho =>
      cases hs
      refine ⟨hi.null, fun f hf => ?_⟩
      rcases List.mem_append.mp hf with hf | hf
      · exact hi.registered f hf
      · obtain rfl := List.mem_singleton.mp hf
        refine ho.imp_right fun hsome => ?_
        obtain ⟨n, hn⟩ := Option.isSome_iff_exists.mp hsome
        exact ⟨n, hn, hn⟩
    · cases hs
  | collect c =>
    obtain rfl := Option.some.inj hs
    obtain ⟨s', r, hc, he, -⟩ := collect_spec hi hv
    rw [he]
    refine ⟨?_, fun f hf => .inr ((hc.settled f hf).current hv)⟩
    have horigin : c.origin .null = none := by
      cases ho : c.origin .null with
      | none => rfl
      | some o => exact absurd rfl (hv.objectAt_forwarded o _ ((hv.forwarded_iff o _).mpr ho)).2.2
    simp [Collection.survivors, horigin, hi.null]
  | getFinalizedObject =>
    obtain ⟨f, -, rfl⟩ := Option.map_eq_some_iff.mp hs
    exact ⟨hi.null, hi.registered⟩
  | run i =>
    obtain ⟨f, -, rfl⟩ := Option.map_eq_some_iff.mp hs
    exact ⟨hi.null, hi.registered⟩

theorem runsCurrent_collect (hi : Inv s) (hv : c.Valid s.objectAt) (hp : RunsCurrent s) :
    RunsCurrent (s.collect c) ↔ KeepsQueued s (.collect c) := by
  obtain ⟨s', r, hc, he, hkept⟩ := collect_spec hi hv
  obtain ⟨queued, hpend, hq⟩ := hc.pending
  have hmem : ∀ f, f ∈ s'.pending ++ s'.held ↔ f ∈ s.pending ++ s.held ∨ f ∈ queued := by
    intro f
    simp [hpend, hc.held, or_right_comm, or_assoc]
  -- a reference keeps its object when the object is reached and stays in its place
  have hsurvives : ∀ o n, s.objectAt o = some n →
      (c.survivors r s.objectAt o = some n ↔ Kept s c o ∧ c.getForwardedObject o = none) := by
    intro o n hn
    have ho : (s.objectAt o).isSome := by simp [hn]
    simp [Collection.survivors, hv.origin_eq_none ho, hn, ← hkept o ho]
  rw [he]
  constructor
  · intro h f hf callback o hrun
    obtain ⟨n, hn, hs⟩ := hp f hf callback o hrun
    obtain ⟨n', hn', hs'⟩ := h f ((hmem f).mpr (.inl hf)) callback o hrun
    obtain rfl : n = n' := Option.some.inj (hs.symm.trans hs')
    exact (hsurvives o n hn).mp hn'
  · intro h f hf callback o hrun
    rcases (hmem f).mp hf with hf | hf
    · obtain ⟨n, hn, hs⟩ := hp f hf callback o hrun
      exact ⟨n, (hsurvives o n hn).mpr (h f hf callback o hrun), hs⟩
    · obtain ⟨-, rfl⟩ := Finalizer.run_eq_unordered.mp hrun
      exact (hq f hf).current hv

theorem runsCurrent_step (hi : Inv s) {l : Label κ} (hv : ValidCollection s l)
    (hp : RunsCurrent s) (hs : step s l = some s') : RunsCurrent s' ↔ KeepsQueued s l := by
  cases l with
  | collect c =>
    obtain rfl := Option.some.inj hs
    exact runsCurrent_collect hi hv hp
  | allocate o =>
    simp only [step] at hs
    split at hs
    · cases hs
    next ho =>
    cases hs
    refine iff_of_true (fun f hf callback x hrun => ?_) trivial
    obtain ⟨n, hn, hs⟩ := hp f hf callback x hrun
    have hne : x ≠ o := by
      rintro rfl
      simp [hn] at ho
    exact ⟨n, by simpa [hne] using hn, hs⟩
  | registerFinalizer o callback =>
    simp only [step] at hs
    split at hs <;> cases hs
    exact iff_of_true hp trivial
  | getFinalizedObject =>
    obtain ⟨f, hf, rfl⟩ := Option.map_eq_some_iff.mp hs
    refine iff_of_true (fun g hg => hp g ?_) trivial
    have hl := List.dropLast_append_getLast? f hf
    rw [← hl]
    simpa [or_left_comm, or_comm] using hg
  | run i =>
    obtain ⟨f, hf, rfl⟩ := Option.map_eq_some_iff.mp hs
    refine iff_of_true (fun g hg callback o hrun => ?_) trivial
    rcases List.mem_append.mp hg with hg | hg
    · exact hp g (List.mem_append.mpr (.inl hg)) callback o hrun
    rcases List.mem_or_eq_of_mem_set hg with hg | rfl
    · exact hp g (List.mem_append.mpr (.inr hg)) callback o hrun
    · -- it has been run, and does not run again
      cases (Finalizer.run_eq_unordered.mp hrun).1

/--
In a run whose collections do what collectors promise, every unordered callback that may run
at any point receives the current reference of its object exactly when each collection keeps
in place the objects of the finalizers that were queued before it.
-/
theorem unordered_receives_current_iff {l : List (Label κ)}
    (hv : (machine κ).Meets ValidCollection .new l) :
    (machine κ).Always RunsCurrent .new l ↔ (machine κ).Meets KeepsQueued .new l :=
  Machine.always_iff_meets_of_meets (J := Inv) (fun _ _ _ hi hv hs => hi.step hv hs)
    (fun _ _ _ hi hv hp hs => runsCurrent_step hi hv hp hs) hv ⟨rfl, nofun⟩ nofun

/-- A collection that moves nothing, and calls `process` once. -/
def Collection.still (isReachable : VMKitObject → Bool) : Collection :=
  ⟨isReachable, fun _ => none, fun _ => none, []⟩

theorem Collection.still_valid (isReachable : VMKitObject → Bool) : (still isReachable).Valid h :=
  ⟨by simp [still], by simp [still], fun _ ho => ho, nofun⟩

/-- The object is queued by the first collection, and what the second one reaches is given. -/
def queueRun (isReachable : VMKitObject → Bool) : List (Label Unit) :=
  [.allocate ⟨16⟩, .registerFinalizer ⟨16⟩ (), .collect (.still fun _ => false),
    .collect (.still isReachable)]

theorem queueRun_valid (isReachable : VMKitObject → Bool) :
    (machine Unit).Meets ValidCollection .new (queueRun isReachable) :=
  fun _ _ => ⟨trivial, fun _ _ => ⟨trivial, fun _ _ => ⟨Collection.still_valid _, fun _ _ =>
    ⟨Collection.still_valid _, trivial⟩⟩⟩⟩

theorem unordered_receives_current_iff_reachable :
    (machine Unit).Always RunsCurrent .new (queueRun fun _ => true) := by
  refine (unordered_receives_current_iff (queueRun_valid _)).mpr ?_
  refine fun _ h₁ => ⟨trivial, fun _ h₂ => ⟨trivial, fun _ h₃ => ⟨?_, fun _ _ => ⟨?_, trivial⟩⟩⟩⟩
  all_goals
    cases h₁; cases h₂
    intro f hf callback o hrun
  · cases hf
  · exact ⟨.inl rfl, rfl⟩

/-- The second collection reclaims an object whose finalizer is pending. -/
theorem pending_finalizer_reclaimed : ∃ s s' : State Unit, ∃ f,
    (machine Unit).Meets ValidCollection .new (queueRun fun _ => false) ∧
    (machine Unit).exec .new (queueRun fun _ => false) = some s ∧
    (machine Unit).exec s [.getFinalizedObject] = some s' ∧ s'.held = [f] ∧
    f.run.2 = some (.unordered () ⟨16⟩) ∧ f.subject = some 0 ∧ s'.objectAt ⟨16⟩ = none ∧
    ¬ RunsCurrent s' := by
  refine ⟨_, _, _, queueRun_valid _, rfl, rfl, rfl, rfl, rfl, rfl, fun h => ?_⟩
  obtain ⟨n, hn, -⟩ := h _ (List.mem_singleton.mpr rfl) () ⟨16⟩ rfl
  cases hn

end VmkitCore.Finalization
