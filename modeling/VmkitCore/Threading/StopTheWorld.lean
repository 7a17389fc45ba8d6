import VmkitCore.Threading.ThreadManagerInvariant

/-! # Stopping the world

While `block_all_mutators_for_gc` runs, a mutator it no longer looks at is blocked
or about to terminate, and stays so. When it returns, this holds of every mutator
in the table, and the list it returns holds the blocked ones.
-/

namespace VmkitCore.ThreadManager

variable {τ ι : Type*}

/-- Between the call of `block_all_mutators_for_gc` and its return. -/
def CollectorPc.inBlockAll : CollectorPc τ → Bool
  | .scan | .retain .. | .retainLock .. | .retainTest .. | .retainBlock .. | .retainUnlock ..
  | .sync _ | .syncLock .. | .syncCall .. | .syncBlock .. | .syncUnlock .. | .process
  | .collectLock | .collect .. => true
  | _ => false

/-- The threads of the last scan that are not known to be stopped. -/
def CollectorPc.remaining : CollectorPc τ → Option (List τ)
  | .retain todo kept | .retainUnlock _ todo kept => some (todo ++ kept)
  | .retainLock t todo kept | .retainTest t todo kept | .retainBlock t todo kept =>
    some (t :: (todo ++ kept))
  | .process | .collectLock | .collect .. => some []
  | _ => none

def Blocked (cfg : Config τ ι) (s : State τ ι) (t : τ) : Prop :=
  (s.threads t).thread.isBlockedFor cfg.gc = true

/-- Blocked for the collection, or about to terminate. -/
def Stopped (cfg : Config τ ι) (s : State τ ι) (t : τ) : Prop :=
  Blocked cfg s t ∨ (s.threads t).thread.isAboutToTerminate = true

/-- No thread puts itself into the table while `block_all_mutators_for_gc` runs. -/
def NoRegistration (s : State τ ι) : Label τ ι → Prop
  | .startup t => (s.phase t = .parked true ∨ s.phase t = .parked false) →
    s.collector.inBlockAll = false
  | _ => True

instance : ∀ (s : State τ ι) (a : Label τ ι), Decidable (NoRegistration s a)
  | _, .startup _ => inferInstanceAs (Decidable (_ ∨ _ → _ = _))
  | _, .call .. | _, .step _ | _, .collector => inferInstanceAs (Decidable True)

structure Stopping (cfg : Config τ ι) (s : State τ ι) : Prop where
  remaining : ∀ l, s.collector.remaining = some l → ∀ t, some t ∈ s.inner.threads →
    cfg.isMutator t = true → t ∈ l ∨ Stopped cfg s t
  locked : ∀ rest acc, s.collector = .collect rest acc → s.innerLocked = true
  rest : ∀ rest acc, s.collector = .collect rest acc → ∀ t, some t ∈ rest →
    some t ∈ s.inner.threads
  acc : ∀ rest acc, s.collector = .collect rest acc → ∀ t ∈ acc,
    some t ∈ s.inner.threads ∧ Blocked cfg s t
  complete : ∀ rest acc, s.collector = .collect rest acc → ∀ t, some t ∈ s.inner.threads →
    cfg.isMutator t = true → Blocked cfg s t → some t ∈ rest ∨ t ∈ acc

variable [DecidableEq ι] {cfg : Config τ ι} {s s' : State τ ι} {t : τ}

omit [DecidableEq ι] in
theorem Stopped.evolves (h : Stopped cfg s t)
    (he : Blocking.Evolves (s.threads t) (s'.threads t)) : Stopped cfg s' t :=
  h.imp (he.blocked cfg.gc) he.aboutToTerminate

theorem Inv.not_aboutToTerminate (h : Inv cfg s) (hp : s.phase t ≠ .unstarted)
    (hb : Blocked cfg s t) : (s.threads t).thread.isAboutToTerminate = false :=
  (h.threads t hp).not_dying cfg.gc_mem hb

namespace Stopping

omit [DecidableEq ι] in
theorem of_none (h : s.collector.remaining = none) : Stopping cfg s := by
  have hne : ∀ rest acc, s.collector ≠ .collect rest acc := by
    rintro rest acc he
    rw [he] at h
    cases h
  exact ⟨fun l hl => (nomatch h.symm.trans hl), fun _ _ he => absurd he (hne _ _),
    fun _ _ he => absurd he (hne _ _), fun _ _ he => absurd he (hne _ _),
    fun _ _ he => absurd he (hne _ _)⟩

/-- A step of a thread, seen from the collector. -/
theorem thread (h : Stopping cfg s) (hi : Inv cfg s') (hcol : s'.collector = s.collector)
    (hlock : s'.innerLocked = s.innerLocked)
    (he : ∀ u, Blocking.Evolves (s.threads u) (s'.threads u))
    (hsub : s.collector.inBlockAll = true →
      ∀ u, some u ∈ s'.inner.threads → some u ∈ s.inner.threads)
    (hsame : s.innerLocked = true → s'.inner.threads = s.inner.threads) : Stopping cfg s' := by
  have hin : ∀ l, s.collector.remaining = some l → s.collector.inBlockAll = true := by
    intro l hl
    cases hpc : s.collector <;> rw [hpc] at hl <;> first | rfl | cases hl
  refine ⟨fun l hl u hu hmut => ?_, fun rest acc hc => ?_, fun rest acc hc u hu => ?_,
    fun rest acc hc u hu => ?_, fun rest acc hc u hu hmut hb => ?_⟩
  all_goals rw [hcol] at *
  · exact (h.remaining l hl u (hsub (hin l hl) u hu) hmut).imp_right fun hst => hst.evolves (he u)
  · exact hlock.trans (h.locked rest acc hc)
  · rw [hsame (h.locked rest acc hc)]
    exact h.rest rest acc hc u hu
  · rw [hsame (h.locked rest acc hc)]
    exact (h.acc rest acc hc u hu).imp_right fun hb => (he u).blocked cfg.gc hb
  · have hu' := hu
    rw [hsame (h.locked rest acc hc)] at hu
    -- a mutator that was not blocked yet is about to terminate, and is never blocked
    rcases h.remaining [] (by rw [hc]; rfl) u hu hmut with hn | hn | hn
    · cases hn
    · exact h.complete rest acc hc u hu hmut hn
    · have ha := hi.not_aboutToTerminate (Phase.started_of_isRegistered (hi.members u hu')) hb
      rw [(he u).aboutToTerminate hn] at ha
      cases ha

omit [DecidableEq ι] in
/-- The collector goes on with a list from which it only drops stopped threads. -/
theorem advance (h : Stopping cfg s) (he : ∀ u, Blocking.Evolves (s.threads u) (s'.threads u))
    (htable : s'.inner.threads = s.inner.threads)
    (hcol : ∀ rest acc, s'.collector ≠ .collect rest acc)
    (hrem : ∀ l', s'.collector.remaining = some l' → ∃ l, s.collector.remaining = some l ∧
      ∀ u ∈ l, u ∈ l' ∨ Stopped cfg s' u) : Stopping cfg s' := by
  refine ⟨fun l' hl' u hu hmut => ?_, fun _ _ hc => absurd hc (hcol _ _),
    fun _ _ hc => absurd hc (hcol _ _), fun _ _ hc => absurd hc (hcol _ _),
    fun _ _ hc => absurd hc (hcol _ _)⟩
  obtain ⟨l, hl, hsub⟩ := hrem l' hl'
  rcases h.remaining l hl u (htable ▸ hu) hmut with hul | hst
  · exact hsub u hul
  · exact .inr (hst.evolves (he u))

end Stopping

/-- What a step of a thread does to the rest of the state. -/
structure FromThread (s s' : State τ ι) (registers : Prop) : Prop where
  collector : s'.collector = s.collector
  innerLocked : s'.innerLocked = s.innerLocked
  evolves : ∀ u, Blocking.Evolves (s.threads u) (s'.threads u)
  table : ∀ u, some u ∈ s'.inner.threads → some u ∈ s.inner.threads ∨ registers
  same : s.innerLocked = true → s'.inner.threads = s.inner.threads

variable [DecidableEq τ]

omit [DecidableEq ι] in
theorem evolves_setThread {c : Blocking.State ι Unit} (hc : Blocking.Evolves (s.threads t) c)
    (u : τ) : Blocking.Evolves (s.threads u) ((s.setThread t c).threads u) := by
  by_cases hu : u = t
  · subst hu; simpa using hc
  · simpa [hu] using Blocking.Evolves.refl

namespace FromThread

variable {r : Prop} {c : Blocking.State ι Unit} {p : Phase}

omit [DecidableEq ι] in
theorem setPhase : FromThread s (s.setPhase t p) r :=
  ⟨rfl, rfl, fun _ => .refl, fun _ => .inl, fun _ => rfl⟩

omit [DecidableEq ι] in
theorem setThread (hc : Blocking.Evolves (s.threads t) c) : FromThread s (s.setThread t c) r :=
  ⟨rfl, rfl, evolves_setThread hc, fun _ => .inl, fun _ => rfl⟩

omit [DecidableEq ι] in
theorem setBoth (hc : Blocking.Evolves (s.threads t) c) :
    FromThread s ((s.setThread t c).setPhase t p) r :=
  ⟨rfl, rfl, evolves_setThread hc, fun _ => .inl, fun _ => rfl⟩

theorem startup (hs : ThreadManager.startup cfg s t = some s') :
    FromThread s s' (s.phase t = .parked true ∨ s.phase t = .parked false) := by
  cases startup_cases hs with
  | start hp => exact setBoth (.of_eq rfl rfl rfl)
  | enter => exact setPhase
  | call _ _ _ hc => exact setBoth (.call hc)
  | target _ hc => exact setThread (.targetStep hc)
  | again _ hlock hm | park _ hlock hm =>
    exact ⟨rfl, rfl, fun _ => .refl, fun u hu => .inl (Inner.mem_of_process hm hu),
      fun hl => absurd hl (by simp [hlock])⟩
  | enterNative _ hlock hm hc =>
    exact ⟨rfl, rfl, evolves_setThread (.call hc), fun u hu => .inl (Inner.mem_of_process hm hu),
      fun hl => absurd hl (by simp [hlock])⟩
  | @add scope hp hlock =>
    exact ⟨rfl, rfl, fun _ => .refl, fun _ _ => .inr (by cases scope <;> simp [hp]),
      fun hl => absurd hl (by simp [hlock])⟩

omit [DecidableEq ι] in
theorem call {op : Blocking.Op ι} (hs : ThreadManager.call s t op = some s') :
    FromThread s s' False := by
  obtain ⟨-, c, hc, rfl⟩ := call_eq_some.mp hs
  exact setThread (.call hc)

theorem threadStep (hs : ThreadManager.threadStep cfg s t = some s') : FromThread s s' False := by
  obtain ⟨-, c, hc, ⟨-, rfl⟩ | ⟨-, hlock, m, hm, rfl⟩⟩ := threadStep_cases hs
  · exact setThread (.targetStep hc)
  · have htable := Inner.threads_addAboutToTerminateCurrent hm
    exact ⟨rfl, rfl, evolves_setThread (.targetStep hc), fun u hu => .inl (htable ▸ hu),
      fun hl => absurd hl (by simp [hlock])⟩

end FromThread

namespace Stopping

omit [DecidableEq τ] in
theorem fromThread (h : Stopping cfg s) (hi : Inv cfg s') {r : Prop} (hs : FromThread s s' r)
    (hr : r → s.collector.inBlockAll = false) : Stopping cfg s' := by
  refine h.thread hi hs.collector hs.innerLocked hs.evolves (fun hin u hu => ?_) hs.same
  refine (hs.table u hu).resolve_right fun hreg => ?_
  rw [hr hreg] at hin
  cases hin

omit [DecidableEq ι] in
theorem onThread (h : Stopping cfg s) {c : Option (Blocking.State ι Unit)} {pc : CollectorPc τ}
    (hs : s.onThread t c pc = some s') (he : ∀ c', c = some c' → Blocking.Evolves (s.threads t) c')
    (hcol : ∀ rest acc, pc ≠ .collect rest acc)
    (hrem : ∀ l', pc.remaining = some l' → ∃ l, s.collector.remaining = some l ∧
      ∀ u ∈ l, u ∈ l' ∨ Stopped cfg s' u) : Stopping cfg s' := by
  obtain ⟨c', hc, rfl⟩ := Option.map_eq_some_iff.mp hs
  exact h.advance (evolves_setThread (he c' hc)) rfl hcol hrem

omit [DecidableEq τ] [DecidableEq ι] in
/-- A list that only changes its shape. -/
theorem remaining_of_eq {pc : CollectorPc τ} {l l' : List τ} (hl : s.collector.remaining = some l)
    (hl' : pc.remaining = some l') (hmem : ∀ u ∈ l, u ∈ l' ∨ Stopped cfg s' u) :
    ∀ l', pc.remaining = some l' → ∃ l, s.collector.remaining = some l ∧
      ∀ u ∈ l, u ∈ l' ∨ Stopped cfg s' u := by
  intro k hk
  obtain rfl := Option.some.inj (hl'.symm.trans hk)
  exact ⟨l, hl, hmem⟩

omit [DecidableEq τ] [DecidableEq ι] in
/-- A list that is not looked at any more. -/
theorem remaining_of_none {pc : CollectorPc τ} (hn : pc.remaining = none) :
    ∀ l', pc.remaining = some l' → ∃ l, s.collector.remaining = some l ∧
      ∀ u ∈ l, u ∈ l' ∨ Stopped cfg s' u := by
  intro l' hl
  cases hn.symm.trans hl

/-- The pass over the table under the lock, which collects the threads that have blocked. -/
theorem collect (h : Stopping cfg s) {rest : List (Option τ)} {acc : List τ}
    (hpc : s.collector = .collect rest acc)
    (hs : ThreadManager.collectorStep cfg s = some s') : Stopping cfg s' := by
  have hrem : s.collector.remaining = some [] := congrArg _ hpc
  simp only [ThreadManager.collectorStep, hpc] at hs
  have hlock := h.locked _ _ hpc
  have hrest := h.rest _ _ hpc
  have hacc := h.acc _ _ hpc
  have hcomplete := h.complete _ _ hpc
  have hstop : ∀ u, some u ∈ s.inner.threads → cfg.isMutator u = true → Stopped cfg s u :=
    fun u hu hmut => (h.remaining [] hrem u hu hmut).resolve_left (by simp)
  rcases rest with _ | ⟨_ | t, rest⟩
  · cases hs; exact of_none rfl
  · cases hs
    refine ⟨fun _ _ u hu hmut => .inr (hstop u hu hmut), fun _ _ _ => hlock,
      fun _ _ he u hu => ?_, fun _ _ he u hu => ?_, fun _ _ he u hu hmut hb => ?_⟩
    all_goals cases he
    · exact hrest u (List.mem_cons_of_mem _ hu)
    · exact hacc u hu
    · exact (hcomplete u hu hmut hb).imp_left fun hm =>
        (List.mem_cons.mp hm).resolve_left (by simp)
  · cases hs
    refine ⟨fun _ _ u hu hmut => .inr (hstop u hu hmut), fun _ _ _ => hlock,
      fun _ _ he u hu => ?_, fun _ _ he u hu => ?_, fun _ _ he u hu hmut hb => ?_⟩
    all_goals cases he
    · exact hrest u (List.mem_cons_of_mem _ hu)
    · split at hu
      · next hbt =>
        rcases List.mem_append.mp hu with hu | hu
        · exact hacc u hu
        · obtain rfl := List.mem_singleton.mp hu
          exact ⟨hrest u List.mem_cons_self, hbt⟩
      · exact hacc u hu
    · rcases hcomplete u hu hmut hb with hm | hm
      · rcases List.mem_cons.mp hm with he | hm
        · obtain rfl := Option.some.inj he
          exact .inr (by simp [show (s.threads u).thread.isBlockedFor cfg.gc = true from hb])
        · exact .inl hm
      · exact .inr (by split <;> simp [hm])

theorem collectorStep (h : Stopping cfg s) (hi : Inv cfg s)
    (hs : ThreadManager.collectorStep cfg s = some s') : Stopping cfg s' := by
  have hstep : ∀ {u : τ} {c : Blocking.State ι Unit}, (s.phase u).isRegistered = true →
      (∀ todo, s.collector ≠ .unblockRun u todo) →
      Blocking.requesterStep (s.threads u) () = some c → Blocking.Evolves (s.threads u) c :=
    fun hu hcur hc => .requesterStep (hi.threads _ (Phase.started_of_isRegistered hu)) hc
      (hi.not_unblock hcur)
  have hl := hi.listed
  unfold ThreadManager.collectorStep at hs
  cases hpc : s.collector
  all_goals
    have hrem : s.collector.remaining = _ := congrArg _ hpc
    simp only [CollectorPc.remaining] at hrem
    simp only [hpc, CollectorPc.listed] at hs hl
  case idle => cases hs; exact of_none rfl
  case scan =>
    split at hs <;> cases hs
    refine ⟨fun l hl u hu hmut => ?_, (by simp), (by simp), (by simp), (by simp)⟩
    obtain rfl := Option.some.inj hl
    exact .inl (by simpa using ⟨hu, hmut⟩)
  case retain todo kept =>
    cases todo with
    | nil =>
      cases kept with
      | nil =>
        cases hs
        exact h.advance (fun _ => .refl) rfl (by simp) (remaining_of_eq hrem rfl fun _ => .inl)
      | cons t kept => cases hs; exact of_none rfl
    | cons t todo =>
      exact h.onThread hs (fun _ hc => .request hc (by simp)) (by simp)
        (remaining_of_eq hrem rfl fun _ => .inl)
  case retainLock t todo kept =>
    exact h.onThread hs (fun _ => hstep (hl t (by simp)) (by simp [hpc])) (by simp)
      (remaining_of_eq hrem rfl fun _ => .inl)
  case retainTest t todo kept =>
    split at hs
    · next hb =>
      cases hs
      refine h.advance (fun _ => .refl) rfl (by simp) (remaining_of_eq hrem rfl fun u hu => ?_)
      rcases List.mem_cons.mp hu with rfl | hu
      · exact .inr (.inl hb)
      · exact .inl hu
    · exact h.onThread hs (fun _ hc => .request hc (by simp)) (by simp)
        (remaining_of_eq hrem rfl fun _ => .inl)
  case retainBlock t todo kept =>
    rcases State.runMethod_eq_some.mp hs with ⟨-, rfl⟩ | ⟨-, hs⟩
    · refine h.advance (fun _ => .refl) rfl (by simp) (remaining_of_eq hrem rfl fun u hu => ?_)
      split
      · next hn =>
        -- the answer that a thread is not running is given for ending threads only
        rcases List.mem_cons.mp hu with rfl | hu
        · exact .inr (.inr (hi.result u hn))
        · exact .inl hu
      · exact .inl (by simpa [or_left_comm] using hu)
    · exact h.onThread hs (fun _ => hstep (hl t (by simp)) (by simp [hpc])) (by simp [hpc])
        fun l hl => ⟨l, hl, fun _ => .inl⟩
  case retainUnlock t todo kept =>
    exact h.onThread hs (fun _ hc => .request hc (by simp)) (by simp)
      (remaining_of_eq hrem rfl fun _ => .inl)
  case process =>
    split at hs
    · cases hs
    obtain ⟨⟨m, again⟩, hm, rfl⟩ := Option.map_eq_some_iff.mp hs
    refine ⟨fun l hl u hu hmut => ?_, ?_, ?_, ?_, ?_⟩
    · exact .inr ((h.remaining [] hrem u (Inner.mem_of_process hm hu) hmut).resolve_left (by simp))
    all_goals cases again <;> simp
  case collectLock =>
    split at hs <;> cases hs
    refine ⟨fun l hl u hu hmut => ?_, fun _ _ _ => rfl, fun rest acc he u hu => ?_,
      fun rest acc he u hu => ?_, fun rest acc he u hu _ _ => ?_⟩
    · exact .inr ((h.remaining [] hrem u hu hmut).resolve_left (by simp))
    all_goals cases he
    · exact hu
    · cases hu
    · exact .inl hu
  case collect rest acc =>
    exact h.collect hpc (by rwa [ThreadManager.collectorStep, hpc])
  case sync todo =>
    cases todo with
    | nil => cases hs; exact of_none rfl
    | cons t todo =>
      exact h.onThread hs (fun _ hc => .request hc (by simp)) (by simp) (remaining_of_none rfl)
  case unblock todo =>
    cases todo with
    | nil => cases hs; exact of_none rfl
    | cons t todo =>
      exact h.onThread hs (fun _ hc => .request hc (by simp)) (by simp) (remaining_of_none rfl)
  case syncCall t todo | syncUnlock t todo | unblockUnlock t todo =>
    exact h.onThread hs (fun _ hc => .request hc (by simp)) (by simp) (remaining_of_none rfl)
  case syncLock t todo | unblockLock t todo | unblockCall t todo =>
    obtain ⟨c, -, rfl⟩ := Option.map_eq_some_iff.mp hs
    exact of_none rfl
  case syncBlock t todo | unblockRun t todo =>
    rcases State.runMethod_eq_some.mp hs with ⟨-, rfl⟩ | ⟨-, hs⟩
    · exact of_none rfl
    · obtain ⟨c, -, rfl⟩ := Option.map_eq_some_iff.mp hs
      exact of_none hrem
  case returned acc => cases hs; exact of_none rfl
  case unblockScan =>
    split at hs <;> cases hs
    exact of_none rfl

theorem step (h : Stopping cfg s) (hi : Inv cfg s) {l : Label τ ι} (hc : NoRegistration s l)
    (hs : ThreadManager.step cfg s l = some s') : Stopping cfg s' := by
  have hi' := hi.step hs
  cases l with
  | startup t => exact h.fromThread hi' (.startup hs) hc
  | call t op => exact h.fromThread hi' (.call hs) nofun
  | step t => exact h.fromThread hi' (.threadStep hs) nofun
  | collector => exact h.collectorStep hi hs

end Stopping

/-- The runs from any point at which the collector is about to stop the mutators. -/
def collection (cfg : Config τ ι) : Machine (State τ ι) (Label τ ι) where
  init s := (machine cfg).Reachable s ∧ s.collector = .idle
  step := step cfg

structure CollectionInv (cfg : Config τ ι) (s : State τ ι) : Prop where
  inv : Inv cfg s
  stopping : Stopping cfg s

theorem collectionInv_of_reachable (h : (collection cfg).ReachableUnder NoRegistration s) :
    CollectionInv cfg s := by
  refine h.invariant ?_ fun _ _ _ ⟨hi, hst⟩ hc hs => ⟨hi.step hs, hst.step hi hc hs⟩
  rintro s ⟨hr, hidle⟩
  exact ⟨inv_of_reachable hr, .of_none (by rw [hidle]; rfl)⟩

/-- The collector leaves `block_all_mutators_for_gc` with the list it has collected. -/
theorem collectorStep_returned {acc : List τ} (hs : collectorStep cfg s = some s')
    (hret : s'.collector = .returned acc) :
    s.collector = .collect [] acc ∧
      s' = { s with innerLocked := false, collector := .returned acc } := by
  unfold collectorStep at hs
  cases hpc : s.collector
  all_goals simp only [hpc] at hs
  case collect rest acc =>
    rcases rest with _ | ⟨_ | t, rest⟩ <;> cases hs <;> cases hret
    exact ⟨rfl, rfl⟩
  case retain todo kept =>
    rcases todo with _ | ⟨t, todo⟩
    · cases kept <;> cases hs <;> cases hret
    · cases (State.onThread_collector hs).symm.trans hret
  case sync todo | unblock todo =>
    rcases todo with _ | ⟨t, todo⟩
    · cases hs; cases hret
    · cases (State.onThread_collector hs).symm.trans hret
  case retainTest =>
    split at hs
    · cases hs; cases hret
    · cases (State.onThread_collector hs).symm.trans hret
  case retainBlock | syncBlock | unblockRun =>
    rcases State.runMethod_collector hs with he | he
    · cases he.symm.trans hret
    · cases hpc.symm.trans (he.symm.trans hret)
  case process =>
    split at hs
    · cases hs
    obtain ⟨⟨m, again⟩, -, rfl⟩ := Option.map_eq_some_iff.mp hs
    cases again <;> cases hret
  case idle | returned => cases hs; cases hret
  case scan | collectLock | unblockScan =>
    split at hs
    · cases hs
    · cases hs; cases hret
  all_goals cases (State.onThread_collector hs).symm.trans hret

/--
When `block_all_mutators_for_gc` returns, without registrations since the call, every mutator in
the table is blocked for the collection or about to terminate, the mutators of the returned list
are exactly the blocked ones, and no thread of the list is about to terminate.
-/
theorem block_all_mutators_for_gc_stops {acc : List τ}
    (h : (collection cfg).ReachableUnder NoRegistration s)
    (hs : step cfg s .collector = some s') (hret : s'.collector = .returned acc) :
    (∀ t, some t ∈ s'.inner.threads → cfg.isMutator t = true → Stopped cfg s' t) ∧
    (∀ t, some t ∈ s'.inner.threads → cfg.isMutator t = true → (t ∈ acc ↔ Blocked cfg s' t)) ∧
    ∀ t ∈ acc, some t ∈ s'.inner.threads ∧ Blocked cfg s' t ∧
      (s'.threads t).thread.isAboutToTerminate = false := by
  obtain ⟨hi, hst⟩ := collectionInv_of_reachable h
  obtain ⟨hpc, rfl⟩ := collectorStep_returned hs hret
  have hacc := hst.acc [] acc hpc
  refine ⟨fun t ht hmut => ?_, fun t ht hmut => ⟨fun hm => (hacc t hm).2, fun hb => ?_⟩,
    fun t hm => ?_⟩
  · exact (hst.remaining [] (by rw [hpc]; rfl) t ht hmut).resolve_left nofun
  · exact (hst.complete [] acc hpc t ht hmut hb).resolve_left nofun
  · obtain ⟨ht, hb⟩ := hacc t hm
    exact ⟨ht, hb, hi.not_aboutToTerminate (Phase.started_of_isRegistered (hi.members t ht)) hb⟩

/-- Two mutators and the adapter for collections. -/
def Config.mutators : Config Bool Unit where
  adapters := [.flags ()]
  gc := ()
  gc_mem := by simp
  isCollectorThread _ := false
  ignoreHandshakesAndGc _ := false

/-- The collector blocks the first thread, which runs until its next yieldpoint. -/
def stopRun : List (Label Bool Unit) :=
  List.replicate 27 .collector ++ .call true .yieldpoint :: List.replicate 8 (.step true) ++
    List.replicate 15 .collector

theorem block_all_mutators_for_gc_stops_yieldpoint : ∃ s₀ s s' : State Bool Unit,
    (machine .mutators).checkedExec (fun _ _ => True) .new
      (List.replicate 13 (.startup true)) = some s₀ ∧
    (collection .mutators).checkedExec NoRegistration s₀ stopRun = some s ∧
    step .mutators s .collector = some s' ∧ s'.collector = .returned [true] ∧
    Stopped .mutators s' true := by
  obtain ⟨s₀, h₀, hidle, s, s', hs, hstep, hret, hmem⟩ : ∃ s₀ : State Bool Unit,
      (machine .mutators).checkedExec (fun _ _ => True) .new
        (List.replicate 13 (.startup true)) = some s₀ ∧ s₀.collector = .idle ∧
      ∃ s s', (collection .mutators).checkedExec NoRegistration s₀ stopRun = some s ∧
        step .mutators s .collector = some s' ∧ s'.collector = .returned [true] ∧
        some true ∈ s'.inner.threads :=
    ⟨_, rfl, rfl, _, _, rfl, rfl, rfl, List.mem_singleton.mpr rfl⟩
  have hr := Machine.ReachableUnder.checkedExec
    (.init (M := collection .mutators) ⟨.checkedExec (.init rfl) h₀, hidle⟩) hs
  exact ⟨s₀, s, s', h₀, hs, hstep, hret,
    (block_all_mutators_for_gc_stops hr hstep hret).1 true hmem rfl⟩

end VmkitCore.ThreadManager
