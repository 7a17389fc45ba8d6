import VmkitCore.Threading.StopTheWorld
import VmkitCore.Threading.ThreadTable

/-! # What a step moves

A step that starts no thread leaves the phases alone, and moves a thread only by a
step of its own or by one of its requester. The table only grows, by threads that
are not in it.
-/

namespace VmkitCore.ThreadManager

variable {τ ι : Type*} [DecidableEq τ] [DecidableEq ι] {cfg : Config τ ι} {s s' : State τ ι}
  {t : τ}

theorem threadStep_threads (hs : threadStep cfg s t = some s') :
    s.phase t = .running ∧ ∃ c, Blocking.targetStep cfg.adapters (s.threads t) = some c ∧
      s'.phase = s.phase ∧ s'.inner.threads = s.inner.threads ∧
      s'.threads = Function.update s.threads t c := by
  obtain ⟨hp, c, hc, ⟨-, rfl⟩ | ⟨-, -, m, hm, rfl⟩⟩ := threadStep_cases hs
  · exact ⟨hp, c, hc, rfl, rfl, rfl⟩
  · exact ⟨hp, c, hc, rfl, Inner.threads_addAboutToTerminateCurrent hm, rfl⟩

/-- The thread itself takes the step. -/
def byTarget : Blocking.Label ι Unit → Bool
  | .call _ | .step => true
  | .request .. | .requesterStep _ => false

/-- A step that starts no thread moves no phase, and threads only by steps of one kind. -/
structure Moves (cfg : Config τ ι) (target : Bool) (s s' : State τ ι) : Prop where
  phase : s'.phase = s.phase
  table : s'.inner.threads = s.inner.threads ∨ ∃ m again,
    s.inner.processAboutToTerminate s.status s.indexInManager = some (m, again) ∧ s'.inner = m
  threads : ∀ t, s'.threads t = s.threads t ∨
    ∃ l, byTarget l = target ∧ Blocking.step cfg.adapters (s.threads t) l = some (s'.threads t)

namespace Moves

variable {b : Bool} {c : Blocking.State ι Unit} {pc : CollectorPc τ}

omit [DecidableEq τ] in
theorem of_eq (hp : s'.phase = s.phase) (hi : s'.inner = s.inner)
    (ht : s'.threads = s.threads) : Moves cfg b s s' :=
  ⟨hp, .inl (hi ▸ rfl), fun _ => .inl (ht ▸ rfl)⟩

theorem of_step {l : Blocking.Label ι Unit} (hp : s'.phase = s.phase)
    (hi : s'.inner.threads = s.inner.threads) (ht : s'.threads = Function.update s.threads t c)
    (hc : Blocking.step cfg.adapters (s.threads t) l = some c) :
    Moves cfg (byTarget l) s s' := by
  refine ⟨hp, .inl hi, fun u => ?_⟩
  by_cases hut : u = t
  · subst hut
    exact .inr ⟨l, rfl, by rw [ht, Function.update_self, hc]⟩
  · exact .inl (by rw [ht, Function.update_of_ne hut])

theorem call {op : Blocking.Op ι} (hs : ThreadManager.call s t op = some s') :
    Moves cfg true s s' := by
  obtain ⟨-, c, hc, rfl⟩ := call_eq_some.mp hs
  exact of_step (l := .call op) rfl rfl rfl hc

theorem threadStep (hs : ThreadManager.threadStep cfg s t = some s') : Moves cfg true s s' := by
  obtain ⟨-, c, hc, hp, hi, ht⟩ := threadStep_threads hs
  exact of_step (l := .step) hp hi ht hc

theorem request {op : Blocking.RequesterOp ι}
    (hs : s.onThread t (Blocking.request (s.threads t) () op) pc = some s') :
    Moves cfg false s s' := by
  obtain ⟨c, hc, rfl⟩ := Option.map_eq_some_iff.mp hs
  exact of_step (l := .request () op) rfl rfl rfl hc

theorem requesterStep
    (hs : s.onThread t (Blocking.requesterStep (s.threads t) ()) pc = some s') :
    Moves cfg false s s' := by
  obtain ⟨c, hc, rfl⟩ := Option.map_eq_some_iff.mp hs
  exact of_step (l := .requesterStep ()) rfl rfl rfl hc

theorem runMethod (hs : s.runMethod t pc = some s') : Moves cfg false s s' := by
  rcases State.runMethod_eq_some.mp hs with ⟨-, rfl⟩ | ⟨-, hs⟩
  · exact of_eq rfl rfl rfl
  · exact requesterStep hs

theorem collectorStep (hs : ThreadManager.collectorStep cfg s = some s') :
    Moves cfg false s s' := by
  unfold ThreadManager.collectorStep at hs
  cases hpc : s.collector
  all_goals simp only [hpc] at hs
  case retain todo kept =>
    cases todo with
    | nil => cases kept <;> cases hs <;> exact of_eq rfl rfl rfl
    | cons t todo => exact request hs
  case sync todo | unblock todo =>
    cases todo with
    | nil => cases hs; exact of_eq rfl rfl rfl
    | cons t todo => exact request hs
  case retainTest t todo kept =>
    split at hs
    · cases hs; exact of_eq rfl rfl rfl
    · exact request hs
  case process =>
    split at hs
    · cases hs
    obtain ⟨⟨m, again⟩, hm, rfl⟩ := Option.map_eq_some_iff.mp hs
    exact ⟨rfl, .inr ⟨m, again, hm, rfl⟩, fun _ => .inl rfl⟩
  case collect rest acc =>
    rcases rest with _ | ⟨_ | t, rest⟩ <;> cases hs <;> exact of_eq rfl rfl rfl
  case idle | returned => cases hs; exact of_eq rfl rfl rfl
  case scan | collectLock | unblockScan =>
    split at hs
    · cases hs
    · cases hs; exact of_eq rfl rfl rfl
  case retainLock | syncLock | unblockLock => exact requesterStep hs
  case retainBlock | syncBlock | unblockRun => exact runMethod hs
  case retainUnlock | syncCall | syncUnlock | unblockCall | unblockUnlock => exact request hs

omit [DecidableEq τ] in
/-- The collector wakes a thread, or leaves it where it is. -/
theorem wakes (h : Moves cfg false s s') (t : τ) :
    (s'.threads t).pc = (s.threads t).pc ∨ (s'.threads t).pc = (s.threads t).pc.wake := by
  rcases h.threads t with he | ⟨l, hl, hs⟩
  · exact .inl (by rw [he])
  · cases l with
    | call | step => cases hl
    | request r op => exact .inl (Blocking.request_pc hs)
    | requesterStep r => exact Blocking.requesterStep_pc hs

end Moves

/-- What the steps of a thread on its way into the table keep is kept of every thread. -/
theorem startup_keeps {P : Blocking.State ι Unit → Prop}
    (hexec : ∀ c, P c → P { c with thread := { c.thread with execStatus := .inManaged } })
    (hcall : ∀ c c' op, P c → Blocking.call c op = some c' → (∀ a, op ≠ .blockSelf a) → P c')
    (hstep : ∀ c c', P c → Blocking.targetStep cfg.adapters c = some c' → P c')
    (hs : startup cfg s t = some s') (h : ∀ u, P (s.threads u)) (u : τ) : P (s'.threads u) := by
  have hset : ∀ {c : Blocking.State ι Unit}, P c → P ((s.setThread t c).threads u) := by
    intro c hc
    by_cases hut : u = t
    · subst hut; simpa using hc
    · simpa [hut] using h u
  cases startup_cases hs with
  | start => exact hset (hexec _ (h t))
  | enter | again | park | add => exact h u
  | call _ _ _ hc _ hblock => exact hset (hcall _ _ _ (h t) hc hblock)
  | target _ hc => exact hset (hstep _ _ (h t) hc)
  | enterNative _ _ _ hc => exact hset (hcall _ _ _ (h t) hc nofun)

/-- A thread on its way into the table leaves the phases of the others alone. -/
theorem startup_phase_of_ne {u : τ} (hu : u ≠ t) (hs : startup cfg s t = some s') :
    s'.phase u = s.phase u := by
  cases startup_cases hs with
  | target | again => rfl
  | start | enter | call | park | enterNative | add => exact State.setPhase_of_ne _ _ hu

/-- A thread that runs stays in that phase. -/
theorem step_running {l : Label τ ι} (hs : step cfg s l = some s') (h : s.phase t = .running) :
    s'.phase t = .running := by
  cases l with
  | startup u =>
    by_cases hu : t = u
    · subst hu
      rw [step, startup, h] at hs
      cases hs
    · rw [startup_phase_of_ne hu hs, h]
  | call u op => rw [(Moves.call hs : Moves cfg true s s').phase, h]
  | step u => rw [(Moves.threadStep hs).phase, h]
  | collector => rw [(Moves.collectorStep hs).phase, h]

/-- A thread on its way into the table adds itself, or leaves the table as it is. -/
theorem startup_threads (h : TableInv s) (hi : Inv cfg s) (hs : startup cfg s t = some s') :
    s'.inner.threads = s.inner.threads ∨
      (s.phase t).isRegistered = false ∧ s'.inner.threads = s.inner.threads ++ [some t] := by
  cases startup_cases hs with
  | start | enter | call | target => exact .inl rfl
  | again _ _ hm =>
    rw [h.process hi] at hm
    cases hm
  | park _ _ hm | enterNative _ _ hm =>
    rw [h.process hi] at hm
    cases hm
    exact .inl rfl
  | add hp =>
    rw [Inner.addThread_of_free h.free]
    exact .inr ⟨by rw [hp]; rfl, rfl⟩

omit [DecidableEq τ] in
theorem Moves.threads_eq {b : Bool} (hm : Moves cfg b s s') (h : TableInv s) (hi : Inv cfg s) :
    s'.inner.threads = s.inner.threads := by
  rcases hm.table with ht | ⟨m, again, hp, hm⟩
  · exact ht
  · rw [h.process hi] at hp
    cases hp
    rw [hm]

/-- No thread is in two slots of the table. -/
theorem nodup_of_reachable {C : State τ ι → Label τ ι → Prop}
    (h : (machine cfg).ReachableUnder C s) : s.inner.threads.Nodup := by
  refine (h.invariant (I := fun s => (Inv cfg s ∧ TableInv s) ∧ s.inner.threads.Nodup) ?_ ?_).2
  · rintro s rfl
    exact ⟨⟨Inv.new cfg, .new⟩, .nil⟩
  · rintro s l s' ⟨⟨hi, ht⟩, hn⟩ - hs
    refine ⟨⟨hi.step hs, ht.step hi hs⟩, ?_⟩
    cases l with
    | startup t =>
      rcases startup_threads ht hi hs with he | ⟨hr, he⟩
      · rwa [he]
      · rw [he]
        refine List.nodup_append.mpr ⟨hn, by simp, ?_⟩
        simp only [List.mem_singleton, forall_eq]
        rintro o ho rfl
        exact absurd (hi.members t ho) (by simp [hr])
    | call t op =>
      have hm : Moves cfg true s s' := .call hs
      rwa [hm.threads_eq ht hi]
    | step t => rwa [(Moves.threadStep hs).threads_eq ht hi]
    | collector => rwa [(Moves.collectorStep hs).threads_eq ht hi]

/-- `block_all_mutators_for_gc` goes on, or returns with all threads of the table looked at. -/
theorem collectorStep_inBlockAll (hs : collectorStep cfg s = some s')
    (h : s.collector = .idle ∨ s.collector.inBlockAll = true) :
    s'.collector.inBlockAll = true ∨ ∃ acc, s.collector = .collect [] acc := by
  unfold collectorStep at hs
  cases hpc : s.collector
  all_goals
    simp only [hpc, CollectorPc.inBlockAll, reduceCtorEq, Bool.false_eq_true, or_self, true_or,
      or_true] at hs h
  case collect rest acc =>
    rcases rest with _ | ⟨_ | t, rest⟩
    · exact .inr ⟨acc, rfl⟩
    · cases hs; exact .inl rfl
    · cases hs; exact .inl rfl
  case retain todo kept =>
    left
    cases todo with
    | nil => cases kept <;> cases hs <;> rfl
    | cons t todo => rw [State.onThread_collector hs]; rfl
  case sync todo =>
    left
    cases todo with
    | nil => cases hs; rfl
    | cons t todo => rw [State.onThread_collector hs]; rfl
  case retainTest t todo kept =>
    left
    split at hs
    · cases hs; rfl
    · rw [State.onThread_collector hs]; rfl
  case process =>
    left
    split at hs
    · cases hs
    obtain ⟨⟨m, again⟩, -, rfl⟩ := Option.map_eq_some_iff.mp hs
    cases again <;> rfl
  case idle => cases hs; exact .inl rfl
  case scan | collectLock =>
    left
    split at hs
    · cases hs
    · cases hs; rfl
  case retainBlock | syncBlock =>
    left
    rcases State.runMethod_collector hs with he | he
    · rw [he]; rfl
    · rw [he, hpc]; rfl
  all_goals
    left
    rw [State.onThread_collector hs]
    rfl

end VmkitCore.ThreadManager
