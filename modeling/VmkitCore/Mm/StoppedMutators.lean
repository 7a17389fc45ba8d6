import VmkitCore.Mm.BlocksDisjoint
import VmkitCore.Threading.Moves

/-! # Visiting the stopped mutators

`stop_all_mutators` flushes the buffer of every thread that `block_all_mutators_for_gc` has
returned, and has MMTk visit its mutator. No thread is returned twice, and no thread that could
allocate is left out.
-/

namespace VmkitCore.ThreadManager

variable {τ ι : Type} [DecidableEq τ]

/-- The loop of `stop_all_mutators`: the allocators, and the threads that were visited. -/
def stopAllMutators (cfg : Allocation.Config) (allocs : τ → Allocation.State) :
    List τ → Option ((τ → Allocation.State) × List τ)
  | [] => some (allocs, [])
  | t :: ts => do
    let (tlab, bump) ← TLAB.flush cfg.selector (allocs t).tlab (allocs t).bump
    let allocs := Function.update allocs t { allocs t with tlab, bump }
    let (allocs, visited) ← stopAllMutators cfg allocs ts
    some (allocs, t :: visited)

/-- The allocator after its buffer was flushed. -/
def flushed (s : Allocation.State) : Allocation.State := { s with tlab := .new, bump := s.free }

variable {acfg : Allocation.Config} {allocs : τ → Allocation.State} {l : List τ}

/-- The assertions of `flush_tlab` hold, and every thread of the list is visited once. -/
theorem stopAllMutators_eq (h : ∀ t, Allocation.Inv (allocs t)) (hl : l.Nodup) :
    stopAllMutators acfg allocs l =
      some (fun t => if t ∈ l then flushed (allocs t) else allocs t, l) := by
  induction l generalizing allocs with
  | nil => simp [stopAllMutators]
  | cons t ts ih =>
    obtain ⟨ht, hts⟩ := List.nodup_cons.mp hl
    have hflush : TLAB.flush acfg.selector (allocs t).tlab (allocs t).bump =
        some (.new, (allocs t).free) := (h t).flush_eq
    have hinv : ∀ u, Allocation.Inv (Function.update allocs t (flushed (allocs t)) u) := by
      intro u
      by_cases hu : u = t
      · rw [hu, Function.update_self]
        exact (h t).flushed (allocs t).pc
      · rw [Function.update_of_ne hu]
        exact h u
    rw [stopAllMutators, hflush]
    change (stopAllMutators acfg (Function.update allocs t (flushed (allocs t))) ts).bind _ = _
    rw [ih hinv hts, Option.bind_some]
    refine congrArg some (Prod.ext (funext fun u => ?_) rfl)
    dsimp only
    by_cases hu : u = t
    · rw [hu, if_neg ht, if_pos List.mem_cons_self, Function.update_self]
    · simp [hu]

variable [DecidableEq ι] {cfg : Config τ ι} {s s' : State τ ι}

/-- The pass over the table starts with all of it, and takes one slot after the other. -/
theorem collectorStep_collect {rest : List (Option τ)} {acc : List τ}
    (hs : collectorStep cfg s = some s') (h : s'.collector = .collect rest acc) :
    rest = s.inner.threads ∧ acc = [] ∨
    ∃ o acc', s.collector = .collect (o :: rest) acc' ∧ (acc = acc' ∨ acc = acc' ++ o.toList) := by
  unfold collectorStep at hs
  cases hpc : s.collector
  all_goals simp only [hpc] at hs
  case collect rest' acc' =>
    rcases rest' with _ | ⟨_ | t, rest'⟩ <;> cases hs <;> cases h
    · exact .inr ⟨none, _, rfl, .inl rfl⟩
    · refine .inr ⟨some t, _, rfl, ?_⟩
      split
      · exact .inr rfl
      · exact .inl rfl
  case collectLock =>
    split at hs
    · cases hs
    · cases hs
      cases h
      exact .inl ⟨rfl, rfl⟩
  case retain todo kept =>
    rcases todo with _ | ⟨t, todo⟩
    · cases kept <;> cases hs <;> cases h
    · cases (State.onThread_collector hs).symm.trans h
  case sync todo | unblock todo =>
    rcases todo with _ | ⟨t, todo⟩
    · cases hs
      cases h
    · cases (State.onThread_collector hs).symm.trans h
  case retainTest =>
    split at hs
    · cases hs
      cases h
    · cases (State.onThread_collector hs).symm.trans h
  case retainBlock | syncBlock | unblockRun =>
    rcases State.runMethod_collector hs with he | he
    · cases he.symm.trans h
    · cases hpc.symm.trans (he.symm.trans h)
  case process =>
    split at hs
    · cases hs
    obtain ⟨⟨m, again⟩, -, rfl⟩ := Option.map_eq_some_iff.mp hs
    cases again <;> cases h
  case idle | returned =>
    cases hs
    cases h
  case scan | unblockScan =>
    split at hs
    · cases hs
    · cases hs
      cases h
  all_goals cases (State.onThread_collector hs).symm.trans h

/-- What was collected and the slots that are left name every thread once. -/
def Collecting (s : State τ ι) : Prop :=
  ∀ rest acc, s.collector = .collect rest acc → (acc ++ rest.filterMap id).Nodup

theorem Collecting.step (h : Collecting s) (hn : s.inner.threads.Nodup) {a : Label τ ι}
    (hs : ThreadManager.step cfg s a = some s') : Collecting s' := by
  intro rest acc hpc
  cases a with
  | startup t =>
    rw [(FromThread.startup hs).collector] at hpc
    exact h rest acc hpc
  | call t op =>
    rw [(FromThread.call hs).collector] at hpc
    exact h rest acc hpc
  | step t =>
    rw [(FromThread.threadStep hs).collector] at hpc
    exact h rest acc hpc
  | collector =>
    rcases collectorStep_collect hs hpc with ⟨rfl, rfl⟩ | ⟨o, acc', hpc', hacc⟩
    · exact Inner.nodup_filterMap hn
    · have hold := h _ _ hpc'
      rcases hacc with rfl | rfl
      · refine hold.sublist (List.Sublist.append_left ?_ _)
        exact (List.sublist_cons_self o rest).filterMap id
      · cases o with
        | none => simpa using hold
        | some t => simpa using hold

/-- The runs of a collection are runs of the threads. -/
theorem reachable_of_collection {C : State τ ι → Label τ ι → Prop}
    (h : (collection cfg).ReachableUnder C s) : (machine cfg).Reachable s := by
  induction h with
  | init h => exact h.1
  | step _ _ hs ih => exact ih.next hs

theorem collecting_of_reachable (h : (machine cfg).Reachable s) : Collecting s := by
  refine (h.invariant (I := fun s => (machine cfg).Reachable s ∧ Collecting s) ?_ ?_).2
  · rintro s rfl
    exact ⟨.init rfl, by rintro rest acc ⟨⟩⟩
  · intro s a s' ⟨hr, hc⟩ _ hs
    exact ⟨hr.next hs, hc.step (nodup_of_reachable hr) hs⟩

/--
Without registrations while they are being stopped, `stop_all_mutators` does not panic and visits
every mutator of the table once that is not about to terminate; those have empty buffers then, what
was free is in their bump pointers, and nobody else's allocator has changed.
-/
theorem stop_all_mutators_visits {acc : List τ}
    (h : (collection cfg).ReachableUnder NoRegistration s)
    (hs : step cfg s .collector = some s') (hret : s'.collector = .returned acc)
    (hallocs : ∀ t, (Allocation.machine acfg).ReachableUnder (Allocation.Unwrapped acfg)
      (allocs t)) :
    ∃ allocs', stopAllMutators acfg allocs acc = some (allocs', acc) ∧ acc.Nodup ∧
      (∀ t ∈ acc, (allocs' t).tlab = .new ∧ (allocs' t).bump = (allocs t).free ∧
        (allocs' t).blocks = (allocs t).blocks) ∧
      (∀ t, t ∉ acc → allocs' t = allocs t) ∧
      ∀ t, some t ∈ s'.inner.threads → cfg.isMutator t = true →
        (s'.threads t).thread.isAboutToTerminate = false → t ∈ acc := by
  obtain ⟨hi, hst⟩ := collectionInv_of_reachable h
  obtain ⟨hpc, rfl⟩ := collectorStep_returned hs hret
  have hnodup : acc.Nodup := by
    simpa using collecting_of_reachable (reachable_of_collection h) [] acc hpc
  refine ⟨_, stopAllMutators_eq (fun t => Allocation.inv_of_reachable (hallocs t)) hnodup, hnodup,
    fun t ht => ?_, fun t ht => if_neg ht, fun t ht hmut hrunning => ?_⟩
  · rw [if_pos ht]
    exact ⟨rfl, rfl, rfl⟩
  · rcases hst.remaining [] (by rw [hpc]; rfl) t ht hmut with hmem | hblocked | hending
    · exact absurd hmem List.not_mem_nil
    · exact (hst.complete [] acc hpc t ht hmut hblocked).resolve_left List.not_mem_nil
    · rw [hending] at hrunning
      cases hrunning

/-- A mutator that has got a block from MMTk and filled its buffer. -/
def buffered : Allocation.State :=
  ⟨⟨4112, 8192⟩, ⟨4112, 8192⟩, .idle, [⟨4096, 8192⟩], [⟨4096, 4112⟩]⟩

/-- One of two mutators has started, and is stopped at a yieldpoint. -/
theorem stop_all_mutators_visits_yieldpoint : ∃ s s' : State Bool Unit,
    (collection .mutators).ReachableUnder NoRegistration s ∧
    step .mutators s .collector = some s' ∧ s'.collector = .returned [true] ∧
    ∃ allocs', stopAllMutators .immix (fun _ => buffered) [true] = some (allocs', [true]) ∧
      (allocs' true).tlab = .new := by
  obtain ⟨s₀, h₀, hidle, s, s', hs, hstep, hret⟩ : ∃ s₀ : State Bool Unit,
      (machine .mutators).checkedExec (fun _ _ => True) .new
        (List.replicate 13 (.startup true)) = some s₀ ∧ s₀.collector = .idle ∧
      ∃ s s', (collection .mutators).checkedExec NoRegistration s₀ stopRun = some s ∧
        step .mutators s .collector = some s' ∧ s'.collector = .returned [true] :=
    ⟨_, rfl, rfl, _, _, rfl, rfl, rfl⟩
  have hr := Machine.ReachableUnder.checkedExec
    (.init (M := collection .mutators) ⟨.checkedExec (.init rfl) h₀, hidle⟩) hs
  have hbuffered : (Allocation.machine .immix).checkedExec (Allocation.Unwrapped .immix) .new
      [.allocate 8 3 .default, .mmtk (.fresh ⟨4096, 8192⟩ 4096 (some ⟨4112, 8192⟩)), .refill] =
      some buffered := rfl
  obtain ⟨allocs', hall, -, hvisited, -⟩ := stop_all_mutators_visits hr hstep hret
    (fun _ => .checkedExec (.init rfl) hbuffered)
  exact ⟨s, s', hr, hstep, hret, allocs', hall, (hvisited true List.mem_cons_self).1⟩

end VmkitCore.ThreadManager
