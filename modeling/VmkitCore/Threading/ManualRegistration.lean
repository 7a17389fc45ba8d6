import Mathlib.Data.Fintype.Basic
import VmkitCore.Threading.Moves
import VmkitCore.Threading.Settled

/-! # Mutators that register themselves by hand

`register_mutator_manual` is a second copy of the start-up, and leaves the thread in
the state `new`. A collector that reads this state takes the thread for one that does
not run, and forgets it.
-/

namespace VmkitCore.ThreadManager

variable {τ ι : Type*}

/-- A virtual machine without a main thread: threads start, or register themselves by hand. -/
def manualMachine [DecidableEq τ] [DecidableEq ι] (cfg : Config τ ι) :
    Machine (State τ ι) (VmLabel τ ι) where
  init s := s = State.new
  step s
    | .manager l => step cfg s l
    | .registerMutatorManual t => s.registerMutatorManual cfg t

/-- `block_unchecked` of the collector does not read the state of a `new` thread. -/
def NoneNew (s : State τ ι) : VmLabel τ ι → Prop
  | .manager .collector =>
    ∀ t, ((s.threads t).requesters ()).pc.loadsStatus = true → s.status t ≠ .new
  | _ => True

/-- No thread puts itself into the table while `block_all_mutators_for_gc` runs. -/
def NoneAdded (s : State τ ι) : VmLabel τ ι → Prop
  | .manager l => NoRegistration s l
  | .registerMutatorManual _ => True

instance : ∀ (s : State τ ι) (l : VmLabel τ ι), Decidable (NoneAdded s l)
  | s, .manager l => inferInstanceAs (Decidable (NoRegistration s l))
  | _, .registerMutatorManual _ => inferInstanceAs (Decidable True)

instance [Fintype τ] : ∀ (s : State τ ι) (l : VmLabel τ ι), Decidable (NoneNew s l)
  | _, .manager .collector => inferInstanceAs (Decidable (∀ _, _ → _))
  | _, .manager (.startup _) | _, .manager (.call ..) | _, .manager (.step _)
  | _, .registerMutatorManual _ => inferInstanceAs (Decidable True)

/-- The runs from any point at which the collector is about to stop the mutators. -/
def manualCollection [DecidableEq τ] [DecidableEq ι] (cfg : Config τ ι) :
    Machine (State τ ι) (VmLabel τ ι) where
  init s := (manualMachine cfg).ReachableUnder NoneNew s ∧ s.collector = .idle
  step := (manualMachine cfg).step

structure ManualInv [DecidableEq ι] (cfg : Config τ ι) (s : State τ ι) : Prop where
  settled : Inv cfg s.settled
  loaded : ∀ t, (s.threads t).Loaded ()
  free : s.inner.freeThreadIndices = []
  live : ∀ t, Live (s.phase t) (s.threads t)
  listed : ∀ t, (s.phase t).isRegistered = true → some t ∈ s.inner.threads

section Runs

variable [DecidableEq τ] [DecidableEq ι] {cfg : Config τ ι} {s s' : State τ ι} {l : VmLabel τ ι}

omit [DecidableEq τ] in
theorem ManualInv.new : ManualInv cfg (State.new : State τ ι) where
  settled := by
    have he : (State.new : State τ ι).settled = State.new := by simp [State.settled, State.new]
    rw [he]
    exact .new cfg
  loaded _ := nofun
  free := rfl
  live _ := ⟨nofun, fun _ => rfl⟩
  listed _ := nofun

/-- Registered threads stay in the table, and no slot of it becomes free. -/
theorem manualMachine_table (hf : s.inner.freeThreadIndices = [])
    (hl : ∀ t, Live (s.phase t) (s.threads t))
    (h : ∀ t, (s.phase t).isRegistered = true → some t ∈ s.inner.threads)
    (hs : (manualMachine cfg).step s l = some s') :
    s'.inner.freeThreadIndices = [] ∧ (∀ t, Live (s'.phase t) (s'.threads t)) ∧
      ∀ t, (s'.phase t).isRegistered = true → some t ∈ s'.inner.threads := by
  have hq : Quiet s s' ∨ ∃ t scope, s.phase t = .parked scope ∧
      ∃ p : Phase, p.isRegistered = true ∧ s' = s.appended t p := by
    cases l with
    | registerMutatorManual t => exact .inl (.registerMutatorManual hs)
    | manager lm =>
      refine (step_appends hl hf hs).imp_right ?_
      rintro ⟨t, scope, -, h⟩
      exact ⟨t, scope, h⟩
  rcases hq with hq | ⟨t, scope, hp, p, -, rfl⟩
  · refine ⟨hq.free.trans hf, fun t => hq.live t (hl t), fun t ht => ?_⟩
    rw [hq.threads]
    exact h t (hq.registered t ▸ ht)
  · refine ⟨hf, Live.appended hl hp, fun u hu => ?_⟩
    rw [State.appended_slots]
    by_cases hut : u = t
    · exact List.mem_append_right _ (by simp [hut])
    · exact List.mem_append_left _ (h u (by simpa [State.appended, hut] using hu))

namespace ManualInv

omit [DecidableEq τ] in
theorem statusLoaded (h : ManualInv cfg s) (hc : NoneNew s (.manager .collector)) :
    StatusLoaded s := fun t ht => ht.elim (hc t) (h.loaded t)

omit [DecidableEq τ] in
theorem loaded_moves (h : ManualInv cfg s) {b : Bool} (hm : Moves cfg b s s')
    (hc : b = false → NoneNew s (.manager .collector)) (t : τ) : (s'.threads t).Loaded () := by
  rcases hm.threads t with he | ⟨lb, hlb, hs⟩
  · rw [he]; exact h.loaded t
  · cases lb with
    | call op => exact (h.loaded t).call hs
    | step => exact (h.loaded t).targetStep hs
    | request r op => exact .request hs
    | requesterStep r => exact (h.loaded t).requesterStep (hc hlb.symm t) hs

theorem loaded_step (h : ManualInv cfg s) (hc : NoneNew s l)
    (hs : (manualMachine cfg).step s l = some s') : ∀ t, (s'.threads t).Loaded () := by
  cases l with
  | registerMutatorManual u =>
    obtain ⟨-, -, rfl⟩ := State.registerMutatorManual_result hs
    exact h.loaded
  | manager l =>
    cases l with
    | startup u =>
      exact startup_keeps (P := fun c => c.Loaded ()) (fun c _ _ => nofun)
        (fun c c' op hc hs _ => hc.call hs) (fun c c' hc hs => hc.targetStep hs) hs h.loaded
    | call u op =>
      have hm : Moves cfg true s s' := .call hs
      exact h.loaded_moves hm nofun
    | step u => exact h.loaded_moves (.threadStep hs) nofun
    | collector => exact h.loaded_moves (.collectorStep hs) fun _ => hc

/-- A step of the settled state, or one of the `new` threads. -/
theorem settled_step (h : ManualInv cfg s) (hc : NoneNew s l)
    (hs : (manualMachine cfg).step s l = some s') :
    (∃ lm, l = .manager lm ∧ step cfg s.settled lm = some s'.settled) ∨
      Inv cfg s'.settled ∧ FromThread s.settled s'.settled False := by
  cases l with
  | registerMutatorManual t => exact .inr (settled_registerMutatorManual h.settled hs)
  | manager lm =>
    refine (ThreadManager.settled_step h.settled ?_ hs).imp_left fun hs => ⟨lm, rfl, hs⟩
    rintro rfl
    exact h.statusLoaded hc

theorem step (h : ManualInv cfg s) (hc : NoneNew s l)
    (hs : (manualMachine cfg).step s l = some s') : ManualInv cfg s' := by
  have hi : Inv cfg s'.settled := by
    rcases h.settled_step hc hs with ⟨lm, -, hs⟩ | ⟨hi, -⟩
    · exact h.settled.step hs
    · exact hi
  obtain ⟨hfree, hlive, hlisted⟩ := manualMachine_table h.free h.live h.listed hs
  exact ⟨hi, h.loaded_step hc hs, hfree, hlive, hlisted⟩

end ManualInv

theorem manualInv_of_collection
    (h : (manualCollection cfg).ReachableUnder (fun s l => NoneAdded s l ∧ NoneNew s l) s) :
    ManualInv cfg s ∧ Stopping cfg s.settled := by
  refine h.invariant (I := fun s => ManualInv cfg s ∧ Stopping cfg s.settled) ?_ ?_
  · rintro s ⟨hr, hidle⟩
    refine ⟨?_, .of_none (by rw [show s.settled.collector = .idle from hidle]; rfl)⟩
    refine hr.invariant ?_ fun _ _ _ h hc hs => h.step hc hs
    rintro s rfl
    exact .new
  · rintro s l s' ⟨h, hst⟩ ⟨hadd, hnew⟩ hs
    refine ⟨h.step hnew hs, ?_⟩
    rcases h.settled_step hnew hs with ⟨lm, rfl, hs'⟩ | ⟨hi, hf⟩
    · refine hst.step h.settled ?_ hs'
      cases lm with
      | startup t => exact hadd
      | call | step | collector => trivial
    · exact hst.fromThread hi hf nofun

omit [DecidableEq τ] [DecidableEq ι] in
theorem stopped_settled {t : τ} : Stopped cfg s.settled t ↔ Stopped cfg s t := by
  simp [Stopped, Blocked]

/--
When `block_all_mutators_for_gc` returns, in a run in which `block_unchecked` never reads `new`,
every mutator that registered before it is blocked for the collection or about to terminate.
-/
theorem block_all_mutators_for_gc_stops_manual {acc : List τ}
    (h : (manualCollection cfg).ReachableUnder (fun s l => NoneAdded s l ∧ NoneNew s l) s)
    (hs : (manualCollection cfg).step s (.manager .collector) = some s')
    (hret : s'.collector = .returned acc) :
    ∀ t, cfg.isMutator t = true → (s'.phase t).isRegistered = true → Stopped cfg s' t := by
  obtain ⟨hm, hst⟩ := manualInv_of_collection h
  obtain ⟨hpc, rfl⟩ := collectorStep_returned hs hret
  intro t hmut ht
  have hrem := hst.remaining [] (by rw [show s.settled.collector = .collect [] acc from hpc]; rfl)
    t (hm.listed t ht) hmut
  exact stopped_settled.mp (hrem.resolve_left nofun)

end Runs

/-- A thread registers itself by hand, and goes into native code and back before a collection. -/
def nativeRun : List (VmLabel Bool Unit) :=
  manualRun ++ .manager (.call true .enterNative) :: List.replicate 5 (.manager (.step true)) ++
    .manager (.call true .leaveNative) :: List.replicate 8 (.manager (.step true))

theorem block_all_mutators_for_gc_stops_manual_native : ∃ s₀ s s' : State Bool Unit,
    (manualMachine .mutators).checkedExec NoneNew .new nativeRun = some s₀ ∧
    (manualCollection .mutators).checkedExec (fun s l => NoneAdded s l ∧ NoneNew s l) s₀
      (stopRun.map .manager) = some s ∧
    (manualCollection .mutators).step s (.manager .collector) = some s' ∧
    s'.collector = .returned [true] ∧ Stopped .mutators s' true := by
  obtain ⟨s₀, h₀, hidle, s, s', hs, hstep, hret, hmut, hreg⟩ : ∃ s₀ : State Bool Unit,
      (manualMachine .mutators).checkedExec NoneNew .new nativeRun = some s₀ ∧
      s₀.collector = .idle ∧ ∃ s s',
        (manualCollection .mutators).checkedExec (fun s l => NoneAdded s l ∧ NoneNew s l) s₀
          (stopRun.map .manager) = some s ∧
        (manualCollection .mutators).step s (.manager .collector) = some s' ∧
        s'.collector = .returned [true] ∧ Config.mutators.isMutator true = true ∧
        (s'.phase true).isRegistered = true :=
    ⟨_, rfl, rfl, _, _, rfl, rfl, rfl, rfl, rfl⟩
  have hr := Machine.ReachableUnder.checkedExec
    (.init (M := manualCollection .mutators) ⟨.checkedExec (.init rfl) h₀, hidle⟩) hs
  exact ⟨s₀, s, s', h₀, hs, hstep, hret,
    block_all_mutators_for_gc_stops_manual hr hstep hret true hmut hreg⟩

/-- The same collection without the way through native code: it returns, and the thread runs on. -/
theorem manual_mutator_not_stopped : ∃ s₀ s s' : State Bool Unit,
    (manualMachine .mutators).checkedExec NoneNew .new manualRun = some s₀ ∧
    s₀.collector = .idle ∧
    (manualCollection .mutators).checkedExec NoneAdded s₀
      (List.replicate 19 (.manager .collector)) = some s ∧
    (manualCollection .mutators).step s (.manager .collector) = some s' ∧
    s'.collector = .returned [] ∧ Config.mutators.isMutator true = true ∧
    s'.phase true = .running ∧ (s'.threads true).pc = .managed ∧ ¬ Stopped .mutators s' true :=
  ⟨_, _, _, rfl, rfl, rfl, rfl, rfl, rfl, rfl, rfl, by rintro (h | h) <;> cases h⟩

end VmkitCore.ThreadManager
