import VmkitCore.Threading.StopTheWorld
import VmkitCore.Threading.ThreadTable

/-! # Registration during a collection

Nothing holds a thread back that starts after `block_all_mutators_for_gc` has
returned: it puts itself into the table, finds that nobody has asked it to block,
and runs managed code while the collector still works.
-/

namespace VmkitCore.ThreadManager

variable {τ ι : Type*} [DecidableEq τ] [DecidableEq ι] {cfg : Config τ ι} {s s' : State τ ι} {t : τ}

/-- Past its registration and in managed code of its own. -/
def RunsManaged (s : State τ ι) (t : τ) : Prop :=
  s.phase t = .running ∧ (s.threads t).pc.isManaged = true

/-- The number of steps to the registration, at most. -/
def Phase.distance (pc : Blocking.Pc ι) : Phase → ℕ
  | .unstarted => 11
  | .spawned => 10
  | .enabling => match pc with
    | .enableTest => 9
    | .enableTake => 8
    | .enableClear => 7
    | _ => 6
  | .processing => 5
  | .parking => match pc with
    | .enterLoad => 4
    | .enterCas => 3
    | _ => 2
  | .parked _ => 1
  | .leaving | .running => 0

/-- Just registered, and still in native code. -/
def JustRegistered (s : State τ ι) (t : τ) : Prop :=
  s.phase t = .leaving ∧ (s.threads t).pc = .native ∧ (s.threads t).thread.execStatus = .inNative

/-- A thread that starts is never stuck while the manager's monitor is free. -/
theorem TableInv.startup_progress (h : TableInv s) (hi : Inv cfg s) (hlock : s.innerLocked = false)
    (hr : (s.phase t).isRegistered = false) :
    ∃ s', ThreadManager.startup cfg s t = some s' ∧ s'.innerLocked = false ∧
      (JustRegistered s' t ∨ (s'.phase t).isRegistered = false ∧
        (s'.phase t).distance (s'.threads t).pc < (s.phase t).distance (s.threads t).pc) := by
  have hstart := h.starts t
  unfold ThreadManager.startup
  cases hp : s.phase t
  all_goals simp only [Phase.Starts, hp, Phase.distance] at hstart ⊢
  case unstarted =>
    exact ⟨_, rfl, hlock, .inr (by simp [Phase.isRegistered])⟩
  case spawned =>
    obtain ⟨hpc, hst⟩ := hstart
    split
    · simp only [Blocking.call, hpc, Option.map_some]
      refine ⟨_, rfl, hlock, .inr ?_⟩
      simp [Phase.isRegistered, Blocking.State.setThread]
    · exact ⟨_, rfl, hlock, .inr (by simp [Phase.isRegistered])⟩
  case enabling =>
    obtain ⟨hpc | hpc | hpc | hpc, hst⟩ := hstart
    · simp only [hpc, if_true]
      exact ⟨_, rfl, hlock, .inr (by simp [Phase.isRegistered])⟩
    all_goals
      simp only [hpc, reduceCtorEq, if_false, Blocking.targetStep, Option.map_some]
      refine ⟨_, rfl, hlock, .inr ?_⟩
      simp only [State.setThread_phase, State.setThread_self, hp, Blocking.State.setThread,
        Phase.isRegistered, true_and]
    · cases (s.threads t).thread.yieldpointsEnabled &&
        (s.threads t).thread.yieldpointRequestPending <;> simp
    · simp
    · simp
  case processing =>
    obtain ⟨hpc, hst⟩ := hstart
    simp only [hlock, Bool.false_eq_true, if_false, h.process hi, Option.bind_some, hst,
      reduceCtorEq, or_self, Blocking.call, hpc, Option.map_some]
    exact ⟨_, rfl, rfl, .inr (by simp [Phase.isRegistered])⟩
  case parking =>
    rcases hstart with ⟨hpc | hpc, hst⟩ | ⟨hpc, hst⟩
    all_goals
      simp only [hpc, reduceCtorEq, if_false, if_true, Blocking.targetStep, hst, Option.map_some]
      refine ⟨_, rfl, hlock, .inr ?_⟩
    all_goals simp [Phase.isRegistered, hp, Blocking.State.setThread]
  case parked scope =>
    obtain ⟨rfl, hpc, hst⟩ := hstart
    simp only [hlock, Bool.false_eq_true, if_false, if_true]
    exact ⟨_, rfl, rfl, .inl ⟨by simp, hpc, hst⟩⟩
  all_goals
    rw [hp] at hr
    cases hr

/-- Nobody has asked a thread to block that was not in the table, so it leaves native code. -/
theorem JustRegistered.leads (h : JustRegistered s t) :
    ∃ s', (machine cfg).Leads (· ≠ .collector) s s' ∧ RunsManaged s' t := by
  obtain ⟨hp, hpc, hst⟩ := h
  let c := s.threads t
  let load := s.setThread t { c with pc := .leaveLoad true }
  let cas := load.setThread t { c with pc := .leaveCas true }
  let left := cas.setThread t (c.setThread { c.thread with execStatus := .inManaged } .managed)
  have h₁ : startup cfg s t = some load := by
    simp [startup, hp, hpc, Blocking.call, load, c]
  have h₂ : startup cfg load t = some cas := by
    simp [startup, hp, hst, Blocking.targetStep, load, cas, c]
  have h₃ : startup cfg cas t = some left := by
    simp [startup, hp, hst, Blocking.targetStep, load, cas, left, c, Blocking.State.setThread]
  have h₄ : startup cfg left t = some (left.setPhase t .running) := by
    simp [startup, hp, left, cas, load, Blocking.State.setThread]
  refine ⟨left.setPhase t .running, ?_, by simp, by simp [left, Blocking.State.setThread,
    Blocking.Pc.isManaged]⟩
  exact .head (a := .startup t) (by simp) h₁ (.head (a := .startup t) (by simp) h₂
    (.head (a := .startup t) (by simp) h₃ (.head (a := .startup t) (by simp) h₄ .refl)))

/-- A thread outside of the table registers and runs managed code, without the collector. -/
theorem TableInv.leads (h : TableInv s) (hi : Inv cfg s) (hlock : s.innerLocked = false)
    (hr : (s.phase t).isRegistered = false) :
    ∃ s', (machine cfg).Leads (· ≠ .collector) s s' ∧ RunsManaged s' t := by
  generalize hn : (s.phase t).distance (s.threads t).pc = n
  induction n using Nat.strongRecOn generalizing s with
  | ind n ih =>
    obtain ⟨s₁, hs, hlock₁, hnext⟩ := h.startup_progress hi hlock hr
    have hend : ∃ s', (machine cfg).Leads (· ≠ .collector) s₁ s' ∧ RunsManaged s' t := by
      rcases hnext with hj | ⟨hr₁, hlt⟩
      · exact hj.leads
      · exact ih _ (hn ▸ hlt) (h.startup hi hs) (hi.startup hs) hlock₁ hr₁ rfl
    obtain ⟨s', hl, hrun⟩ := hend
    exact ⟨s', .head (a := .startup t) nofun hs hl, hrun⟩

/--
From the return of `block_all_mutators_for_gc` on, and before the collector goes on to
`unblock_all_mutators_for_gc`, no mutator registers and runs managed code in any run exactly when
every mutator is in the table already.
-/
theorem registration_held_until_unblock_iff {acc : List τ} (h : (machine cfg).Reachable s)
    (hret : s.collector = .returned acc) :
    (∀ s', (machine cfg).Leads (· ≠ .collector) s s' → ∀ t, cfg.isMutator t = true →
      (s.phase t).isRegistered = false → ¬ RunsManaged s' t) ↔
    ∀ t, cfg.isMutator t = true → (s.phase t).isRegistered = true := by
  obtain ⟨hi, ht⟩ := tableInv_of_reachable h
  have hlock : s.innerLocked = false := by rw [ht.locked, hret]; rfl
  constructor
  · intro hheld t hmut
    by_contra hr
    obtain ⟨s', hl, hrun⟩ := ht.leads hi hlock (by simpa using hr)
    exact hheld s' hl t hmut (by simpa using hr) hrun
  · intro hall s' _ t hmut hr
    rw [hall t hmut] at hr
    cases hr

/-- The collector stops the first thread, which is in native code. -/
def stopNativeRun : List (Label Bool Unit) :=
  List.replicate 13 (.startup true) ++ .call true .enterNative :: List.replicate 2 (.step true) ++
    List.replicate 44 .collector

theorem registration_held_until_unblock_iff_native : ∃ s : State Bool Unit,
    s.collector = .returned [true] ∧
    ¬ ∀ s', (machine .mutators).Leads (· ≠ .collector) s s' →
      ∀ t, Config.mutators.isMutator t = true →
        (s.phase t).isRegistered = false → ¬ RunsManaged s' t := by
  obtain ⟨s, hs, hret, hp⟩ : ∃ s : State Bool Unit,
      (machine .mutators).checkedExec (fun _ _ => True) .new stopNativeRun = some s ∧
      s.collector = .returned [true] ∧ s.phase false = .unstarted := ⟨_, rfl, rfl, rfl⟩
  refine ⟨s, hret, fun hheld => ?_⟩
  have hall := (registration_held_until_unblock_iff (.checkedExec (.init rfl) hs) hret).mp hheld
  have hr := hall false rfl
  rw [hp] at hr
  cases hr

/-- A thread that starts after the return runs managed code while the first one is blocked. -/
theorem registration_not_held : ∃ s s' : State Bool Unit,
    (machine .mutators).checkedExec (fun _ _ => True) .new stopNativeRun = some s ∧
    s.collector = .returned [true] ∧ Config.mutators.isMutator false = true ∧
    s.phase false = .unstarted ∧
    (machine .mutators).exec s (List.replicate 13 (.startup false)) = some s' ∧
    s'.collector = .returned [true] ∧ some false ∈ s'.inner.threads ∧ RunsManaged s' false :=
  ⟨_, _, rfl, rfl, rfl, rfl, rfl, rfl, by decide, rfl, rfl⟩

end VmkitCore.ThreadManager
