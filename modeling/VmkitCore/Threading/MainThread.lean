import Mathlib.Data.Finset.Card
import VmkitCore.Threading.StopTheWorld
import VmkitCore.Threading.ThreadTable

/-! # The main thread

`Thread::main` puts the main thread into the empty table, and goes on to `startoff`,
which adds it like every other thread. Threads are started or register themselves
by hand meanwhile. Each has one slot as long as the main thread is not added again.
-/

namespace VmkitCore.Blocking

variable {ι ρ : Type*} {s s' : State ι ρ}

/-- The thread has begun to terminate. -/
def Pc.ending : Pc ι → Bool
  | .terminateNotify | .terminateLock | .terminateFlag | .terminateFlagNotify | .terminateUnlock
  | .terminateManager | .terminated => true
  | _ => false

@[simp] theorem Pc.ending_wake (pc : Pc ι) : pc.wake.ending = pc.ending := by
  cases pc <;> rfl

theorem call_ending {op : Op ι} (hop : op ≠ .terminate) (hs : call s op = some s') :
    s'.pc.ending = false := by
  unfold call at hs
  split at hs <;> cases hs <;> first | rfl | exact absurd rfl hop

theorem acquire_status {pc : Pc ι} (hs : s.acquire pc = some s') :
    s'.thread = s.thread ∧ s'.pc = pc := by
  obtain ⟨-, rfl⟩ := State.acquire_eq_some.mp hs
  exact ⟨rfl, rfl⟩

variable [DecidableEq ι] {as : List (BlockAdapter ι)}

theorem targetStep_ending (hs : targetStep as s = some s') (h : s.pc.ending = false) :
    s'.pc.ending = false := by
  unfold targetStep at hs
  cases hpc : s.pc
  all_goals
    simp only [hpc] at hs h
    try cases hs
    try cases h
  case yieldpointLock | enterBlockedLock | woken | blockLock =>
    rw [(acquire_status hs).2]; rfl
  case checkLock f =>
    cases f with
    | leaveNative => rw [(acquire_status hs).2]; rfl
    | yieldpoint | blockSelf => cases hs; rfl
  case checkUnlock f => cases f <;> cases hs <;> rfl
  all_goals first | rfl | (repeat' split) <;> rfl

/-- The state of the target stays, or becomes one of a running thread. -/
def KeepsRunning (s s' : State ι ρ) : Prop :=
  s'.thread.execStatus = s.thread.execStatus ∨ s'.thread.execStatus.notRunning = false

omit [DecidableEq ι] in
theorem KeepsRunning.ne (h : KeepsRunning s s') {st : ThreadState} (hst : st.notRunning = true)
    (hne : s.thread.execStatus ≠ st) : s'.thread.execStatus ≠ st := by
  rcases h with h | h
  · rwa [h]
  · rintro rfl
    rw [hst] at h
    cases h

omit [DecidableEq ι] in
theorem KeepsRunning.acquire {pc : Pc ι} (hs : s.acquire pc = some s') : KeepsRunning s s' :=
  .inl (by rw [(acquire_status hs).1])

theorem targetStep_status (hs : targetStep as s = some s') : KeepsRunning s s' := by
  unfold targetStep at hs
  cases hpc : s.pc
  all_goals
    simp only [hpc] at hs
    try cases hs
  case yieldpointLock | enterBlockedLock | woken | blockLock | terminateLock => exact .acquire hs
  case checkLock f =>
    cases f with
    | leaveNative => exact .acquire hs
    | yieldpoint | blockSelf => cases hs; exact .inl rfl
  case checkUnlock f => cases f <;> cases hs <;> exact .inl rfl
  case blockRequest a => cases a <;> exact .inl rfl
  case enterBlockedStatus | checkStatus => exact .inr rfl
  case enterBlockedAcknowledge | checkAcknowledge =>
    exact .inl (by simp [State.setThread, Thread.acknowledgeBlockRequests_fst])
  case enterCas | leaveCas =>
    split
    · exact .inr rfl
    · exact .inl rfl
  case yieldpointTake | checkBlocked => split <;> exact .inl rfl
  all_goals exact .inl rfl

variable [DecidableEq ρ] {r : ρ}

theorem requesterStep_status (hs : requesterStep s r = some s') : KeepsRunning s s' := by
  unfold requesterStep at hs
  cases hpc : (s.requesters r).pc
  all_goals
    simp only [hpc] at hs
    try cases hs
  case lock | woken => exact .inl (by rw [(acquireFor_result hs).1])
  case blockLock | unblockLock =>
    split at hs
    · cases hs; exact .inl rfl
    · exact .inl (by rw [(acquireFor_result hs).1])
  case blockRequest a async | unblockClear a | unblockMark a | blockClear a | blockMark a =>
    cases a <;> exact .inl rfl
  case statusCas a async old =>
    split
    · next he =>
      subst he
      cases hst : s.thread.execStatus <;>
        simp [KeepsRunning, State.setRequester, blockedStatus, ThreadState.notRunning, hst]
    · exact .inl rfl
  case blockTerminate | waitTest => split <;> exact .inl rfl
  all_goals exact .inl rfl

end VmkitCore.Blocking

namespace VmkitCore.ThreadManager

variable {τ ι : Type*}

/-- `add_main_thread`, with the index it stores. -/
def Inner.addMainThread (m : Inner τ) (t : τ) : Option (Inner τ × ℕ) :=
  if m.threads.isEmpty && m.freeThreadIndices.isEmpty && m.aboutToTerminate.isEmpty then
    some ({ m with threads := m.threads ++ [some t] }, 0)
  else none

/-- Every thread as its constructor leaves it, before there is any activity. -/
def State.newThreads (cfg : Config τ ι) : State τ ι :=
  { (State.new : State τ ι) with
    threads := fun t => { Blocking.State.started with
      thread := { Thread.forMutator with activeMutatorContext := cfg.isMutator t } } }

/-- `ThreadManager::threads` -/
def State.tableThreads (s : State τ ι) : List τ := s.inner.threads.filterMap id

/-- `ActivePlan::mutators` -/
def State.mutators (s : State τ ι) : List τ :=
  s.tableThreads.filter fun t => (s.threads t).thread.activeMutatorContext

/-- `ActivePlan::number_of_mutators` -/
def State.numberOfMutators (s : State τ ι) : ℕ :=
  (s.tableThreads.filter fun t => (s.threads t).thread.activeMutatorContext).length

variable [DecidableEq τ]

/-- `Thread::main` up to `startoff`, which goes on like that of a thread that was started. -/
def State.startMain (s : State τ ι) (main : τ) : Option (State τ ι) :=
  let c := s.threads main
  (s.inner.addMainThread main).map fun (m, idx) =>
    ({ s.setThread main { c with thread := { c.thread with execStatus := .inManaged } } with
      inner := m
      indexInManager := Function.update s.indexInManager main idx }).setPhase main .spawned

/-- `register_mutator_manual`: a mutator goes the way of `startoff`, but stays `new`. -/
def State.registerMutatorManual (cfg : Config τ ι) (s : State τ ι) (t : τ) :
    Option (State τ ι) :=
  if s.phase t = .unstarted ∧ cfg.isMutator t = true then some (s.setPhase t .spawned) else none

inductive VmLabel (τ ι : Type*)
  | manager (l : Label τ ι)
  | registerMutatorManual (t : τ)
  deriving DecidableEq, Repr

/-- The runs of a virtual machine that `Thread::main` has started. -/
def mainMachine [DecidableEq ι] (cfg : Config τ ι) (main : τ) :
    Machine (State τ ι) (VmLabel τ ι) where
  init s := cfg.isMutator main = true ∧ (State.newThreads cfg).startMain main = some s
  step s
    | .manager l => step cfg s l
    | .registerMutatorManual t => s.registerMutatorManual cfg t

/-- A thread that has not terminated is in the slot of its index only, and is listed once. -/
structure OneSlot (cfg : Config τ ι) (main : τ) (s : State τ ι) : Prop where
  slot : ∀ t, cfg.isMutator t = true → t = main ∨ (s.phase t).isRegistered = true →
    (s.threads t).pc ≠ .terminated →
    ∀ i, s.inner.threads[i]? = some (some t) ↔ i = s.indexInManager t
  mutators : s.mutators.Nodup
  numberOfMutators : s.numberOfMutators = s.mutators.toFinset.card
  returned : ∀ acc, s.collector = .returned acc → acc.Nodup

/-- The step is not the `add_thread` that `startoff` calls for the main thread. -/
def NotMainAgain (main : τ) (s : State τ ι) (l : VmLabel τ ι) : Prop :=
  l = .manager (.startup main) → ∀ scope, s.phase main ≠ .parked scope

/-- The thread is not marked terminated, and ends only once it runs its code. -/
structure Live (p : Phase) (c : Blocking.State ι Unit) : Prop where
  status : c.thread.execStatus ≠ .terminated
  ending : p ≠ .running → c.pc.ending = false

/-- The lists that the collector makes of the table name every thread once. -/
def CollectorPc.Distinct : CollectorPc τ → Prop
  | .collect rest acc => (acc ++ rest.filterMap id).Nodup
  | .returned acc => acc.Nodup
  | _ => True

/-- What a step changes that adds no thread to the table. -/
structure Quiet (s s' : State τ ι) : Prop where
  threads : s'.inner.threads = s.inner.threads
  free : s'.inner.freeThreadIndices = s.inner.freeThreadIndices
  index : s'.indexInManager = s.indexInManager
  registered : ∀ t, (s'.phase t).isRegistered = (s.phase t).isRegistered
  live : ∀ t, Live (s.phase t) (s.threads t) → Live (s'.phase t) (s'.threads t)
  distinct : s.tableThreads.Nodup → s.collector.Distinct → s'.collector.Distinct

/-- What is so from the start on: the main thread is in the first slot for ever. -/
structure MainInv (main : τ) (s : State τ ι) : Prop where
  free : s.inner.freeThreadIndices = []
  live : ∀ t, Live (s.phase t) (s.threads t)
  first : s.inner.threads[0]? = some (some main)

/-- What is so until the main thread is added again. -/
structure Single (main : τ) (s : State τ ι) : Prop where
  nodup : s.inner.threads.Nodup
  members : ∀ t, some t ∈ s.inner.threads → t = main ∨ (s.phase t).isRegistered = true
  index : ∀ t, t = main ∨ (s.phase t).isRegistered = true →
    s.inner.threads[s.indexInManager t]? = some (some t)
  distinct : s.collector.Distinct

namespace Inner

variable {m m' : Inner τ} {status : τ → ThreadState} {index : τ → ℕ} {again : Bool}

omit [DecidableEq τ] in
/-- While no thread is terminated there is nothing to process. -/
theorem process_eq (h : ∀ t, status t ≠ .terminated)
    (hm : m.processAboutToTerminate status index = some (m', again)) : m' = m ∧ again = false := by
  have hfind : ∀ n i, ∀ o ∈ findTerminated status m.threads i n, o = none := by
    intro n
    induction n with
    | zero => simp [findTerminated]
    | succ n ih =>
      intro i
      rw [findTerminated]
      split
      · simpa [h] using ih (i + 1)
      · simp
  obtain ⟨o, ho, hm⟩ := Option.bind_eq_some_iff.mp hm
  obtain rfl := hfind _ _ o ho
  cases hm
  exact ⟨rfl, rfl⟩

end Inner

namespace Live

variable {p p' : Phase} {c c' : Blocking.State ι Unit}

theorem call {op : Blocking.Op ι} (h : Live p c) (hc : Blocking.call c op = some c')
    (hop : p' ≠ .running → op ≠ .terminate) : Live p' c' :=
  ⟨(Blocking.call_agrees hc).execStatus ▸ h.status, fun hp => Blocking.call_ending (hop hp) hc⟩

theorem setPhase (h : Live p c) (hp : p ≠ .running) : Live p' c := ⟨h.status, fun _ => h.ending hp⟩

variable [DecidableEq ι]

theorem request {op : Blocking.RequesterOp ι} (h : Live p c)
    (hc : Blocking.request c () op = some c') : Live p c' := by
  obtain ⟨ht, -⟩ := Blocking.request_result hc
  exact ⟨ht ▸ h.status, fun hp => (Blocking.request_pc hc).symm ▸ h.ending hp⟩

theorem targetStep {as : List (BlockAdapter ι)} (h : Live p c)
    (hc : Blocking.targetStep as c = some c') : Live p c' :=
  ⟨(Blocking.targetStep_status hc).ne rfl h.status,
    fun hp => Blocking.targetStep_ending hc (h.ending hp)⟩

theorem requesterStep (h : Live p c) (hc : Blocking.requesterStep c () = some c') :
    Live p c' := by
  refine ⟨(Blocking.requesterStep_status hc).ne rfl h.status, fun hp => ?_⟩
  rcases Blocking.requesterStep_pc hc with he | he
  · exact he.symm ▸ h.ending hp
  · rw [he, Blocking.Pc.ending_wake]
    exact h.ending hp

end Live

namespace Quiet

variable {s s' : State τ ι} {main t : τ} {c : Blocking.State ι Unit} {p : Phase}
  {pc : CollectorPc τ}

/-- One thread goes on, and the list of ending threads may grow. -/
theorem update {m : Inner τ} (ht : m.threads = s.inner.threads)
    (hf : m.freeThreadIndices = s.inner.freeThreadIndices)
    (hr : p.isRegistered = (s.phase t).isRegistered)
    (hc : Live (s.phase t) (s.threads t) → Live p c) :
    Quiet s { s with
      threads := Function.update s.threads t c
      phase := Function.update s.phase t p
      inner := m } := by
  refine ⟨ht, hf, rfl, fun u => ?_, fun u hu => ?_, fun _ => id⟩
  all_goals
    by_cases hut : u = t
    · subst hut; simp_all
    · simp_all

theorem setThread (hc : Live (s.phase t) (s.threads t) → Live (s.phase t) c) :
    Quiet s (s.setThread t c) := by
  have h := update (s := s) (m := s.inner) (p := s.phase t) rfl rfl rfl hc
  rwa [Function.update_eq_self] at h

theorem setPhase (hr : p.isRegistered = (s.phase t).isRegistered)
    (hc : Live (s.phase t) (s.threads t) → Live p (s.threads t)) : Quiet s (s.setPhase t p) := by
  have h := update (s := s) (m := s.inner) (c := s.threads t) rfl rfl hr hc
  rwa [Function.update_eq_self] at h

omit [DecidableEq τ] in
theorem setCollector {b : Bool}
    (h : s.tableThreads.Nodup → s.collector.Distinct → pc.Distinct) :
    Quiet s { s with innerLocked := b, collector := pc } :=
  ⟨rfl, rfl, rfl, fun _ => rfl, fun _ => id, h⟩

variable [DecidableEq ι] {cfg : Config τ ι}

/-- A thread on its way into the table, but for `add_thread` itself. -/
theorem startup (h : ∀ u, Live (s.phase u) (s.threads u))
    (hs : ThreadManager.startup cfg s t = some s')
    (hp : ∀ scope, s.phase t ≠ .parked scope) : Quiet s s' := by
  have hprocess : ∀ {m again}, s.inner.processAboutToTerminate s.status s.indexInManager =
      some (m, again) → m = s.inner ∧ again = false :=
    Inner.process_eq fun u => (h u).status
  cases startup_cases hs with
  | start hpt =>
    refine update rfl rfl (by rw [hpt]; rfl) fun hl => ?_
    rw [hpt] at hl
    exact ⟨nofun, fun _ => hl.ending nofun⟩
  | enter _ hrun _ hr => exact setPhase hr fun hl => hl.setPhase hrun
  | call _ _ hr hc hop => exact update rfl rfl hr fun hl => hl.call hc fun _ => hop
  | target _ hc => exact setThread fun hl => hl.targetStep hc
  | again _ _ hm => cases (hprocess hm).2
  | park hpt _ hm =>
    obtain ⟨rfl, -⟩ := hprocess hm
    exact setPhase (by rw [hpt]; rfl) fun hl => hl.setPhase (by rw [hpt]; exact nofun)
  | enterNative hpt _ hm hc =>
    obtain ⟨rfl, -⟩ := hprocess hm
    exact update rfl rfl (by rw [hpt]; rfl) fun hl => hl.call hc nofun
  | add hpt => exact absurd hpt (hp _)

omit [DecidableEq ι] in
theorem call {op : Blocking.Op ι} (hs : ThreadManager.call s t op = some s') : Quiet s s' := by
  obtain ⟨hp, c, hc, rfl⟩ := call_eq_some.mp hs
  exact setThread fun hl => hl.call hc fun hn => absurd hp hn

theorem threadStep (hs : ThreadManager.threadStep cfg s t = some s') : Quiet s s' := by
  obtain ⟨-, c, hc, ⟨-, rfl⟩ | ⟨-, -, m, hm, rfl⟩⟩ := threadStep_cases hs
  · exact setThread fun hl => hl.targetStep hc
  · have hf : m.freeThreadIndices = s.inner.freeThreadIndices := by
      unfold Inner.addAboutToTerminateCurrent at hm
      split at hm <;> cases hm
      rfl
    have hu := update (p := s.phase t) (Inner.threads_addAboutToTerminateCurrent hm) hf rfl
      fun hl => hl.targetStep hc
    rwa [Function.update_eq_self] at hu

omit [DecidableEq ι] in
theorem onThread {o : Option (Blocking.State ι Unit)} (hs : s.onThread t o pc = some s')
    (hd : pc.Distinct) (hc : ∀ c, o = some c → Live (s.phase t) (s.threads t) →
      Live (s.phase t) c) : Quiet s s' := by
  obtain ⟨c, hoc, rfl⟩ := Option.map_eq_some_iff.mp hs
  obtain ⟨h₁, h₂, h₃, h₄, h₅, -⟩ := setThread (hc c hoc)
  exact ⟨h₁, h₂, h₃, h₄, h₅, fun _ _ => hd⟩

theorem request {op : Blocking.RequesterOp ι}
    (hs : s.onThread t (Blocking.request (s.threads t) () op) pc = some s')
    (hd : pc.Distinct) : Quiet s s' :=
  onThread hs hd fun _ hc hl => hl.request hc

theorem requesterStep
    (hs : s.onThread t (Blocking.requesterStep (s.threads t) ()) pc = some s')
    (hd : pc.Distinct) : Quiet s s' :=
  onThread hs hd fun _ hc hl => hl.requesterStep hc

theorem runMethod (hs : s.runMethod t pc = some s') (hd : pc.Distinct)
    (hd' : s.collector.Distinct) : Quiet s s' := by
  rcases State.runMethod_eq_some.mp hs with ⟨-, rfl⟩ | ⟨-, hs⟩
  · exact setCollector fun _ _ => hd
  · exact requesterStep hs hd'

theorem collectorStep (h : ∀ u, Live (s.phase u) (s.threads u))
    (hs : ThreadManager.collectorStep cfg s = some s') : Quiet s s' := by
  unfold ThreadManager.collectorStep at hs
  cases hpc : s.collector
  all_goals simp only [hpc] at hs
  case retain todo kept =>
    cases todo with
    | nil => cases kept <;> cases hs <;> exact setCollector fun _ _ => trivial
    | cons t todo => exact request hs trivial
  case sync todo | unblock todo =>
    cases todo with
    | nil => cases hs; exact setCollector fun _ _ => trivial
    | cons t todo => exact request hs trivial
  case retainTest t todo kept =>
    split at hs
    · cases hs; exact setCollector fun _ _ => trivial
    · exact request hs trivial
  case process =>
    split at hs
    · cases hs
    obtain ⟨⟨m, again⟩, hm, rfl⟩ := Option.map_eq_some_iff.mp hs
    obtain ⟨rfl, rfl⟩ := Inner.process_eq (fun u => (h u).status) hm
    exact setCollector fun _ _ => trivial
  case collectLock =>
    split at hs
    · cases hs
    · cases hs
      exact setCollector fun hn _ => hn
  case collect rest acc =>
    rcases rest with _ | ⟨_ | t, rest⟩
    · cases hs
      exact setCollector fun _ hd => by simpa [hpc, CollectorPc.Distinct] using hd
    · cases hs
      exact setCollector fun _ hd => by simpa [hpc, CollectorPc.Distinct] using hd
    · cases hs
      refine setCollector fun _ hd => ?_
      rw [hpc] at hd
      simp only [CollectorPc.Distinct, List.filterMap_cons, id_eq] at hd ⊢
      split
      · simpa using hd
      · exact hd.sublist ((List.sublist_cons_self ..).append_left _)
  case idle | returned => cases hs; exact setCollector fun _ _ => trivial
  case scan | unblockScan =>
    split at hs
    · cases hs
    · cases hs; exact setCollector fun _ _ => trivial
  case retainLock t todo kept | syncLock t todo | unblockLock t todo =>
    exact requesterStep hs trivial
  case retainBlock t todo kept | syncBlock t todo | unblockRun t todo =>
    exact runMethod hs trivial (by rw [hpc]; trivial)
  case retainUnlock t todo kept | syncCall t todo | syncUnlock t todo | unblockCall t todo |
      unblockUnlock t todo =>
    exact request hs trivial

end Quiet

/-- A thread that was outside of the table is at its end. -/
def State.appended (s : State τ ι) (t : τ) (p : Phase) : State τ ι :=
  ({ s with
    inner := { s.inner with threads := s.inner.threads ++ [some t] }
    indexInManager := Function.update s.indexInManager t s.inner.threads.length }).setPhase t p

@[simp] theorem State.appended_slots {s : State τ ι} {t : τ} {p : Phase} :
    (s.appended t p).inner.threads = s.inner.threads ++ [some t] := rfl

section Runs

variable [DecidableEq ι] {cfg : Config τ ι} {main t : τ} {s s' : State τ ι} {l : VmLabel τ ι}
  {p : Phase}

theorem startup_parked (h : s.inner.freeThreadIndices = []) {scope : Bool}
    (hp : s.phase t = .parked scope) (hs : ThreadManager.startup cfg s t = some s') :
    ∃ p : Phase, p.isRegistered = true ∧ s' = s.appended t p := by
  simp only [ThreadManager.startup, hp] at hs
  split at hs
  · cases hs
  rw [Inner.addThread_of_free h] at hs
  exact ⟨_, by cases scope <;> rfl, (Option.some.inj hs).symm⟩

/-- A step leaves the table as it is, or adds one thread at its end. -/
theorem step_appends {l : Label τ ι} (hl : ∀ u, Live (s.phase u) (s.threads u))
    (hf : s.inner.freeThreadIndices = []) (hs : step cfg s l = some s') :
    Quiet s s' ∨ ∃ t scope, l = .startup t ∧ s.phase t = .parked scope ∧
      ∃ p : Phase, p.isRegistered = true ∧ s' = s.appended t p := by
  cases l with
  | call t op => exact .inl (.call hs)
  | step t => exact .inl (.threadStep hs)
  | collector => exact .inl (.collectorStep hl hs)
  | startup t =>
    by_cases hp : ∃ scope, s.phase t = .parked scope
    · obtain ⟨scope, hp⟩ := hp
      exact .inr ⟨t, scope, rfl, hp, startup_parked hf hp hs⟩
    · exact .inl (.startup hl hs fun scope hs => hp ⟨scope, hs⟩)

omit [DecidableEq ι] in
theorem State.registerMutatorManual_result (hs : s.registerMutatorManual cfg t = some s') :
    s.phase t = .unstarted ∧ cfg.isMutator t = true ∧ s' = s.setPhase t .spawned := by
  unfold State.registerMutatorManual at hs
  split at hs
  · next hp => exact ⟨hp.1, hp.2, (Option.some.inj hs).symm⟩
  · cases hs

omit [DecidableEq ι] in
theorem Quiet.registerMutatorManual (hs : s.registerMutatorManual cfg t = some s') :
    Quiet s s' := by
  obtain ⟨hp, -, rfl⟩ := State.registerMutatorManual_result hs
  exact .setPhase (by rw [hp]; rfl) fun hl => hl.setPhase (by rw [hp]; exact nofun)

theorem mainMachine_step (h : MainInv main s) (hs : (mainMachine cfg main).step s l = some s') :
    Quiet s s' ∨ ∃ t scope, l = .manager (.startup t) ∧ s.phase t = .parked scope ∧
      ∃ p : Phase, p.isRegistered = true ∧ s' = s.appended t p := by
  cases l with
  | registerMutatorManual t => exact .inl (.registerMutatorManual hs)
  | manager l =>
    refine (step_appends h.live h.free hs).imp_right ?_
    rintro ⟨t, scope, rfl, h⟩
    exact ⟨t, scope, rfl, h⟩

omit [DecidableEq ι] in
theorem Live.appended (h : ∀ u, Live (s.phase u) (s.threads u)) (hp : s.phase t = .parked b)
    (u : τ) : Live ((s.appended t p).phase u) ((s.appended t p).threads u) := by
  by_cases hut : u = t
  · subst hut
    have hl : Live p (s.threads u) := (h u).setPhase (by rw [hp]; exact nofun)
    simpa [State.appended] using hl
  · simpa [State.appended, hut] using h u

omit [DecidableEq ι] in
theorem MainInv.appended (h : MainInv main s) (hp : s.phase t = .parked b) :
    MainInv main (s.appended t p) := by
  refine ⟨h.free, Live.appended h.live hp, ?_⟩
  have hlt := (List.getElem?_eq_some_iff.mp h.first).1
  rw [State.appended_slots, List.getElem?_append_left hlt]
  exact h.first

theorem MainInv.step (h : MainInv main s) (hs : (mainMachine cfg main).step s l = some s') :
    MainInv main s' := by
  rcases mainMachine_step h hs with hq | ⟨t, scope, -, hp, p, -, rfl⟩
  · exact ⟨hq.free.trans h.free, fun t => hq.live t (h.live t), hq.threads ▸ h.first⟩
  · exact h.appended hp

namespace Single

omit [DecidableEq τ] [DecidableEq ι] in
theorem quiet (h : Single main s) (hq : Quiet s s') : Single main s' := by
  refine ⟨hq.threads ▸ h.nodup, fun t ht => ?_, fun t ht => ?_, hq.distinct ?_ h.distinct⟩
  · rw [hq.registered]
    exact h.members t (hq.threads ▸ ht)
  · rw [hq.threads, hq.index]
    exact h.index t (hq.registered t ▸ ht)
  · exact Inner.nodup_filterMap h.nodup

omit [DecidableEq ι] in
theorem appended (h : Single main s) (ht : t ≠ main) (hr : (s.phase t).isRegistered = false)
    (hp : p.isRegistered = true) : Single main (s.appended t p) := by
  have hnew : some t ∉ s.inner.threads := fun hm => by
    rcases h.members t hm with rfl | hm
    · exact ht rfl
    · cases hr.symm.trans hm
  refine ⟨List.nodup_append.mpr ⟨h.nodup, by simp, ?_⟩, fun u hu => ?_, fun u hu => ?_, h.distinct⟩
  · simpa using fun o ho => ne_of_mem_of_not_mem ho hnew
  · rcases List.mem_append.mp hu with hu | hu
    · by_cases hut : u = t
      · exact absurd hu (hut ▸ hnew)
      · simpa [State.appended, hut] using h.members u hu
    · obtain rfl : u = t := by simpa using hu
      exact .inr (by simpa [State.appended] using hp)
  · by_cases hut : u = t
    · subst hut; simp [State.appended]
    · have hu' := h.index u (by simpa [State.appended, hut] using hu)
      have hlt := (List.getElem?_eq_some_iff.mp hu').1
      simpa [State.appended, hut, List.getElem?_append_left hlt] using hu'

theorem step (h : Single main s) (hi : MainInv main s) (hc : NotMainAgain main s l)
    (hs : (mainMachine cfg main).step s l = some s') : Single main s' := by
  rcases mainMachine_step hi hs with hq | ⟨t, scope, rfl, hp, p, hpr, rfl⟩
  · exact h.quiet hq
  · refine h.appended (fun ht => ?_) (by rw [hp]; rfl) hpr
    subst ht
    exact hc rfl scope hp

omit [DecidableEq ι] in
theorem oneSlot (h : Single main s) : OneSlot cfg main s := by
  have hm : s.tableThreads.Nodup := Inner.nodup_filterMap h.nodup
  refine ⟨fun t _ ht _ i => ?_, hm.filter _, ?_, fun acc hacc => ?_⟩
  · constructor
    · intro hi
      have hlt := (List.getElem?_eq_some_iff.mp hi).1
      exact (List.getElem?_inj hlt h.nodup).mp (hi.trans (h.index t ht).symm)
    · rintro rfl
      exact h.index t ht
  · exact (List.toFinset_card_of_nodup (hm.filter _)).symm
  · have hd := h.distinct
    rwa [hacc] at hd

end Single

theorem mainInv_of_init (h : (mainMachine cfg main).init s) :
    MainInv main s ∧ Single main s := by
  obtain ⟨-, hs⟩ := h
  obtain rfl := Option.some.inj hs
  have hlive : ∀ t, Live ((State.newThreads cfg).phase t) ((State.newThreads cfg).threads t) :=
    fun t => ⟨nofun, fun _ => rfl⟩
  refine ⟨⟨rfl, fun t => ?_, rfl⟩, List.nodup_singleton _, fun t ht => ?_, fun t ht => ?_, trivial⟩
  · by_cases ht : t = main
    · subst ht
      exact ⟨by simp, fun _ => by simpa using (hlive t).ending nofun⟩
    · simpa [ht] using hlive t
  · exact .inl (by simpa using List.mem_singleton.mp ht)
  · obtain rfl : t = main := by
      refine ht.resolve_right fun hr => ?_
      by_cases htm : t = main
      · simp [htm, Phase.isRegistered] at hr
      · simp [htm, State.newThreads, State.new, Phase.isRegistered] at hr
    simp [State.newThreads, State.new, Inner.new]

/-- When `startoff` adds the main thread, it is in two slots. -/
theorem notMainAgain_of_oneSlot (hm : cfg.isMutator main = true) (h : MainInv main s)
    (hs : (mainMachine cfg main).step s l = some s') (ho : OneSlot cfg main s') :
    NotMainAgain main s l := by
  rintro rfl scope hp
  obtain ⟨p, hpr, rfl⟩ := startup_parked h.free hp hs
  have hend : (s.threads main).pc ≠ .terminated := by
    intro he
    have hl := (h.live main).ending (by rw [hp]; exact nofun)
    rw [he] at hl
    cases hl
  have hlt := (List.getElem?_eq_some_iff.mp h.first).1
  have hzero := (ho.slot main hm (.inl rfl) hend 0).mp (by
    rw [State.appended_slots, List.getElem?_append_left hlt]
    exact h.first)
  simp only [State.appended, State.setPhase_indexInManager, Function.update_self] at hzero
  omega

/--
In a run that starts with `Thread::main` every mutator is in one slot, and listed once, as long
as the main thread does not call `add_thread`, and no longer.
-/
theorem one_slot_iff (cfg : Config τ ι) (main : τ) (s : State τ ι)
    (h : (mainMachine cfg main).init s) (ls : List (VmLabel τ ι)) :
    (mainMachine cfg main).Always (OneSlot cfg main) s ls ↔
      (mainMachine cfg main).Meets (NotMainAgain main) s ls := by
  obtain ⟨hi, hsingle⟩ := mainInv_of_init h
  exact Machine.always_iff_meets_of_invariant (J := MainInv main) (I := Single main)
    (fun s l s' hi hs => hi.step hs) (fun s l s' hi hn hc hs => hn.step hi hc hs)
    (fun s hn => hn.oneSlot) (fun s l s' hi hs ho => notMainAgain_of_oneSlot h.1 hi hs ho)
    hi hsingle

end Runs

/-- Another thread registers itself by hand, before the main thread goes on. -/
def manualRun : List (VmLabel Bool Unit) :=
  .registerMutatorManual true :: List.replicate 5 (.manager (.startup true))

theorem one_slot_manual : ∃ s, (mainMachine .mutators false).init s ∧
    (mainMachine .mutators false).Always (OneSlot .mutators false) s manualRun ∧
    ((mainMachine .mutators false).exec s manualRun).map State.mutators =
      some [false, true] := by
  refine ⟨_, ⟨rfl, rfl⟩, (one_slot_iff _ _ _ ⟨rfl, rfl⟩ _).mpr ?_, by decide⟩
  exact Machine.meets_of_mem fun l hl s => by
    rintro rfl
    exact absurd hl (by decide)

/-- The main thread goes through `startoff`, and then the collector stops all mutators. -/
def mainRun : List (VmLabel Bool Unit) :=
  List.replicate 9 (.manager (.startup false)) ++ List.replicate 53 (.manager .collector)

theorem main_listed_twice : ∃ s s', (mainMachine .mutators false).init s ∧
    (mainMachine .mutators false).exec s mainRun = some s' ∧
    s'.mutators = [false, false] ∧ s'.numberOfMutators = 2 ∧
    s'.collector = .returned [false, false] ∧ ¬ OneSlot .mutators false s' := by
  refine ⟨_, _, ⟨rfl, rfl⟩, rfl, rfl, rfl, rfl, fun h => ?_⟩
  exact absurd (h.returned _ rfl) (by decide)

end VmkitCore.ThreadManager
