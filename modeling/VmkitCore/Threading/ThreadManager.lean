import VmkitCore.Threading.Blocking

/-! # The thread manager

Threads start, register themselves in the thread table, run and end, while one
collector blocks and unblocks all mutators. Every thread is a target of its own,
with the collector as its only requester. What the manager's own monitor protects
is read and written in one step, and only the collector keeps it locked longer.
-/

namespace VmkitCore.ThreadManager

/-- The fixed attributes of the threads, and the adapters of the virtual machine. -/
structure Config (τ ι : Type*) where
  adapters : List (BlockAdapter ι)
  /-- The index of `GCBlockAdapter`. -/
  gc : ι
  gc_mem : .flags gc ∈ adapters
  isCollectorThread : τ → Bool
  ignoreHandshakesAndGc : τ → Bool

def Config.isMutator {τ ι : Type*} (cfg : Config τ ι) (t : τ) : Bool :=
  !cfg.isCollectorThread t && !cfg.ignoreHandshakesAndGc t

/-- `ThreadManagerInner` -/
structure Inner (τ : Type*) where
  threads : List (Option τ)
  freeThreadIndices : List ℕ
  aboutToTerminate : List τ
  deriving DecidableEq, Repr

namespace Inner

variable {τ : Type*}

def new : Inner τ := ⟨[], [], []⟩

/-- `Vec::swap_remove` -/
def swapRemove (l : List τ) (i : ℕ) : List τ :=
  match l.getLast? with
  | none => l
  | some x => (l.set i x).dropLast

/-- Look for a dead thread in the first slots of the table; an empty slot there is a panic. -/
def findTerminated (status : τ → ThreadState) (threads : List (Option τ)) :
    ℕ → ℕ → Option (Option (ℕ × τ))
  | _, 0 => some none
  | i, n + 1 =>
    -- the source indexes the table, not the list of ending threads
    match threads[i]? with
    | some (some t) =>
      if status t = .terminated then some (some (i, t))
      else findTerminated status threads (i + 1) n
    | _ => none

/-- One round of `process_about_to_terminate`, and whether it starts over. -/
def processAboutToTerminate (m : Inner τ) (status : τ → ThreadState) (index : τ → ℕ) :
    Option (Inner τ × Bool) :=
  (findTerminated status m.threads 0 m.aboutToTerminate.length).bind fun
    | none => some (m, false)
    | some (i, t) =>
      -- an index that is not one of the table is a panic as well
      if index t < m.threads.length then
        some ({
          threads := m.threads.set (index t) none
          freeThreadIndices := m.freeThreadIndices ++ [index t]
          aboutToTerminate := swapRemove m.aboutToTerminate i }, true)
      else none

/-- The body of `add_thread`, with the index it stores. -/
def addThread (m : Inner τ) (t : τ) : Inner τ × ℕ :=
  let idx := m.freeThreadIndices.getLast?.getD m.threads.length
  ({ m with
      freeThreadIndices := m.freeThreadIndices.dropLast
      threads := if m.threads.length ≤ idx then m.threads ++ [some t]
        else m.threads.set idx (some t) }, idx)

def addAboutToTerminateCurrent (m : Inner τ) (index : ℕ) : Option (Inner τ) :=
  match m.threads[index]? with
  | some (some t) => some { m with aboutToTerminate := m.aboutToTerminate ++ [t] }
  | _ => none

end Inner

/-- How far `Thread::start` and `startoff` got; `running` is the code the thread is for. -/
inductive Phase
  | unstarted | spawned | enabling
  -- `add_thread`; the scope is whether `parked_scope` entered native code itself
  | processing | parking | parked (scope : Bool) | leaving
  | running
  deriving DecidableEq, Repr

/-- The next step of the collector; lists that the source pops from are kept backwards. -/
inductive CollectorPc (τ : Type*)
  | idle
  -- `block_all_mutators_for_gc`
  | scan
  | retain (todo kept : List τ) | retainLock (t : τ) (todo kept : List τ)
  | retainTest (t : τ) (todo kept : List τ) | retainBlock (t : τ) (todo kept : List τ)
  | retainUnlock (t : τ) (todo kept : List τ)
  | sync (todo : List τ) | syncLock (t : τ) (todo : List τ) | syncCall (t : τ) (todo : List τ)
  | syncBlock (t : τ) (todo : List τ) | syncUnlock (t : τ) (todo : List τ)
  | process | collectLock | collect (rest : List (Option τ)) (acc : List τ)
  | returned (acc : List τ)
  -- `unblock_all_mutators_for_gc`
  | unblockScan | unblock (todo : List τ) | unblockLock (t : τ) (todo : List τ)
  | unblockCall (t : τ) (todo : List τ) | unblockRun (t : τ) (todo : List τ)
  | unblockUnlock (t : τ) (todo : List τ)
  deriving DecidableEq, Repr

structure State (τ ι : Type*) where
  threads : τ → Blocking.State ι Unit
  phase : τ → Phase
  indexInManager : τ → ℕ
  inner : Inner τ
  innerLocked : Bool
  collector : CollectorPc τ

inductive Label (τ ι : Type*)
  | startup (t : τ)
  | call (t : τ) (op : Blocking.Op ι)
  | step (t : τ)
  | collector
  deriving DecidableEq, Repr

variable {τ ι : Type*} [DecidableEq τ] [DecidableEq ι]

namespace State

def setThread (s : State τ ι) (t : τ) (c : Blocking.State ι Unit) : State τ ι :=
  { s with threads := Function.update s.threads t c }

def setPhase (s : State τ ι) (t : τ) (p : Phase) : State τ ι :=
  { s with phase := Function.update s.phase t p }

section Update

variable (s : State τ ι) (t u : τ) (c : Blocking.State ι Unit) (p : Phase)

omit [DecidableEq ι]

@[simp] theorem setThread_self : (s.setThread t c).threads t = c := Function.update_self ..

@[simp] theorem setThread_of_ne {t u : τ} (h : u ≠ t) :
    (s.setThread t c).threads u = s.threads u := Function.update_of_ne h ..

@[simp] theorem setThread_phase : (s.setThread t c).phase = s.phase := rfl

@[simp] theorem setThread_inner : (s.setThread t c).inner = s.inner := rfl

@[simp] theorem setThread_collector : (s.setThread t c).collector = s.collector := rfl

@[simp] theorem setThread_innerLocked : (s.setThread t c).innerLocked = s.innerLocked := rfl

@[simp] theorem setPhase_self : (s.setPhase t p).phase t = p := Function.update_self ..

@[simp] theorem setPhase_of_ne {t u : τ} (h : u ≠ t) :
    (s.setPhase t p).phase u = s.phase u := Function.update_of_ne h ..

@[simp] theorem setPhase_threads : (s.setPhase t p).threads = s.threads := rfl

@[simp] theorem setPhase_inner : (s.setPhase t p).inner = s.inner := rfl

@[simp] theorem setPhase_indexInManager :
    (s.setPhase t p).indexInManager = s.indexInManager := rfl

@[simp] theorem setPhase_collector : (s.setPhase t p).collector = s.collector := rfl

@[simp] theorem setPhase_innerLocked : (s.setPhase t p).innerLocked = s.innerLocked := rfl

end Update

omit [DecidableEq τ] [DecidableEq ι] in
def status (s : State τ ι) (t : τ) : ThreadState := (s.threads t).thread.execStatus

/-- The collector takes a step on a thread. -/
def onThread (s : State τ ι) (t : τ) (c : Option (Blocking.State ι Unit)) (pc : CollectorPc τ) :
    Option (State τ ι) :=
  c.map fun c => { s.setThread t c with collector := pc }

/-- The collector runs a method of a thread up to its end. -/
def runMethod (s : State τ ι) (t : τ) (pc : CollectorPc τ) : Option (State τ ι) :=
  if ((s.threads t).requesters ()).pc = .idle then some { s with collector := pc }
  else s.onThread t (Blocking.requesterStep (s.threads t) ()) s.collector

omit [DecidableEq ι] in
theorem onThread_collector {s s' : State τ ι} {t : τ} {c : Option (Blocking.State ι Unit)}
    {pc : CollectorPc τ} (hs : s.onThread t c pc = some s') : s'.collector = pc := by
  obtain ⟨c, -, rfl⟩ := Option.map_eq_some_iff.mp hs
  rfl

theorem runMethod_eq_some {s s' : State τ ι} {t : τ} {pc : CollectorPc τ} :
    s.runMethod t pc = some s' ↔
      ((s.threads t).requesters ()).pc = .idle ∧ s' = { s with collector := pc } ∨
      ((s.threads t).requesters ()).pc ≠ .idle ∧
        s.onThread t (Blocking.requesterStep (s.threads t) ()) s.collector = some s' := by
  by_cases hidle : ((s.threads t).requesters ()).pc = .idle
  · simp [runMethod, hidle, eq_comm]
  · simp [runMethod, hidle]

theorem runMethod_collector {s s' : State τ ι} {t : τ} {pc : CollectorPc τ}
    (hs : s.runMethod t pc = some s') : s'.collector = pc ∨ s'.collector = s.collector := by
  rcases runMethod_eq_some.mp hs with ⟨-, rfl⟩ | ⟨-, hs⟩
  · exact .inl rfl
  · exact .inr (onThread_collector hs)

end State

/-- The next step of a thread from `Thread::start` to the end of `add_thread`. -/
def startup (cfg : Config τ ι) (s : State τ ι) (t : τ) : Option (State τ ι) :=
  let c := s.threads t
  match s.phase t with
  | .unstarted =>
    some ((s.setThread t { c with thread := { c.thread with execStatus := .inManaged } }).setPhase t
      .spawned)
  | .spawned =>
    if cfg.isMutator t then
      (Blocking.call c .enableYieldpoints).map fun c' => (s.setThread t c').setPhase t .enabling
    else some (s.setPhase t .processing)
  | .enabling =>
    if c.pc = .managed then some (s.setPhase t .processing)
    else (Blocking.targetStep cfg.adapters c).map (s.setThread t)
  | .processing =>
    if s.innerLocked then none else
    (s.inner.processAboutToTerminate s.status s.indexInManager).bind fun (m, again) =>
      if again then some { s with inner := m }
      else if c.thread.execStatus = .inNative ∨ c.thread.execStatus = .new then
        some ({ s with inner := m }.setPhase t (.parked false))
      else (Blocking.call c .enterNative).map fun c' =>
        ({ s with inner := m }.setThread t c').setPhase t .parking
  | .parking =>
    if c.pc = .native then some (s.setPhase t (.parked true))
    else (Blocking.targetStep cfg.adapters c).map (s.setThread t)
  | .parked scope =>
    if s.innerLocked then none else
    let (m, idx) := s.inner.addThread t
    some ({ s with
      inner := m
      indexInManager := Function.update s.indexInManager t idx }.setPhase t
        (if scope then .leaving else .running))
  | .leaving =>
    if c.pc = .managed then some (s.setPhase t .running)
    else if c.pc = .native then (Blocking.call c .leaveNative).map (s.setThread t)
    else (Blocking.targetStep cfg.adapters c).map (s.setThread t)
  | .running => none

/-- A running thread starts an operation. -/
def call (s : State τ ι) (t : τ) (op : Blocking.Op ι) : Option (State τ ι) :=
  if s.phase t = .running then (Blocking.call (s.threads t) op).map (s.setThread t) else none

/-- The next step of a running thread inside an operation. -/
def threadStep (cfg : Config τ ι) (s : State τ ι) (t : τ) : Option (State τ ι) :=
  if s.phase t ≠ .running then none
  else if (s.threads t).pc = .terminateManager then
    if s.innerLocked then none else
    (s.inner.addAboutToTerminateCurrent (s.indexInManager t)).bind fun m =>
      (Blocking.targetStep cfg.adapters (s.threads t)).map fun c =>
        { s.setThread t c with inner := m }
  else (Blocking.targetStep cfg.adapters (s.threads t)).map (s.setThread t)

section Running

variable {cfg : Config τ ι} {s s' : State τ ι} {t : τ}

omit [DecidableEq ι] in
theorem call_eq_some {op : Blocking.Op ι} : call s t op = some s' ↔
    s.phase t = .running ∧ ∃ c, Blocking.call (s.threads t) op = some c ∧ s' = s.setThread t c := by
  simp only [call, Option.ite_none_right_eq_some, Option.map_eq_some_iff, eq_comm (a := s')]

/-- At the end of its life a thread counts itself under the monitor of the manager. -/
theorem threadStep_cases (hs : threadStep cfg s t = some s') :
    s.phase t = .running ∧ ∃ c, Blocking.targetStep cfg.adapters (s.threads t) = some c ∧
      ((s.threads t).pc ≠ .terminateManager ∧ s' = s.setThread t c ∨
        (s.threads t).pc = .terminateManager ∧ s.innerLocked = false ∧
          ∃ m, s.inner.addAboutToTerminateCurrent (s.indexInManager t) = some m ∧
            s' = { s.setThread t c with inner := m }) := by
  unfold threadStep at hs
  split at hs
  · cases hs
  next hp =>
  refine ⟨not_not.mp hp, ?_⟩
  split at hs
  · next hpc =>
    split at hs
    · cases hs
    next hlock =>
    obtain ⟨m, hm, hs⟩ := Option.bind_eq_some_iff.mp hs
    obtain ⟨c, hc, rfl⟩ := Option.map_eq_some_iff.mp hs
    exact ⟨c, hc, .inr ⟨hpc, by simpa using hlock, m, hm, rfl⟩⟩
  · next hpc =>
    obtain ⟨c, hc, rfl⟩ := Option.map_eq_some_iff.mp hs
    exact ⟨c, hc, .inl ⟨hpc, rfl⟩⟩

end Running

/-- `block_all_mutators_for_gc` and `unblock_all_mutators_for_gc`. -/
def collectorStep (cfg : Config τ ι) (s : State τ ι) : Option (State τ ι) :=
  let request := fun t op => Blocking.request (s.threads t) () op
  let step := fun t => Blocking.requesterStep (s.threads t) ()
  match s.collector with
  | .idle => some { s with collector := .scan }
  | .scan =>
    if s.innerLocked then none else
    -- the guard of the manager's monitor lives to the end of the round
    let todo := (s.inner.threads.filterMap id).filter fun t => cfg.isMutator t
    some { s with innerLocked := true, collector := .retain todo [] }
  | .retain [] [] => some { s with innerLocked := false, collector := .process }
  | .retain [] kept => some { s with collector := .sync kept }
  | .retain (t :: todo) kept => s.onThread t (request t .lock) (.retainLock t todo kept)
  | .retainLock t todo kept => s.onThread t (step t) (.retainTest t todo kept)
  | .retainTest t todo kept =>
    if (s.threads t).thread.isBlockedFor cfg.gc then
      some { s with collector := .retainUnlock t todo kept }
    else
      s.onThread t (request t (.blockUnchecked (.flags cfg.gc) true)) (.retainBlock t todo kept)
  | .retainBlock t todo kept =>
    s.runMethod t (.retainUnlock t todo
      (if ((s.threads t).requesters ()).result.notRunning then kept else t :: kept))
  | .retainUnlock t todo kept => s.onThread t (request t .unlock) (.retain todo kept)
  | .sync [] => some { s with innerLocked := false, collector := .scan }
  | .sync (t :: todo) => s.onThread t (request t .lock) (.syncLock t todo)
  | .syncLock t todo => s.onThread t (step t) (.syncCall t todo)
  | .syncCall t todo =>
    s.onThread t (request t (.blockUnchecked (.flags cfg.gc) false)) (.syncBlock t todo)
  | .syncBlock t todo => s.runMethod t (.syncUnlock t todo)
  | .syncUnlock t todo => s.onThread t (request t .unlock) (.sync todo)
  | .process =>
    if s.innerLocked then none else
    (s.inner.processAboutToTerminate s.status s.indexInManager).map fun (m, again) =>
      { s with inner := m, collector := if again then .process else .collectLock }
  | .collectLock =>
    if s.innerLocked then none
    else some { s with innerLocked := true, collector := .collect s.inner.threads [] }
  | .collect [] acc => some { s with innerLocked := false, collector := .returned acc }
  | .collect (none :: rest) acc => some { s with collector := .collect rest acc }
  | .collect (some t :: rest) acc =>
    let acc' := if (s.threads t).thread.isBlockedFor cfg.gc then acc ++ [t] else acc
    some { s with collector := .collect rest acc' }
  | .returned _ => some { s with collector := .unblockScan }
  | .unblockScan =>
    if s.innerLocked then none else
    let todo := ((s.inner.threads.filterMap id).filter fun t => !cfg.isCollectorThread t).reverse
    some { s with innerLocked := true, collector := .unblock todo }
  | .unblock [] => some { s with innerLocked := false, collector := .idle }
  | .unblock (t :: todo) => s.onThread t (request t .lock) (.unblockLock t todo)
  | .unblockLock t todo => s.onThread t (step t) (.unblockCall t todo)
  | .unblockCall t todo =>
    s.onThread t (request t (.unblock (.flags cfg.gc))) (.unblockRun t todo)
  | .unblockRun t todo => s.runMethod t (.unblockUnlock t todo)
  | .unblockUnlock t todo => s.onThread t (request t .unlock) (.unblock todo)

def step (cfg : Config τ ι) (s : State τ ι) : Label τ ι → Option (State τ ι)
  | .startup t => startup cfg s t
  | .call t op => call s t op
  | .step t => threadStep cfg s t
  | .collector => collectorStep cfg s

/-- No thread has been started. -/
def State.new : State τ ι where
  threads _ := { Blocking.State.started with thread := Thread.forMutator }
  phase _ := .unstarted
  indexInManager _ := 0
  inner := .new
  innerLocked := false
  collector := .idle

def machine (cfg : Config τ ι) : Machine (State τ ι) (Label τ ι) where
  init s := s = State.new
  step := step cfg

end VmkitCore.ThreadManager
