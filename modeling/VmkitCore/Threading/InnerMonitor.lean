import Mathlib.Data.Fintype.Basic
import VmkitCore.Threading.StopTheWorld

/-! # Waiting for the manager's monitor

Running mutators may call `threads` and `soft_handshake`, which lock the monitor of
the manager without a handshake. The collector keeps it locked for a whole round of
`block_all_mutators_for_gc`, the synchronous requests included.
-/

namespace VmkitCore.InnerMonitor

open ThreadManager

/-- What managed code does with the monitor of the manager. -/
inductive Pc
  | outside
  -- `threads`
  | threadsLock | threadsUnlock
  -- `snapshot_handshake_threads`
  | snapshotLock | handshakeLock | snapshotUnlock
  -- the rest of `soft_handshake`, with its calls of `process_about_to_terminate`
  | drainLock | drain | processLock | processUnlock
  deriving DecidableEq, Repr

structure State (τ ι : Type*) where
  manager : ThreadManager.State τ ι
  pc : τ → Pc
  handshakeLock : Option τ

inductive Label (τ ι : Type*)
  | manager (l : ThreadManager.Label τ ι)
  | threads (t : τ)
  | softHandshake (t : τ)
  | step (t : τ)
  /-- The drain of a soft handshake goes on with `process_about_to_terminate`, or is over. -/
  | process (t : τ)
  | drained (t : τ)
  deriving DecidableEq, Repr

/-- The thread waits for the monitor of the manager. -/
def Pc.waits : Pc → Bool
  | .threadsLock | .snapshotLock | .processLock => true
  | _ => false

/-- The thread does nothing else meanwhile; the drain itself may enter native code and wait. -/
def Pc.busy : Pc → Bool
  | .outside | .drain => false
  | _ => true

variable {τ ι : Type*} [DecidableEq τ]

namespace State

def goto (s : State τ ι) (t : τ) (pc : Pc) : State τ ι :=
  { s with pc := Function.update s.pc t pc }

/-- `inner.lock_no_handshake()` -/
def lockInner (s : State τ ι) (t : τ) (pc : Pc) : Option (State τ ι) :=
  if s.manager.innerLocked then none
  else some ({ s with manager := { s.manager with innerLocked := true } }.goto t pc)

def unlockInner (s : State τ ι) (t : τ) (pc : Pc) : State τ ι :=
  { s with manager := { s.manager with innerLocked := false } }.goto t pc

/-- The thread runs managed code of its own. -/
def RunsManaged (s : State τ ι) (t : τ) : Prop :=
  s.manager.phase t = .running ∧ (s.manager.threads t).pc = .managed

instance [DecidableEq ι] (s : State τ ι) (t : τ) : Decidable (s.RunsManaged t) :=
  inferInstanceAs (Decidable (_ ∧ _))

end State

/-- The thread that takes a step of the manager's machine. -/
def actor : ThreadManager.Label τ ι → Option τ
  | .startup t | .call t _ | .step t => some t
  | .collector => none

def threadStep (s : State τ ι) (t : τ) : Option (State τ ι) :=
  match s.pc t with
  | .outside | .drain => none
  | .threadsLock => s.lockInner t .threadsUnlock
  | .threadsUnlock => some (s.unlockInner t .outside)
  | .snapshotLock => s.lockInner t .handshakeLock
  -- the monitor stays locked while the thread waits for the other lock
  | .handshakeLock => if s.handshakeLock = none then some (s.goto t .snapshotUnlock) else none
  | .snapshotUnlock => some (s.unlockInner t .drainLock)
  | .drainLock =>
    if s.handshakeLock = none then some ({ s with handshakeLock := some t }.goto t .drain)
    else none
  | .processLock => s.lockInner t .processUnlock
  | .processUnlock => some (s.unlockInner t .drain)

variable [DecidableEq ι]

def step (cfg : Config τ ι) (s : State τ ι) : Label τ ι → Option (State τ ι)
  | .manager l =>
    if ∀ t ∈ actor l, (s.pc t).busy = false then
      (ThreadManager.step cfg s.manager l).map fun manager => { s with manager }
    else none
  | .threads t =>
    if s.RunsManaged t ∧ s.pc t = .outside then some (s.goto t .threadsLock) else none
  | .softHandshake t =>
    if s.RunsManaged t ∧ s.pc t = .outside then some (s.goto t .snapshotLock) else none
  | .step t => threadStep s t
  | .process t =>
    if s.RunsManaged t ∧ s.pc t = .drain then some (s.goto t .processLock) else none
  | .drained t =>
    if s.RunsManaged t ∧ s.pc t = .drain then
      some ({ s with handshakeLock := none }.goto t .outside)
    else none

def machine (cfg : Config τ ι) : Machine (State τ ι) (Label τ ι) where
  init s := s = ⟨.new, fun _ => .outside, none⟩
  step := step cfg

/-- The collector is in a round of `block_all_mutators_for_gc`, and has the monitor. -/
def inRound : CollectorPc τ → Bool
  | .retain .. | .retainLock .. | .retainTest .. | .retainBlock .. | .retainUnlock ..
  | .sync _ | .syncLock .. | .syncCall .. | .syncBlock .. | .syncUnlock .. => true
  | _ => false

/--
The collector waits in a synchronous `block_unchecked` for a thread that has not acknowledged,
and that waits for the monitor of the manager, which the collector has.
-/
def Deadlocked (cfg : Config τ ι) (s : State τ ι) : Prop :=
  ∃ t todo, s.manager.collector = .syncBlock t todo ∧
    ((s.manager.threads t).requesters ()).pc = .asleep (.flags cfg.gc) ∧
    (s.manager.threads t).thread.isBlockedFor cfg.gc = false ∧
    (s.pc t).waits = true ∧ s.manager.innerLocked = true

/--
No mutator is waiting for the monitor when the collector takes it for a round, and none begins
to wait during the round.
-/
def NoWaiter (cfg : Config τ ι) (s : State τ ι) : Label τ ι → Prop
  | .manager .collector => s.manager.collector = .scan →
    ∀ t, cfg.isMutator t = true → (s.pc t).waits = false
  | .threads t | .softHandshake t | .process t =>
    cfg.isMutator t = true → inRound s.manager.collector = false
  | _ => True

instance (cfg : Config Bool ι) : ∀ (s : State Bool ι) (a : Label Bool ι),
    Decidable (NoWaiter cfg s a)
  | s, .manager .collector => inferInstanceAs (Decidable (s.manager.collector = .scan →
    ∀ t, cfg.isMutator t = true → (s.pc t).waits = false))
  | _, .threads _ | _, .softHandshake _ | _, .process _ => inferInstanceAs (Decidable (_ → _))
  | _, .manager (.startup _) | _, .manager (.call ..) | _, .manager (.step _) | _, .step _
  | _, .drained _ => inferInstanceAs (Decidable True)

/-- During a round, only mutators are listed, and none of them waits. -/
structure Inv (cfg : Config τ ι) (s : State τ ι) : Prop where
  listed : inRound s.manager.collector = true →
    ∀ t ∈ s.manager.collector.listed, cfg.isMutator t = true
  outside : inRound s.manager.collector = true →
    ∀ t, cfg.isMutator t = true → (s.pc t).waits = false

section Round

variable {cfg : Config τ ι} {m m' : ThreadManager.State τ ι}

/-- A round begins with a scan, which lists mutators only; no other step adds to its list. -/
theorem collectorStep_round (hs : collectorStep cfg m = some m')
    (hround : inRound m'.collector = true) :
    (m.collector = .scan ∧ ∀ t ∈ m'.collector.listed, cfg.isMutator t = true) ∨
      (inRound m.collector = true ∧ m'.collector.listed ⊆ m.collector.listed) := by
  unfold collectorStep at hs
  cases hpc : m.collector
  all_goals simp only [hpc] at hs
  case scan =>
    split at hs <;> cases hs
    refine .inl ⟨rfl, fun t ht => ?_⟩
    simp only [CollectorPc.listed, List.append_nil] at ht
    exact (List.mem_filter.mp ht).2
  case retain todo kept =>
    rcases todo with _ | ⟨t, todo⟩
    · cases kept <;> cases hs
      · cases hround
      · exact .inr ⟨rfl, fun _ => id⟩
    · rw [ThreadManager.State.onThread_collector hs]
      exact .inr ⟨rfl, fun _ => id⟩
  case retainTest t todo kept =>
    split at hs
    · cases hs; exact .inr ⟨rfl, fun _ => id⟩
    · rw [ThreadManager.State.onThread_collector hs]; exact .inr ⟨rfl, fun _ => id⟩
  case retainBlock t todo kept =>
    refine .inr ⟨rfl, ?_⟩
    rcases ThreadManager.State.runMethod_collector hs with h | h <;> rw [h]
    · intro u hu
      simp only [CollectorPc.listed, List.mem_cons, List.mem_append] at hu ⊢
      split at hu
      · exact hu
      · rw [List.mem_cons] at hu
        tauto
    · rw [hpc]; exact fun _ => id
  case retainUnlock t todo kept =>
    rw [ThreadManager.State.onThread_collector hs]
    exact .inr ⟨rfl, fun _ => List.mem_cons_of_mem _⟩
  case sync todo =>
    rcases todo with _ | ⟨t, todo⟩
    · cases hs; cases hround
    · rw [ThreadManager.State.onThread_collector hs]; exact .inr ⟨rfl, fun _ => id⟩
  case syncBlock t todo =>
    refine .inr ⟨rfl, ?_⟩
    rcases ThreadManager.State.runMethod_collector hs with h | h <;> rw [h]
    · exact fun _ => id
    · rw [hpc]; exact fun _ => id
  case syncUnlock t todo =>
    rw [ThreadManager.State.onThread_collector hs]
    exact .inr ⟨rfl, fun _ => List.mem_cons_of_mem _⟩
  case retainLock | syncLock | syncCall =>
    rw [ThreadManager.State.onThread_collector hs]
    exact .inr ⟨rfl, fun _ => id⟩
  -- the rest is outside of rounds
  case idle | returned => cases hs; cases hround
  case process =>
    split at hs
    · cases hs
    obtain ⟨⟨m, again⟩, -, rfl⟩ := Option.map_eq_some_iff.mp hs
    cases again <;> cases hround
  case collectLock | unblockScan => split at hs <;> cases hs; cases hround
  case collect rest acc => rcases rest with _ | ⟨_ | t, rest⟩ <;> cases hs <;> cases hround
  case unblock todo =>
    rcases todo with _ | ⟨t, todo⟩
    · cases hs; cases hround
    · rw [ThreadManager.State.onThread_collector hs] at hround; cases hround
  case unblockRun t todo =>
    rcases ThreadManager.State.runMethod_collector hs with h | h <;> rw [h] at hround
    · cases hround
    · rw [hpc] at hround; cases hround
  all_goals rw [ThreadManager.State.onThread_collector hs] at hround; cases hround

end Round

variable {cfg : Config τ ι} {s s' : State τ ι} {t : τ} {a : Label τ ι}

namespace Inv

omit [DecidableEq ι] in
/-- A thread goes on to where it waits only outside of rounds, or is no mutator. -/
theorem goto (h : Inv cfg s) {pc : Pc} (hpc : pc.waits = true → cfg.isMutator t = true →
    inRound s.manager.collector = false) : Inv cfg (s.goto t pc) := by
  refine ⟨h.listed, fun hround u hu => ?_⟩
  simp only [State.goto]
  rcases eq_or_ne u t with rfl | hne
  · rw [Function.update_self, Bool.eq_false_iff]
    exact fun hw => Bool.false_ne_true ((hpc hw hu).symm.trans hround)
  · rw [Function.update_of_ne hne]
    exact h.outside hround u hu

omit [DecidableEq τ] [DecidableEq ι] in
theorem of_same (h : Inv cfg s) (hcol : s'.manager.collector = s.manager.collector)
    (hpc : s'.pc = s.pc) : Inv cfg s' :=
  ⟨by rw [hcol]; exact h.listed, by rw [hcol, hpc]; exact h.outside⟩

omit [DecidableEq ι] in
theorem unlockInner (h : Inv cfg s) {pc : Pc} (hpc : pc.waits = false) :
    Inv cfg (s.unlockInner t pc) :=
  have hsame : Inv cfg { s with manager := { s.manager with innerLocked := false } } :=
    h.of_same rfl rfl
  hsame.goto fun hw => absurd (hpc.symm.trans hw) Bool.false_ne_true

omit [DecidableEq ι] in
theorem lockInner (h : Inv cfg s) {pc : Pc} (hpc : pc.waits = false)
    (hs : s.lockInner t pc = some s') : Inv cfg s' := by
  have hsame : Inv cfg { s with manager := { s.manager with innerLocked := true } } :=
    h.of_same rfl rfl
  unfold State.lockInner at hs
  split at hs <;> cases hs
  exact hsame.goto fun hw => absurd (hpc.symm.trans hw) Bool.false_ne_true

omit [DecidableEq ι] in
theorem threadStep (h : Inv cfg s) (hs : InnerMonitor.threadStep s t = some s') : Inv cfg s' := by
  unfold InnerMonitor.threadStep at hs
  cases hpc : s.pc t
  all_goals simp only [hpc, reduceCtorEq] at hs
  case threadsLock | snapshotLock | processLock => exact h.lockInner rfl hs
  case threadsUnlock | snapshotUnlock | processUnlock => cases hs; exact h.unlockInner rfl
  case handshakeLock =>
    split at hs <;> cases hs
    exact h.goto nofun
  case drainLock =>
    have hsame : Inv cfg { s with handshakeLock := some t } := h.of_same rfl rfl
    split at hs <;> cases hs
    exact hsame.goto nofun

theorem manager (h : Inv cfg s) {l : ThreadManager.Label τ ι} (ha : NoWaiter cfg s (.manager l))
    {m : ThreadManager.State τ ι} (hs : ThreadManager.step cfg s.manager l = some m) :
    Inv cfg { s with manager := m } := by
  cases l with
  | startup t => exact h.of_same (FromThread.startup hs).collector rfl
  | call t op => exact h.of_same (FromThread.call hs).collector rfl
  | step t => exact h.of_same (FromThread.threadStep hs).collector rfl
  | collector =>
    constructor
    · intro hround t ht
      rcases collectorStep_round hs hround with ⟨-, hmut⟩ | ⟨hbefore, hsub⟩
      · exact hmut t ht
      · exact h.listed hbefore t (hsub ht)
    · intro hround t ht
      rcases collectorStep_round hs hround with ⟨hscan, -⟩ | ⟨hbefore, -⟩
      · exact ha hscan t ht
      · exact h.outside hbefore t ht

theorem step (h : Inv cfg s) (ha : NoWaiter cfg s a)
    (hs : InnerMonitor.step cfg s a = some s') : Inv cfg s' := by
  cases a with
  | manager l =>
    rw [InnerMonitor.step, Option.ite_none_right_eq_some] at hs
    obtain ⟨m, hm, rfl⟩ := Option.map_eq_some_iff.mp hs.2
    exact h.manager ha hm
  | threads t | softHandshake t | process t =>
    rw [InnerMonitor.step, Option.ite_none_right_eq_some] at hs
    cases hs.2
    exact h.goto fun _ => ha
  | step t => exact h.threadStep hs
  | drained t =>
    have hsame : Inv cfg { s with handshakeLock := none } := h.of_same rfl rfl
    rw [InnerMonitor.step, Option.ite_none_right_eq_some] at hs
    cases hs.2
    exact hsame.goto nofun

end Inv

theorem inv_of_reachable (h : (machine cfg).ReachableUnder (NoWaiter cfg) s) : Inv cfg s := by
  refine h.invariant (fun s hs => ?_) fun _ _ _ hi ha hs => hi.step ha hs
  rw [show s = _ from hs]
  exact ⟨nofun, nofun⟩

/--
In every run in which no mutator waits for the manager's monitor when the collector takes it for
a round, or begins to wait during a round, the collector never waits for a mutator that waits
for the monitor.
-/
theorem round_not_deadlocked (h : (machine cfg).ReachableUnder (NoWaiter cfg) s) :
    ¬ Deadlocked cfg s := by
  rintro ⟨t, todo, hpc, -, -, hwaits, -⟩
  have hi := inv_of_reachable h
  have hround : inRound s.manager.collector = true := by rw [hpc]; rfl
  have hmut := hi.listed hround t (by rw [hpc]; exact List.mem_cons_self)
  exact Bool.false_ne_true ((hi.outside hround t hmut).symm.trans hwaits)

/-- A mutator calls `threads` before the round, and runs on when the collector waits for it. -/
def readerRun : List (Label Bool Unit) :=
  List.replicate 13 (.manager (.startup true)) ++ [.threads true, .step true, .step true] ++
    List.replicate 27 (.manager .collector)

theorem round_not_deadlocked_reader : ∃ s, (machine .mutators).checkedExec (NoWaiter .mutators)
      ⟨.new, fun _ => .outside, none⟩ readerRun = some s ∧
    s.manager.collector = .syncBlock true [] ∧
    ((s.manager.threads true).requesters ()).pc = .asleep (.flags ()) ∧
    ¬ Deadlocked .mutators s := by
  obtain ⟨s, hs, hpc, hasleep⟩ : ∃ s,
      (machine .mutators).checkedExec (NoWaiter .mutators) ⟨.new, fun _ => .outside, none⟩
        readerRun = some s ∧ s.manager.collector = .syncBlock true [] ∧
      ((s.manager.threads true).requesters ()).pc = .asleep (.flags ()) := ⟨_, rfl, rfl, rfl⟩
  exact ⟨s, hs, hpc, hasleep, round_not_deadlocked (.checkedExec (.init rfl) hs)⟩

/-- The mutator calls `threads` when the collector has scanned the table. -/
def lateReaderRun : List (Label Bool Unit) :=
  List.replicate 13 (.manager (.startup true)) ++ List.replicate 2 (.manager .collector) ++
    [.threads true] ++ List.replicate 25 (.manager .collector)

theorem reader_deadlocked : ∃ s, (machine .mutators).exec ⟨.new, fun _ => .outside, none⟩
      lateReaderRun = some s ∧ Deadlocked .mutators s := by
  exact ⟨_, rfl, true, [], rfl, rfl, rfl, rfl, rfl⟩

end VmkitCore.InnerMonitor
