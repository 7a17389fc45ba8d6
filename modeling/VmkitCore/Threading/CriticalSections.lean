import Mathlib.Data.Int.Notation
import VmkitCore.Threading.BlockingSafety

/-! # Critical sections

A thread that disables its yieldpoints defers the ones it takes: the pending flag stands in
for the one that requests the next yieldpoint, until the yieldpoints are enabled again. The
count of nested critical sections is an `i8` that wraps around.
-/

namespace VmkitCore.CriticalSections

open Blocking

variable {ι ρ : Type*} {as : List (BlockAdapter ι)} {b b' : Blocking.State ι ρ}

/-- The target will take a yieldpoint, or remembers that it has deferred one. -/
def Signalled (t : Thread ι) : Prop := t.takeYieldpoint ≠ 0 ∨ t.yieldpointRequestPending = true

/-- A requester has made its request and not set the yieldpoint flag yet. -/
def signals : RequesterPc ι → Bool
  | .blockTerminate .. | .blockTake .. => true
  | _ => false

@[simp] theorem signals_wake {q : RequesterPc ι} : signals q.wake = signals q := by
  cases q <;> rfl

/-- A request will not be forgotten. -/
def Noticed (b : Blocking.State ι ρ) : Prop :=
  Signalled b.thread ∨ b.pc.willAcknowledge = true ∨ (∃ r, signals (b.requesters r).pc = true) ∨
    b.thread.isAboutToTerminate = true

/-- What deferring a yieldpoint keeps. -/
structure Kept (as : List (BlockAdapter ι)) (b : Blocking.State ι ρ) : Prop where
  noticed : ∀ i, .flags i ∈ as → b.thread.shouldBlockFor i = true → Noticed b
  reset : b.pc = .yieldpointReset → b.thread.yieldpointRequestPending = true
  clear : b.pc = .enableClear → b.thread.takeYieldpoint ≠ 0

/-- Where the target has seen its own flags set. -/
def readsFlags : Pc ι → Bool
  | .yieldpointReset | .enableClear => true
  | _ => false

theorem ne_of_readsFlags {pc : Pc ι} (h : readsFlags pc = false) :
    pc ≠ .yieldpointReset ∧ pc ≠ .enableClear := by
  constructor <;> rintro rfl <;> cases h

namespace Kept

theorem notifyAll (h : Kept as b) : Kept as b.notifyAll := by
  refine ⟨fun i hi hsi => ?_, fun hr => h.reset (Pc.eq_of_wake hr nofun),
    fun hc => h.clear (Pc.eq_of_wake hc nofun)⟩
  simpa [Noticed, State.notifyAll] using h.noticed i hi hsi

/-- A step of the target that leaves the requests and the dying alone. -/
theorem target (h : Kept as b) {t : Thread ι} {m : Option (Holder ρ)} {pc : Pc ι}
    (hs : t.shouldBlockFor = b.thread.shouldBlockFor)
    (hd : t.isAboutToTerminate = b.thread.isAboutToTerminate)
    (hn : Signalled b.thread → Signalled t ∨ pc.willAcknowledge = true)
    (hw : b.pc.willAcknowledge = true → pc.willAcknowledge = true)
    (hr : pc = .yieldpointReset → t.yieldpointRequestPending = true)
    (hc : pc = .enableClear → t.takeYieldpoint ≠ 0) : Kept as ⟨t, m, pc, b.requesters⟩ := by
  refine ⟨fun i hi hsi => ?_, hr, hc⟩
  rcases h.noticed i hi (hs ▸ hsi) with hsig | hack | hreq | hdy
  · exact (hn hsig).imp_right .inl
  · exact .inr (.inl (hw hack))
  · exact .inr (.inr (.inl hreq))
  · exact .inr (.inr (.inr (hd.trans hdy)))

/-- A step of the target that leaves its yieldpoint flags alone. -/
theorem move (h : Kept as b) {t : Thread ι} {m : Option (Holder ρ)} {pc : Pc ι}
    (hs : t.shouldBlockFor = b.thread.shouldBlockFor)
    (hd : t.isAboutToTerminate = b.thread.isAboutToTerminate)
    (ht : t.takeYieldpoint = b.thread.takeYieldpoint)
    (hp : t.yieldpointRequestPending = b.thread.yieldpointRequestPending)
    (hw : b.pc.willAcknowledge = true → pc.willAcknowledge = true)
    (hf : readsFlags pc = false) : Kept as ⟨t, m, pc, b.requesters⟩ :=
  h.target hs hd (fun hsig => .inl (by rwa [Signalled, ht, hp])) hw
    (absurd · (ne_of_readsFlags hf).1) (absurd · (ne_of_readsFlags hf).2)

/-- Such a step of a target that was not about to acknowledge. -/
theorem quiet (h : Kept as b) {t : Thread ι} {m : Option (Holder ρ)} {pc : Pc ι}
    (hs : t.shouldBlockFor = b.thread.shouldBlockFor)
    (hd : t.isAboutToTerminate = b.thread.isAboutToTerminate)
    (ht : t.takeYieldpoint = b.thread.takeYieldpoint)
    (hp : t.yieldpointRequestPending = b.thread.yieldpointRequestPending)
    (hw : b.pc.willAcknowledge = false) (hf : readsFlags pc = false) :
    Kept as ⟨t, m, pc, b.requesters⟩ :=
  h.move hs hd ht hp (fun hack => absurd (hw.symm.trans hack) Bool.false_ne_true) hf

theorem acquire (h : Kept as b) {pc : Pc ι} (hs : b.acquire pc = some b')
    (hw : b.pc.willAcknowledge = true → pc.willAcknowledge = true)
    (hf : readsFlags pc = false) : Kept as b' := by
  obtain ⟨-, rfl⟩ := State.acquire_eq_some.mp hs
  exact h.move rfl rfl rfl rfl hw hf

variable [DecidableEq ι]

theorem acknowledge {pc : Pc ι} (hf : readsFlags pc = false) :
    Kept as (b.setThread (b.thread.acknowledgeBlockRequests as).1 pc) := by
  refine ⟨fun i hi hsi => ?_, (absurd · (ne_of_readsFlags hf).1),
    (absurd · (ne_of_readsFlags hf).2)⟩
  simp [State.setThread, Thread.acknowledgeBlockRequests_fst, hi] at hsi

omit [DecidableEq ι] in
theorem call (h : Kept as b) {op : Op ι} (hs : Blocking.call b op = some b') : Kept as b' := by
  unfold Blocking.call at hs
  split at hs <;> cases hs
  all_goals
    next hpc => exact h.quiet rfl rfl rfl rfl (by rw [hpc]; rfl) rfl

theorem targetStep (h : Kept as b) (hs : Blocking.targetStep as b = some b') : Kept as b' := by
  have hquiet {pc : Pc ι} {p : Prop} (hpc : b.pc = pc) (hw : pc.willAcknowledge = false) :
      b.pc.willAcknowledge = true → p :=
    fun hack => absurd ((hpc ▸ hw).symm.trans hack) Bool.false_ne_true
  unfold Blocking.targetStep at hs
  cases hpc : b.pc
  all_goals
    simp only [hpc] at hs
    try cases hs
  case yieldpointDefer =>
    exact h.target rfl rfl (fun _ => .inl (.inr rfl)) (hquiet hpc rfl) (fun _ => rfl)
      (by rintro ⟨⟩)
  case yieldpointReset =>
    exact h.target rfl rfl (fun _ => .inl (.inr (h.reset hpc))) (hquiet hpc rfl)
      (by rintro ⟨⟩) (by rintro ⟨⟩)
  case yieldpointTake =>
    split
    · exact h.target rfl rfl (fun _ => .inr rfl) (fun _ => rfl) (by rintro ⟨⟩) (by rintro ⟨⟩)
    · exact h.quiet rfl rfl rfl rfl (by rw [hpc]; rfl) rfl
  case enableTake =>
    have hone : (1 : Int32) ≠ 0 := by decide
    exact h.target rfl rfl (fun _ => .inl (.inl hone)) (hquiet hpc rfl) (by rintro ⟨⟩)
      fun _ => hone
  case enableClear =>
    exact h.target rfl rfl (fun _ => .inl (.inl (h.clear hpc))) (hquiet hpc rfl)
      (by rintro ⟨⟩) (by rintro ⟨⟩)
  case enterBlockedAcknowledge | checkAcknowledge => exact acknowledge (by split <;> rfl)
  case yieldpointLock | enterBlockedLock | blockLock | terminateLock | woken =>
    exact h.acquire hs (hquiet hpc rfl) rfl
  case checkLock f =>
    cases f with
    | leaveNative => exact h.acquire hs (fun _ => rfl) rfl
    | yieldpoint | blockSelf => cases hs; exact h.move rfl rfl rfl rfl (fun _ => rfl) rfl
  case checkUnlock f =>
    cases f <;> cases hs <;> exact h.quiet rfl rfl rfl rfl (by rw [hpc]; rfl) rfl
  case blockRequest a =>
    exact ⟨fun _ _ _ => .inr (.inl rfl), by rintro ⟨⟩, by rintro ⟨⟩⟩
  case terminateNotify | terminateFlagNotify | enterBlockedNotify | checkNotify =>
    exact h.notifyAll.quiet rfl rfl rfl rfl (by rw [State.notifyAll, hpc]; rfl) rfl
  case terminateFlag =>
    exact ⟨fun _ _ _ => .inr (.inr (.inr rfl)), by rintro ⟨⟩, by rintro ⟨⟩⟩
  case yieldpointEnabled | enterLoad | enableTest =>
    exact h.quiet rfl rfl rfl rfl (by rw [hpc]; rfl) (by split <;> rfl)
  case leaveLoad block =>
    exact h.quiet rfl rfl rfl rfl (by rw [hpc]; rfl) (by split <;> (try split) <;> rfl)
  case enterCas | leaveCas | checkBlocked =>
    split <;> exact h.quiet rfl rfl rfl rfl (by rw [hpc]; rfl) rfl
  case checkBlocking => exact h.move rfl rfl rfl rfl (fun _ => rfl) rfl
  all_goals exact h.quiet rfl rfl rfl rfl (by rw [hpc]; rfl) rfl

variable [DecidableEq ρ]

omit [DecidableEq ι] in
/-- A step of a requester that makes no request, and sets the yieldpoint flag where it has to. -/
theorem requester (h : Kept as b) {t : Thread ι} {m : Option (Holder ρ)} {r : ρ} {q : Requester ι}
    (hs : ∀ i, t.shouldBlockFor i = true → b.thread.shouldBlockFor i = true)
    (hd : t.isAboutToTerminate = b.thread.isAboutToTerminate)
    (ht : b.thread.takeYieldpoint ≠ 0 → t.takeYieldpoint ≠ 0)
    (hp : t.yieldpointRequestPending = b.thread.yieldpointRequestPending)
    (hq : signals (b.requesters r).pc = true → signals q.pc = true ∨ t.takeYieldpoint ≠ 0 ∨
      t.isAboutToTerminate = true) :
    Kept as ⟨t, m, b.pc, Function.update b.requesters r q⟩ := by
  refine ⟨fun i hi hsi => ?_, fun hr => hp.trans (h.reset hr), fun hc => ht (h.clear hc)⟩
  rcases h.noticed i hi (hs i hsi) with hsig | hack | ⟨u, hu⟩ | hdy
  · exact .inl (hsig.imp ht fun hpend => hp.trans hpend)
  · exact .inr (.inl hack)
  · by_cases hur : u = r
    · subst hur
      rcases hq hu with hq | ht | hd
      · exact .inr (.inr (.inl ⟨u, by simpa using hq⟩))
      · exact .inl (.inl ht)
      · exact .inr (.inr (.inr hd))
    · exact .inr (.inr (.inl ⟨u, by simpa [hur] using hu⟩))
  · exact .inr (.inr (.inr (hd.trans hdy)))

omit [DecidableEq ι] in
/-- A step of a requester that leaves the target alone, or clears a request. -/
theorem goto (h : Kept as b) {t : Thread ι} {m : Option (Holder ρ)} {r : ρ} {q : Requester ι}
    (hs : ∀ i, t.shouldBlockFor i = true → b.thread.shouldBlockFor i = true)
    (hd : t.isAboutToTerminate = b.thread.isAboutToTerminate)
    (ht : t.takeYieldpoint = b.thread.takeYieldpoint)
    (hp : t.yieldpointRequestPending = b.thread.yieldpointRequestPending)
    (hq : signals (b.requesters r).pc = false) :
    Kept as ⟨t, m, b.pc, Function.update b.requesters r q⟩ :=
  h.requester hs hd (fun hne => ht ▸ hne) hp fun hsig => absurd (hq.symm.trans hsig) nofun

omit [DecidableEq ι] in
theorem acquireFor (h : Kept as b) {r : ρ} {q : Requester ι} (hs : b.acquireFor r q = some b')
    (hq : signals (b.requesters r).pc = false) : Kept as b' := by
  obtain ⟨-, rfl⟩ := State.acquireFor_eq_some.mp hs
  exact h.goto (fun _ => id) rfl rfl rfl hq

theorem request (h : Kept as b) {r : ρ} {op : RequesterOp ι}
    (hs : Blocking.request b r op = some b') : Kept as b' := by
  obtain ⟨hpc, hs⟩ := request_eq_some.mp hs
  have hq : signals (b.requesters r).pc = false := by rw [hpc]; rfl
  cases op with
  | lock | unlock =>
    obtain ⟨-, rfl⟩ := hs
    exact h.goto (fun _ => id) rfl rfl rfl hq
  | blockUnchecked | unblock =>
    subst hs
    exact h.goto (fun _ => id) rfl rfl rfl hq

omit [DecidableEq ρ] in
theorem shouldBlockFor_clear (a : BlockAdapter ι) (t : Thread ι) (i : ι)
    (h : (a.clearBlockRequest t).shouldBlockFor i = true) : t.shouldBlockFor i = true := by
  cases a with
  | unit => exact h
  | flags j =>
    by_cases hij : i = j
    · simp [BlockAdapter.clearBlockRequest, hij] at h
    · simpa [BlockAdapter.clearBlockRequest, hij] using h

theorem requesterStep (h : Kept as b) {r : ρ} (hs : Blocking.requesterStep b r = some b') :
    Kept as b' := by
  unfold Blocking.requesterStep at hs
  cases hpc : (b.requesters r).pc
  all_goals
    simp only [hpc] at hs
    try cases hs
    try have hq : signals (b.requesters r).pc = false := by rw [hpc]; rfl
  case lock | woken => exact h.acquireFor hs hq
  case blockLock | unblockLock =>
    split at hs
    · cases hs
      exact h.goto (fun _ => id) rfl rfl rfl hq
    · exact h.acquireFor hs hq
  case blockRequest a async =>
    refine ⟨fun _ _ _ => .inr (.inr (.inl ⟨r, ?_⟩)), fun hr => ?_, fun hc => ?_⟩
    · simp [State.goto, State.setRequester, signals]
    · cases a <;> exact h.reset hr
    · cases a <;> exact h.clear hc
  case blockTerminate a async =>
    split
    · next hd => exact h.requester (fun _ => id) rfl id rfl fun _ => .inr (.inr hd)
    · exact h.requester (fun _ => id) rfl id rfl fun _ => .inl rfl
  case blockTake a async =>
    have hne : (1 : Int32) ≠ 0 := by decide
    exact h.requester (fun _ => id) rfl (fun _ => hne) rfl fun _ => .inr (.inl hne)
  case blockNotify | unblockNotify =>
    exact h.notifyAll.goto (fun _ => id) rfl rfl rfl (signals_wake.trans hq)
  case statusCas | waitTest =>
    split <;> exact h.goto (fun _ => id) rfl rfl rfl hq
  case blockClear a | unblockClear a =>
    have hs := shouldBlockFor_clear a b.thread
    cases a <;> exact h.goto hs rfl rfl rfl hq
  case blockMark a | unblockMark a => cases a <;> exact h.goto (fun _ => id) rfl rfl rfl hq
  all_goals exact h.goto (fun _ => id) rfl rfl rfl hq

theorem step (h : Kept as b) {l : Label ι ρ} (hs : Blocking.step as b l = some b') :
    Kept as b' := by
  cases l with
  | call op => exact h.call hs
  | step => exact h.targetStep hs
  | request r op => exact h.request hs
  | requesterStep r => exact h.requesterStep hs

end Kept

section Counts

/-- In a yieldpoint that is not deferred, from locking the monitor on. -/
def locks : Pc ι → Bool
  | .yieldpointLock | .yieldpointTake | .yieldpointUnlock | .checkLock .yieldpoint
  | .checkBlocking .yieldpoint | .checkAcknowledge .yieldpoint | .checkNotify .yieldpoint
  | .checkBlocked .yieldpoint | .asleep .yieldpoint | .woken .yieldpoint | .checkStatus .yieldpoint
  | .checkDone .yieldpoint | .checkUnlock .yieldpoint => true
  | _ => false

@[simp] theorem locks_wake {pc : Pc ι} : locks pc.wake = locks pc := by
  cases pc with
  | asleep f => cases f <;> rfl
  | _ => rfl

/-- A step leaves the count alone, and goes on to lock the monitor only if the count is 1. -/
structure Plain (b b' : Blocking.State ι ρ) : Prop where
  count : b'.thread.yieldpointsEnabledCount = b.thread.yieldpointsEnabledCount
  locks : locks b'.pc = true → locks b.pc = true ∨ b.thread.yieldpointsEnabled = true

/-- The count after a step. -/
def countAfter (n : Int8) : Label ι ρ → Int8
  | .call .enableYieldpoints => n + 1
  | .call .disableYieldpoints => n - 1
  | _ => n

theorem call_count {op : Op ι} (hs : call b op = some b') :
    b'.thread.yieldpointsEnabledCount =
      countAfter b.thread.yieldpointsEnabledCount (.call op : Label ι ρ) ∧
    locks b'.pc = false := by
  unfold call at hs
  split at hs <;> cases hs <;> exact ⟨rfl, rfl⟩

variable [DecidableEq ι]

theorem plain_of_targetStep (hs : targetStep as b = some b') : Plain b b' := by
  have hacquire : ∀ {pc : Pc ι}, b.acquire pc = some b' → (locks pc = true → locks b.pc = true) →
      Plain b b' := by
    intro pc hs hl
    obtain ⟨-, rfl⟩ := State.acquire_eq_some.mp hs
    exact ⟨rfl, fun h => .inl (hl h)⟩
  unfold targetStep at hs
  cases hpc : b.pc
  all_goals
    simp only [hpc] at hs
    try cases hs
  case yieldpointLock | enterBlockedLock | blockLock | terminateLock =>
    exact hacquire hs (by rw [hpc]; exact id)
  case woken f => exact hacquire hs (by rw [hpc]; cases f <;> exact id)
  case yieldpointEnabled =>
    refine ⟨rfl, fun hl => .inr ?_⟩
    dsimp only at hl
    split at hl
    · assumption
    · cases hl
  case enterBlockedAcknowledge =>
    rw [Thread.acknowledgeBlockRequests_fst]
    exact ⟨rfl, fun h => absurd h (by dsimp only [State.setThread]; split <;> nofun)⟩
  case checkAcknowledge f =>
    rw [Thread.acknowledgeBlockRequests_fst]
    refine ⟨rfl, fun h => .inl ?_⟩
    dsimp only [State.setThread] at h
    rw [hpc]
    split at h <;> cases f <;> exact h
  case checkLock f =>
    cases f with
    | leaveNative => exact hacquire hs nofun
    | yieldpoint | blockSelf => cases hs; exact ⟨rfl, fun h => .inl (by rw [hpc]; exact h)⟩
  case checkUnlock f =>
    cases f <;> cases hs <;> exact ⟨rfl, fun h => .inl (by rw [hpc]; first | rfl | exact h)⟩
  case checkBlocking f | checkNotify f | checkStatus f | checkDone f =>
    exact ⟨rfl, fun h => .inl (by rw [hpc]; cases f <;> exact h)⟩
  case yieldpointTake => exact ⟨by split <;> rfl, fun _ => .inl (by rw [hpc]; rfl)⟩
  case checkBlocked f =>
    split <;> exact ⟨rfl, fun h => .inl (by rw [hpc]; cases f <;> exact h)⟩
  case blockRequest a => exact ⟨by cases a <;> rfl, nofun⟩
  case enterLoad | leaveLoad | enableTest =>
    refine ⟨rfl, fun h => absurd h ?_⟩
    dsimp only
    repeat' split
    all_goals nofun
  case enterCas | leaveCas => split <;> exact ⟨rfl, nofun⟩
  all_goals exact ⟨rfl, nofun⟩

variable [DecidableEq ρ]

theorem requesterStep_count {r : ρ} (hs : requesterStep b r = some b') :
    b'.thread.yieldpointsEnabledCount = b.thread.yieldpointsEnabledCount := by
  have hacquire : ∀ {q : Requester ι}, b.acquireFor r q = some b' →
      b'.thread.yieldpointsEnabledCount = b.thread.yieldpointsEnabledCount := by
    intro q hs
    obtain ⟨-, rfl⟩ := State.acquireFor_eq_some.mp hs
    rfl
  unfold requesterStep at hs
  cases hpc : (b.requesters r).pc
  all_goals
    simp only [hpc] at hs
    try cases hs
  case lock | woken => exact hacquire hs
  case blockLock | unblockLock =>
    split at hs
    · cases hs; rfl
    · exact hacquire hs
  case blockRequest a _ | blockClear a | blockMark a | unblockClear a | unblockMark a =>
    cases a <;> rfl
  case blockTerminate | statusCas | waitTest => split <;> rfl
  all_goals rfl

theorem plain_of_requesterStep {r : ρ} (hs : requesterStep b r = some b') : Plain b b' := by
  refine ⟨requesterStep_count hs, fun hl => .inl ?_⟩
  rcases requesterStep_pc hs with he | he
  · rwa [he] at hl
  · rwa [he, locks_wake] at hl

theorem plain_of_request {r : ρ} {op : RequesterOp ι} (hs : request b r op = some b') :
    Plain b b' := by
  obtain ⟨ht, hpc, -⟩ := request_result hs
  exact ⟨by rw [ht], fun hl => .inl (by rwa [hpc] at hl)⟩

theorem step_count {l : Label ι ρ} (hs : Blocking.step as b l = some b') :
    b'.thread.yieldpointsEnabledCount = countAfter b.thread.yieldpointsEnabledCount l ∧
      (locks b'.pc = true →
        b'.thread.yieldpointsEnabledCount = b.thread.yieldpointsEnabledCount ∧
          (locks b.pc = true ∨ b.thread.yieldpointsEnabled = true)) := by
  have hplain : Plain b b' → locks b'.pc = true →
      b'.thread.yieldpointsEnabledCount = b.thread.yieldpointsEnabledCount ∧
        (locks b.pc = true ∨ b.thread.yieldpointsEnabled = true) :=
    fun h hl => ⟨h.count, h.locks hl⟩
  cases l with
  | call op => exact ⟨(call_count hs).1, fun hl => absurd ((call_count hs).2.symm.trans hl) nofun⟩
  | step => exact ⟨(plain_of_targetStep hs).count, hplain (plain_of_targetStep hs)⟩
  | request r op => exact ⟨(plain_of_request hs).count, hplain (plain_of_request hs)⟩
  | requesterStep r => exact ⟨(plain_of_requesterStep hs).count, hplain (plain_of_requesterStep hs)⟩

end Counts

structure State (ι ρ : Type*) where
  base : Blocking.State ι ρ
  /-- Not in the source: the critical sections that the target is in. -/
  depth : ℕ

variable [DecidableEq ι] [DecidableEq ρ]

/-- The target closes only critical sections that it has opened. -/
def step (as : List (BlockAdapter ι)) (s : State ι ρ) (l : Label ι ρ) : Option (State ι ρ) :=
  match l with
  | .call .disableYieldpoints => (Blocking.step as s.base l).map fun b => ⟨b, s.depth + 1⟩
  | .call .enableYieldpoints =>
    if s.depth = 0 then none else (Blocking.step as s.base l).map fun b => ⟨b, s.depth - 1⟩
  | _ => (Blocking.step as s.base l).map fun b => ⟨b, s.depth⟩

/-- A started thread that has enabled its yieldpoints once. -/
def State.enabled : State ι ρ where
  base := { State.started with
    thread := { Thread.forMutator with execStatus := .inManaged, yieldpointsEnabledCount := 1 } }
  depth := 0

def machine (as : List (BlockAdapter ι)) : Machine (State ι ρ) (Label ι ρ) where
  init s := s = State.enabled
  step := step as

variable {s s' : State ι ρ} {i : ι}

/-- The depth after a step. -/
def depthAfter (n : ℕ) : Label ι ρ → ℕ
  | .call .enableYieldpoints => n - 1
  | .call .disableYieldpoints => n + 1
  | _ => n

theorem step_eq_some {l : Label ι ρ} : (machine as).step s l = some s' ↔
    (l = .call .enableYieldpoints → s.depth ≠ 0) ∧ Blocking.step as s.base l = some s'.base ∧
      s'.depth = depthAfter s.depth l := by
  have hmap : ∀ n, (Blocking.step as s.base l).map (fun b => (⟨b, n⟩ : State ι ρ)) = some s' ↔
      Blocking.step as s.base l = some s'.base ∧ s'.depth = n := by
    intro n
    rw [Option.map_eq_some_iff]
    constructor
    · rintro ⟨b, hb, rfl⟩
      exact ⟨hb, rfl⟩
    · rintro ⟨hb, rfl⟩
      exact ⟨s'.base, hb, rfl⟩
  change step as s l = some s' ↔ _
  unfold step depthAfter
  split
  · simp [hmap]
  · simp [hmap]
  · next h1 h2 =>
    rw [hmap]
    split
    · exact absurd rfl h2
    · exact absurd rfl h1
    · simp_all

omit [DecidableEq ι] [DecidableEq ρ] in
theorem countAfter_ofInt {n : ℕ} {l : Label ι ρ} (h : l = .call .enableYieldpoints → n ≠ 0) :
    countAfter (Int8.ofInt (1 - n)) l = Int8.ofInt (1 - depthAfter n l) := by
  unfold countAfter depthAfter
  split
  · have hn : (1 - (n - 1 : ℕ) : ℤ) = 1 - n + 1 := by
      have := h rfl
      omega
    rw [hn, Int8.ofInt_add (1 - n)]
    rfl
  · have hn : (1 - (n + 1 : ℕ) : ℤ) = 1 - n - 1 := by omega
    rw [hn, Int8.ofInt_sub (1 - n)]
    rfl
  · rfl

/-- What holds of the target in every run. -/
structure Sections (as : List (BlockAdapter ι)) (s : State ι ρ) : Prop where
  inv : Inv as s.base
  kept : Kept as s.base
  count : s.base.thread.yieldpointsEnabledCount = Int8.ofInt (1 - s.depth)
  locks : locks s.base.pc = true → s.base.thread.yieldpointsEnabled = true

theorem Sections.step (h : Sections as s) {l : Label ι ρ} (hs : (machine as).step s l = some s') :
    Sections as s' := by
  obtain ⟨hd, hb, hd'⟩ := step_eq_some.mp hs
  obtain ⟨hc, hl⟩ := step_count hb
  refine ⟨h.inv.step hb, h.kept.step hb, ?_, fun hl' => ?_⟩
  · rw [hc, h.count, hd', countAfter_ofInt hd]
  · obtain ⟨hsame, hlock | hen⟩ := hl hl'
    · simpa [Thread.yieldpointsEnabled, hsame] using h.locks hlock
    · simpa [Thread.yieldpointsEnabled, hsame] using hen

theorem sections_of_reachable (h : (machine as).Reachable s) : Sections as s := by
  refine h.invariant (I := Sections as) ?_ fun s l s' hi _ hs => hi.step hs
  rintro s rfl
  exact ⟨⟨⟨nofun, nofun⟩, fun _ => ⟨nofun, nofun⟩, rfl, rfl, fun _ _ => nofun, fun _ _ => nofun,
    nofun, fun _ => trivial⟩, ⟨fun _ _ => nofun, nofun, nofun⟩, rfl, nofun⟩

omit [DecidableEq ρ] in
/-- The count says that yieldpoints are enabled outside of all critical sections, and in 256. -/
theorem Sections.enabled_iff (h : Sections as s) :
    s.base.thread.yieldpointsEnabled = true ↔ 256 ∣ s.depth := by
  rw [Thread.yieldpointsEnabled, h.count, beq_iff_eq, Int8.ofInt_eq_iff_bmod_eq_toInt,
    show (1 : Int8).toInt = 1 from rfl, Int.bmod]
  split <;> omega

omit [DecidableEq ρ] in
theorem Sections.enabled_of_depth (h : Sections as s) (hd : s.depth = 0) :
    s.base.thread.yieldpointsEnabled = true := h.enabled_iff.mpr (hd ▸ Nat.dvd_zero 256)

section Deferral

/-- In managed code, outside of `yieldpoint`, `enable_yieldpoints` and `check_block`. -/
def runsManaged : Pc ι → Bool
  | .managed | .enterLoad | .enterCas | .blockLock _ | .blockRequest _ | .blockUnlock
  | .terminateNotify | .terminateLock | .terminateFlag => true
  | _ => false

def inEnable : Pc ι → Bool
  | .enableTest | .enableTake | .enableClear => true
  | _ => false

/-- An adapter's request is pending, and no requester has the monitor. -/
def State.Pending (s : State ι ρ) (i : ι) : Prop :=
  s.base.thread.shouldBlockFor i = true ∧ ∀ r, s.base.monitor ≠ some (.requester r)

omit [DecidableEq ρ] in
theorem Sections.signalled (h : Sections as s) (hi : .flags i ∈ as) (hp : s.Pending i)
    (hw : s.base.pc.willAcknowledge = false) (hd : s.base.pc.dying = false) :
    Signalled s.base.thread := by
  rcases h.kept.noticed i hi hp.1 with hsig | hack | ⟨r, hr⟩ | hdy
  · exact hsig
  · exact absurd (hw.symm.trans hack) nofun
  · refine absurd ((h.inv.requester r).mpr ?_) (hp.2 r)
    unfold signals at hr
    unfold Requester.holds
    split at hr <;> simp_all
  · exact absurd (hd.symm.trans (h.inv.dying.symm.trans hdy)) nofun

/-- `enable_yieldpoints` returns after it has moved a deferred yieldpoint, or if there is none. -/
structure Returns (b b' : Blocking.State ι ρ) : Prop where
  monitor : b'.monitor = b.monitor
  shouldBlockFor : b'.thread.shouldBlockFor = b.thread.shouldBlockFor
  takeYieldpoint : b'.thread.takeYieldpoint = b.thread.takeYieldpoint
  moved : b.pc = .enableClear ∨ b.pc = .enableTest ∧
    (b.thread.yieldpointsEnabled && b.thread.yieldpointRequestPending) = false

omit [DecidableEq ρ] in
theorem returns_of_targetStep (hs : targetStep as b = some b') (hpc : inEnable b.pc = true)
    (hpc' : b'.pc = .managed) : Returns b b' := by
  unfold targetStep at hs
  cases hb : b.pc
  all_goals
    rw [hb] at hpc
    try cases hpc
  all_goals
    simp only [hb] at hs
    cases hs
  case enableTest =>
    refine ⟨rfl, rfl, rfl, .inr ⟨hb, Bool.eq_false_iff.mpr fun hc => ?_⟩⟩
    simp [hc] at hpc'
  case enableTake => cases hpc'
  case enableClear => exact ⟨rfl, rfl, rfl, .inl hb⟩

theorem returns_of_step {l : Label ι ρ} (hs : Blocking.step as b l = some b')
    (hpc : inEnable b.pc = true) (hpc' : b'.pc = .managed) : l = .step ∧ Returns b b' := by
  have hne : b.pc ≠ .managed ∧ b.pc ≠ .native := by
    constructor <;> intro hb <;> rw [hb] at hpc <;> cases hpc
  have hwake : b.pc.wake ≠ .managed := fun h => hne.1 (Pc.eq_of_wake h nofun)
  cases l with
  | call op =>
    change call b op = some b' at hs
    unfold call at hs
    split at hs <;> simp_all
  | step => exact ⟨rfl, returns_of_targetStep hs hpc hpc'⟩
  | request r op => exact absurd ((request_pc hs).symm.trans hpc') hne.1
  | requesterStep r =>
    rcases requesterStep_pc hs with he | he
    · exact absurd (he.symm.trans hpc') hne.1
    · exact absurd (he.symm.trans hpc') hwake

/--
In every run, a request that is pending while no requester has the monitor and the target is in
managed code has left one of the two flags set; and it has set the one for the next yieldpoint
when the target comes back from the enable that ends the outermost critical section.
-/
theorem no_request_lost (h : (machine as).Reachable s) (hi : .flags i ∈ as) :
    (s.Pending i → runsManaged s.base.pc = true → Signalled s.base.thread) ∧
    ∀ l s', (machine as).step s l = some s' → inEnable s.base.pc = true →
      s'.base.pc = .managed → s'.depth = 0 → s'.Pending i → s'.base.thread.takeYieldpoint ≠ 0 := by
  have hsec := sections_of_reachable h
  refine ⟨fun hp hpc => hsec.signalled hi hp ?_ ?_, fun l s' hs hpc hpc' hd hp => ?_⟩
  · cases hb : s.base.pc <;> rw [hb] at hpc <;> first | rfl | cases hpc
  · cases hb : s.base.pc <;> rw [hb] at hpc <;> first | rfl | cases hpc
  obtain ⟨-, hb, hd'⟩ := step_eq_some.mp hs
  obtain ⟨rfl, hm, hsh, ht, hclear | ⟨htest, hn⟩⟩ := returns_of_step hb hpc hpc'
  · exact ht ▸ hsec.kept.clear hclear
  have hen : s.base.thread.yieldpointsEnabled = true := hsec.enabled_of_depth (hd'.symm.trans hd)
  have hflag : s.base.thread.yieldpointRequestPending = false := by simpa [hen] using hn
  have hsig := hsec.signalled hi ⟨hsh ▸ hp.1, hm ▸ hp.2⟩ (by rw [htest]; rfl) (by rw [htest]; rfl)
  exact ht ▸ hsig.resolve_right (by rw [hflag]; exact nofun)

/-- A request arrives in a critical section, and its yieldpoint is deferred to the end of it. -/
def deferralRun : List (Label Unit Unit) :=
  [.call .disableYieldpoints, .request () (.blockUnchecked (.flags ()) true),
    .requesterStep (), .requesterStep (), .requesterStep (), .requesterStep (), .requesterStep (),
    .requesterStep (), .requesterStep (), .requesterStep (), .call .yieldpoint, .step, .step,
    .step, .call .enableYieldpoints, .step, .step]

theorem no_request_lost_deferral : ∃ s s' : State Unit Unit,
    (machine [.flags ()]).checkedExec (fun _ _ => True) .enabled deferralRun = some s ∧
    (machine [.flags ()]).step s .step = some s' ∧ s.base.pc = .enableClear ∧
    s'.Pending () ∧ s'.base.thread.takeYieldpoint ≠ 0 := by
  obtain ⟨s, s', hs, hs', hpc, hpc', hd, hp⟩ : ∃ s s' : State Unit Unit,
      (machine [.flags ()]).checkedExec (fun _ _ => True) .enabled deferralRun = some s ∧
      (machine [.flags ()]).step s .step = some s' ∧ s.base.pc = .enableClear ∧
      s'.base.pc = .managed ∧ s'.depth = 0 ∧ s'.Pending () :=
    ⟨_, _, rfl, rfl, rfl, rfl, rfl, rfl, fun _ => nofun⟩
  exact ⟨s, s', hs, hs', hpc, hp, (no_request_lost (i := ()) (.checkedExec (.init rfl) hs)
    (by simp)).2 .step s' hs' (by rw [hpc]; rfl) hpc' hd hp⟩

end Deferral

section Depth

/-- The next step of a yieldpoint that is deferred. -/
def deferred : Pc ι → Option (Pc ι)
  | .yieldpointEnabled => some .yieldpointDefer
  | .yieldpointDefer => some .yieldpointReset
  | .yieldpointReset => some .managed
  | _ => none

/-- A yieldpoint is deferred, without locking the monitor. -/
structure Deferred (as : List (BlockAdapter ι)) (s : State ι ρ) : Prop where
  disabled : s.base.thread.yieldpointsEnabled = false
  unlocked : locks s.base.pc = false
  defers : ∀ pc, deferred s.base.pc = some pc → ∃ s', (machine as).step s .step = some s' ∧
    s'.base.pc = pc ∧ s'.base.monitor = s.base.monitor ∧ s'.depth = s.depth ∧
    (pc = .managed → s'.base.thread.yieldpointRequestPending = true)

theorem Sections.deferred (h : Sections as s)
    (hen : s.base.thread.yieldpointsEnabled = false) : Deferred as s := by
  refine ⟨hen, ?_, fun pc hpc => ?_⟩
  · rw [Bool.eq_false_iff]
    exact fun hl => absurd (hen.symm.trans (h.locks hl)) nofun
  have hstep : ∀ t pc', targetStep as s.base = some (s.base.setThread t pc') →
      (pc' = .managed → t.yieldpointRequestPending = true) →
      ∃ s', (machine as).step s .step = some s' ∧ s'.base.pc = pc' ∧
        s'.base.monitor = s.base.monitor ∧ s'.depth = s.depth ∧
        (pc' = .managed → s'.base.thread.yieldpointRequestPending = true) := fun t pc' hb hp =>
    ⟨⟨s.base.setThread t pc', s.depth⟩, step_eq_some.mpr ⟨nofun, hb, rfl⟩, rfl, rfl, rfl, hp⟩
  unfold CriticalSections.deferred at hpc
  split at hpc <;> cases hpc
  case h_1 hb =>
    exact hstep s.base.thread _ (by simp [targetStep, hb, hen, State.setThread]) nofun
  case h_2 hb => exact hstep _ _ (by simp only [targetStep, hb]; rfl) nofun
  case h_3 hb =>
    exact hstep { s.base.thread with takeYieldpoint := 0, atYieldpoint := false } _
      (by simp only [targetStep, hb]) fun _ => h.kept.reset hb

/-- The target has entered so many critical sections and done nothing else. -/
def State.nested (n : ℕ) : State ι ρ where
  base := { State.started with
    thread := { Thread.forMutator with
      execStatus := .inManaged
      yieldpointsEnabledCount := Int8.ofInt (1 - n) } }
  depth := n

theorem nested_reachable (n : ℕ) : (machine as).Reachable (State.nested n : State ι ρ) := by
  induction n with
  | zero => exact .init rfl
  | succ n ih =>
    refine ih.next (a := .call .disableYieldpoints) (step_eq_some.mpr ⟨nofun, ?_, rfl⟩)
    have hc : Int8.ofInt (1 - n) - 1 = Int8.ofInt (1 - (n + 1 : ℕ)) :=
      countAfter_ofInt (l := (.call .disableYieldpoints : Label ι ρ)) nofun
    simp only [State.nested, ← hc]
    rfl

/--
At a nesting depth, yieldpoints are disabled and deferred in every run, and enabled again in
every run once all critical sections are left, exactly if 256 does not divide the depth.
-/
theorem critical_section_iff (as : List (BlockAdapter ι)) (d : ℕ) :
    ((∀ s : State ι ρ, (machine as).Reachable s → s.depth = d → Deferred as s) ∧
      ∀ s : State ι ρ, (machine as).Reachable s → s.depth = 0 →
        s.base.thread.yieldpointsEnabled = true) ↔ ¬ 256 ∣ d := by
  constructor
  · rintro ⟨h, -⟩ hd
    have hr : (machine as).Reachable (State.nested d : State ι ρ) := nested_reachable d
    have hen := (sections_of_reachable hr).enabled_iff.mpr hd
    exact absurd ((h _ hr rfl).disabled.symm.trans hen) nofun
  · refine fun hd => ⟨fun s hr hs => ?_, fun s hr => (sections_of_reachable hr).enabled_of_depth⟩
    subst hs
    have hsec := sections_of_reachable hr
    exact hsec.deferred (Bool.eq_false_iff.mpr fun hen => hd (hsec.enabled_iff.mp hen))

/-- In the 256th critical section a yieldpoint locks the monitor. -/
theorem locked_at_depth_256 : ∃ s : State Unit Unit, (machine [.flags ()]).Reachable s ∧
    s.depth = 256 ∧ s.base.thread.yieldpointsEnabled = true ∧ locks s.base.pc = true ∧
    s.base.monitor = some .target := by
  refine ⟨_, (((nested_reachable 256).next (a := .call .yieldpoint) rfl).next (a := .step) rfl).next
    (a := .step) rfl, ?_⟩
  decide

end Depth

end VmkitCore.CriticalSections
