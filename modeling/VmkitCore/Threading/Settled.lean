import VmkitCore.Threading.MainThread

/-! # New threads that run

A thread that runs while its state is `new` goes the way of one that is due to block,
as long as no requester reads its state. Both make the same steps, so what is known of
threads that are due to block carries over.
-/

namespace VmkitCore

/-- A thread that is `new` goes on like one that a requester has made `inManagedToBlock`. -/
def ThreadState.settled : ThreadState → ThreadState
  | .new => .inManagedToBlock
  | st => st

theorem ThreadState.settled_of_ne {st : ThreadState} (h : st ≠ .new) : st.settled = st := by
  cases st <;> first | rfl | exact absurd rfl h

variable {ι : Type*} [DecidableEq ι]

def Thread.settled (t : Thread ι) : Thread ι := { t with execStatus := t.execStatus.settled }

namespace BlockAdapter

variable {a : BlockAdapter ι} {t : Thread ι}

omit [DecidableEq ι] in
@[simp] theorem hasBlockRequest_settled : a.hasBlockRequest t.settled = a.hasBlockRequest t := by
  cases a <;> rfl

omit [DecidableEq ι] in
@[simp] theorem isBlocked_settled : a.isBlocked t.settled = a.isBlocked t := by cases a <;> rfl

theorem clearBlockRequest_settled :
    a.clearBlockRequest t.settled = (a.clearBlockRequest t).settled := by
  cases a <;> rfl

theorem setBlocked_settled {v : Bool} : a.setBlocked v t.settled = (a.setBlocked v t).settled := by
  cases a <;> rfl

end BlockAdapter

omit [DecidableEq ι] in
theorem Thread.isBlocked_settled (t : Thread ι) (as : List (BlockAdapter ι)) :
    t.settled.isBlocked as = t.isBlocked as := by
  simp [Thread.isBlocked]

theorem Thread.acknowledgeBlockRequests_settled (t : Thread ι) (as : List (BlockAdapter ι)) :
    t.settled.acknowledgeBlockRequests as =
      ((t.acknowledgeBlockRequests as).1.settled, (t.acknowledgeBlockRequests as).2) := by
  induction as generalizing t with
  | nil => rfl
  | cons a as ih =>
    rw [acknowledgeBlockRequests, acknowledgeBlockRequests, BlockAdapter.hasBlockRequest_settled,
      BlockAdapter.setBlocked_settled, BlockAdapter.clearBlockRequest_settled, ih, ih]
    split <;> rfl

namespace Blocking

variable {ι ρ : Type*} {s s' : State ι ρ}

def State.settled (s : State ι ρ) : State ι ρ :=
  { s with thread := s.thread.settled }

/-- About to read the state of the target. -/
def RequesterPc.loadsStatus : RequesterPc ι → Bool
  | .statusLoad .. => true
  | _ => false

/-- Going on with the state that `block_unchecked` has read. -/
def RequesterPc.loadedStatus : RequesterPc ι → Bool
  | .statusCas .. | .blockNotify .. | .waitTest _ | .asleep _ | .woken _ => true
  | _ => false

theorem State.settled_of_ne (h : s.thread.execStatus ≠ .new) : s.settled = s := by
  rw [State.settled, Thread.settled, ThreadState.settled_of_ne h]

theorem State.settled_acquire {pc : Pc ι} (hs : s.acquire pc = some s') :
    s.settled.acquire pc = some s'.settled := by
  obtain ⟨hm, rfl⟩ := State.acquire_eq_some.mp hs
  exact State.acquire_eq_some.mpr ⟨hm, rfl⟩

theorem call_settled {op : Op ι} (hs : call s op = some s') :
    call s.settled op = some s'.settled := by
  unfold call at hs ⊢
  split at hs <;> cases hs
  all_goals
    next hpc =>
      simp only [show s.settled.pc = _ from hpc]
      rfl

variable [DecidableEq ι] {as : List (BlockAdapter ι)}

/-- The target acts on `new` and on `inManagedToBlock` alike: neither is what it looks for. -/
theorem targetStep_settled_of_new (hnew : s.thread.execStatus = .new)
    (hs : targetStep as s = some s') : targetStep as s.settled = some s'.settled := by
  have hst : s.settled.thread.execStatus = .inManagedToBlock :=
    congrArg ThreadState.settled hnew
  unfold targetStep at hs ⊢
  cases hpc : s.pc
  all_goals
    have hpc' : s.settled.pc = _ := hpc
    simp only [hpc, hpc', hnew, hst] at hs ⊢
  case managed | native | asleep | terminated => cases hs
  case yieldpointLock | enterBlockedLock | woken | blockLock | terminateLock =>
    exact State.settled_acquire hs
  case checkLock f =>
    cases f with
    | leaveNative => exact State.settled_acquire hs
    | yieldpoint | blockSelf => cases hs; rfl
  case checkUnlock f => cases f <;> cases hs <;> rfl
  case blockRequest a => cases a <;> cases hs <;> rfl
  case enterBlockedAcknowledge | checkAcknowledge =>
    cases hs
    rw [show s.settled.thread = s.thread.settled from rfl,
      Thread.acknowledgeBlockRequests_settled]
    split <;> rfl
  case yieldpointTake =>
    cases hs
    rw [show s.settled.thread.takeYieldpoint = s.thread.takeYieldpoint from rfl]
    split <;> rfl
  case checkBlocked =>
    cases hs
    rw [show s.settled.thread.isBlocked as = s.thread.isBlocked as from
      Thread.isBlocked_settled ..]
    split <;> rfl
  all_goals cases hs; rfl

theorem targetStep_settled (hs : targetStep as s = some s') :
    targetStep as s.settled = some s'.settled := by
  by_cases hnew : s.thread.execStatus = .new
  · exact targetStep_settled_of_new hnew hs
  · rwa [State.settled_of_ne hnew, State.settled_of_ne ((targetStep_status hs).ne rfl hnew)]

variable [DecidableEq ρ] {r : ρ}

omit [DecidableEq ι] in
theorem State.settled_acquireFor {q : Requester ι} (hs : s.acquireFor r q = some s') :
    s.settled.acquireFor r q = some s'.settled := by
  obtain ⟨hm, rfl⟩ := State.acquireFor_eq_some.mp hs
  exact State.acquireFor_eq_some.mpr ⟨hm, rfl⟩

theorem request_settled {op : RequesterOp ι} (hs : request s r op = some s') :
    request s.settled r op = some s'.settled := by
  obtain ⟨hpc, hs⟩ := request_eq_some.mp hs
  refine request_eq_some.mpr ⟨hpc, ?_⟩
  cases op with
  | lock | unlock => exact ⟨hs.1, congrArg State.settled hs.2⟩
  | blockUnchecked | unblock => exact congrArg State.settled hs

/-- A requester that is not concerned with the state of the target. -/
theorem requesterStep_settled
    (hload : (s.requesters r).pc.loadsStatus = true → s.thread.execStatus ≠ .new)
    (hloaded : (s.requesters r).pc.loadedStatus = true → s.thread.execStatus ≠ .new)
    (hs : requesterStep s r = some s') : requesterStep s.settled r = some s'.settled := by
  by_cases hnew : s.thread.execStatus = .new
  · unfold requesterStep at hs ⊢
    cases hpc : (s.requesters r).pc
    all_goals
      have hpc' : (s.settled.requesters r).pc = _ := hpc
      simp only [hpc, hpc'] at hs ⊢
    case idle | asleep => cases hs
    case statusLoad => exact absurd hnew (hload (by rw [hpc]; rfl))
    case statusCas | blockNotify | waitTest | woken =>
      exact absurd hnew (hloaded (by rw [hpc]; rfl))
    case lock => exact State.settled_acquireFor hs
    case blockLock | unblockLock =>
      rw [show s.settled.requesters = s.requesters from rfl]
      split at hs
      · next ho => cases hs; rw [if_pos ho]; rfl
      · next ho => rw [if_neg ho]; exact State.settled_acquireFor hs
    case blockTerminate =>
      cases hs
      rw [show s.settled.thread.isAboutToTerminate = s.thread.isAboutToTerminate from rfl]
      split <;> rfl
    case blockRequest a _ | blockClear a | blockMark a | unblockClear a | unblockMark a =>
      cases a <;> cases hs <;> rfl
    all_goals cases hs; rfl
  · rwa [State.settled_of_ne hnew, State.settled_of_ne ((requesterStep_status hs).ne rfl hnew)]

/-- A requester that goes on with a state of the target has not read `new`. -/
def State.Loaded (s : State ι ρ) (r : ρ) : Prop :=
  (s.requesters r).pc.loadedStatus = true → s.thread.execStatus ≠ .new

namespace State.Loaded

omit [DecidableEq ι] [DecidableEq ρ] in
theorem call {op : Op ι} (h : s.Loaded r) (hs : Blocking.call s op = some s') : s'.Loaded r := by
  rw [State.Loaded, call_requesters hs, (call_agrees hs).execStatus]
  exact h

omit [DecidableEq ρ] in
theorem targetStep (h : s.Loaded r) (hs : Blocking.targetStep as s = some s') : s'.Loaded r := by
  intro hl
  refine (targetStep_status hs).ne rfl (h ?_)
  rcases targetStep_requesters hs with he | he
  · rwa [he] at hl
  · rw [he] at hl
    revert hl
    cases hpc : (s.requesters r).pc <;>
      simp [State.notifyAll, RequesterPc.wake, RequesterPc.loadedStatus, hpc]

theorem request {op : RequesterOp ι} (hs : Blocking.request s r op = some s') : s'.Loaded r := by
  intro hl
  obtain ⟨hpc, hs⟩ := request_eq_some.mp hs
  cases op with
  | lock | unlock =>
    obtain ⟨-, rfl⟩ := hs
    simp [State.goto, State.setRequester, RequesterPc.loadedStatus, hpc] at hl
  | blockUnchecked | unblock =>
    subst hs
    simp [State.goto, State.setRequester, RequesterPc.loadedStatus] at hl

theorem requesterStep_loaded (hs : Blocking.requesterStep s r = some s')
    (hl : (s'.requesters r).pc.loadedStatus = true) :
    (s.requesters r).pc.loadsStatus = true ∨ (s.requesters r).pc.loadedStatus = true := by
  have hq : ∀ {t : Thread ι} {m : Option (Holder ρ)} {pc : Pc ι} {f : ρ → Requester ι}
      {q : Requester ι},
      ((⟨t, m, pc, Function.update f r q⟩ : State ι ρ).requesters r).pc.loadedStatus = true →
        q.pc.loadedStatus = true := by
    simp
  unfold Blocking.requesterStep at hs
  cases hpc : (s.requesters r).pc
  all_goals simp only [hpc] at hs
  case statusLoad => exact .inl rfl
  case statusCas | blockNotify | waitTest | woken | asleep => exact .inr rfl
  case idle => cases hs
  case lock =>
    rw [(acquireFor_result hs).2] at hl
    cases hl
  case blockLock | unblockLock =>
    split at hs
    · cases hs; cases hq hl
    · rw [(acquireFor_result hs).2] at hl
      cases hl
  case blockTerminate =>
    cases hs
    split at hl <;> cases hq hl
  case blockRequest a _ | blockClear a | blockMark a | unblockClear a | unblockMark a =>
    cases a <;> cases hs <;> cases hq hl
  all_goals cases hs; cases hq hl

theorem requesterStep (h : s.Loaded r)
    (hload : (s.requesters r).pc.loadsStatus = true → s.thread.execStatus ≠ .new)
    (hs : Blocking.requesterStep s r = some s') : s'.Loaded r := by
  intro hl
  refine (requesterStep_status hs).ne rfl ?_
  exact (requesterStep_loaded hs hl).elim hload h

end State.Loaded

end Blocking

namespace ThreadManager

variable {τ ι : Type*}

/-- Every thread that entered its start-up is taken as settled. -/
def State.settled (s : State τ ι) : State τ ι :=
  { s with threads := fun t =>
      if s.phase t = .unstarted then s.threads t else (s.threads t).settled }

namespace Inner

variable {m : Inner τ} {status status' : τ → ThreadState} {index : τ → ℕ}

theorem findTerminated_congr (h : ∀ t, status t = .terminated ↔ status' t = .terminated)
    (threads : List (Option τ)) (i n : ℕ) :
    findTerminated status threads i n = findTerminated status' threads i n := by
  induction n generalizing i with
  | zero => rfl
  | succ n ih => simp only [findTerminated, h, ih]

theorem process_congr (h : ∀ t, status t = .terminated ↔ status' t = .terminated) :
    m.processAboutToTerminate status index = m.processAboutToTerminate status' index := by
  rw [processAboutToTerminate, findTerminated_congr h]
  rfl

end Inner

section Settled

variable {s s' : State τ ι} {t : τ} {p : Phase} {c : Blocking.State ι Unit} {pc : CollectorPc τ}

theorem settled_threads (h : s.phase t ≠ .unstarted) :
    s.settled.threads t = (s.threads t).settled := if_neg h

@[simp] theorem settled_pc : (s.settled.threads t).pc = (s.threads t).pc := by
  unfold State.settled
  dsimp only
  split <;> rfl

@[simp] theorem settled_requesters :
    (s.settled.threads t).requesters = (s.threads t).requesters := by
  unfold State.settled
  dsimp only
  split <;> rfl

@[simp] theorem settled_isBlockedFor :
    (s.settled.threads t).thread.isBlockedFor = (s.threads t).thread.isBlockedFor := by
  unfold State.settled
  dsimp only
  split <;> rfl

@[simp] theorem settled_isAboutToTerminate :
    (s.settled.threads t).thread.isAboutToTerminate = (s.threads t).thread.isAboutToTerminate := by
  unfold State.settled
  dsimp only
  split <;> rfl

theorem settled_process {m : Inner τ} {index : τ → ℕ} :
    m.processAboutToTerminate s.settled.status index =
      m.processAboutToTerminate s.status index := by
  refine Inner.process_congr fun t => ?_
  simp only [State.status, State.settled]
  split
  · rfl
  · change (s.threads t).thread.execStatus.settled = .terminated ↔ _
    cases (s.threads t).thread.execStatus <;> simp [ThreadState.settled]

variable [DecidableEq τ]

theorem settled_setThread (h : s.phase t ≠ .unstarted) :
    s.settled.setThread t c.settled = (s.setThread t c).settled := by
  have ht : (s.setThread t c).settled.threads = (s.settled.setThread t c.settled).threads := by
    funext u
    by_cases hut : u = t
    · subst hut; simp [State.settled, h]
    · simp [State.settled, hut]
  exact congrArg (fun f => { s with threads := f }) ht.symm

theorem settled_setPhase (h : s.phase t ≠ .unstarted) (hp : p ≠ .unstarted) :
    s.settled.setPhase t p = (s.setPhase t p).settled := by
  have ht : (s.setPhase t p).settled.threads = s.settled.threads := by
    funext u
    by_cases hut : u = t
    · subst hut; simp [State.settled, h, hp]
    · simp [State.settled, hut]
  exact congrArg (fun f => { s.setPhase t p with threads := f }) ht.symm

/-- A thread goes to another phase, maybe from `unstarted`. -/
theorem settled_setBoth (hp : p ≠ .unstarted) :
    (s.settled.setThread t c.settled).setPhase t p = ((s.setThread t c).setPhase t p).settled := by
  have ht : ((s.setThread t c).setPhase t p).settled.threads =
      (s.settled.setThread t c.settled).threads := by
    funext u
    by_cases hut : u = t
    · subst hut; simp [State.settled, hp]
    · simp [State.settled, hut]
  exact congrArg (fun f => { s.setPhase t p with threads := f }) ht.symm

theorem settled_onThread {o o' : Option (Blocking.State ι Unit)} (h : s.phase t ≠ .unstarted)
    (ho : ∀ c, o = some c → o' = some c.settled) (hs : s.onThread t o pc = some s') :
    s.settled.onThread t o' pc = some s'.settled := by
  obtain ⟨c, hc, rfl⟩ := Option.map_eq_some_iff.mp hs
  rw [ho c hc]
  exact congrArg (fun x => some { x with collector := pc }) (settled_setThread h)

end Settled

section Steps

variable [DecidableEq τ] [DecidableEq ι] {cfg : Config τ ι} {s s' : State τ ι} {t : τ}
  {pc : CollectorPc τ}

theorem settled_request {op : Blocking.RequesterOp ι} (hp : (s.phase t).isRegistered = true)
    (hs : s.onThread t (Blocking.request (s.threads t) () op) pc = some s') :
    s.settled.onThread t (Blocking.request (s.settled.threads t) () op) pc = some s'.settled := by
  have hne := Phase.started_of_isRegistered hp
  refine settled_onThread hne (fun c hc => ?_) hs
  rw [settled_threads hne]
  exact Blocking.request_settled hc

/-- No thread whose state is about to be read, or has been, is `new`. -/
def StatusLoaded (s : State τ ι) : Prop :=
  ∀ t, ((s.threads t).requesters ()).pc.loadsStatus = true ∨
    ((s.threads t).requesters ()).pc.loadedStatus = true → s.status t ≠ .new

theorem settled_requesterStep (h : StatusLoaded s) (hp : (s.phase t).isRegistered = true)
    (hs : s.onThread t (Blocking.requesterStep (s.threads t) ()) pc = some s') :
    s.settled.onThread t (Blocking.requesterStep (s.settled.threads t) ()) pc =
      some s'.settled := by
  have hne := Phase.started_of_isRegistered hp
  refine settled_onThread hne (fun c hc => ?_) hs
  rw [settled_threads hne]
  exact Blocking.requesterStep_settled (fun hl => h t (.inl hl)) (fun hl => h t (.inr hl)) hc

theorem settled_runMethod (h : StatusLoaded s) (hp : (s.phase t).isRegistered = true)
    (hs : s.runMethod t pc = some s') : s.settled.runMethod t pc = some s'.settled := by
  unfold State.runMethod at hs ⊢
  rw [settled_requesters]
  split at hs
  · next hidle => cases hs; rw [if_pos hidle]; rfl
  · next hidle => rw [if_neg hidle]; exact settled_requesterStep h hp hs

theorem settled_collectorStep (hi : Inv cfg s.settled) (h : StatusLoaded s)
    (hs : collectorStep cfg s = some s') : collectorStep cfg s.settled = some s'.settled := by
  have hl := hi.listed
  unfold collectorStep at hs ⊢
  cases hpc : s.collector
  all_goals
    have hpc' : s.settled.collector = _ := hpc
    simp only [hpc, hpc', CollectorPc.listed, settled_requesters, settled_isBlockedFor]
      at hs hl ⊢
  case retain todo kept =>
    cases todo with
    | nil => cases kept <;> cases hs <;> rfl
    | cons t todo => exact settled_request (hl t (by simp)) hs
  case sync todo | unblock todo =>
    cases todo with
    | nil => cases hs; rfl
    | cons t todo => exact settled_request (hl t (by simp)) hs
  case retainLock t _ _ | syncLock t _ | unblockLock t _ =>
    exact settled_requesterStep h (hl t (by simp)) hs
  case retainTest t todo kept =>
    split at hs
    · next hb => cases hs; rw [if_pos hb]; rfl
    · next hb => rw [if_neg hb]; exact settled_request (hl t (by simp)) hs
  case retainBlock t _ _ | syncBlock t _ | unblockRun t _ =>
    exact settled_runMethod h (hl t (by simp)) hs
  case retainUnlock t _ _ | syncCall t _ | syncUnlock t _ | unblockCall t _ | unblockUnlock t _ =>
    exact settled_request (hl t (by simp)) hs
  case process =>
    rw [show s.settled.innerLocked = s.innerLocked from rfl]
    split at hs
    · cases hs
    next hlock =>
    obtain ⟨⟨m, again⟩, hm, rfl⟩ := Option.map_eq_some_iff.mp hs
    rw [if_neg hlock]
    rw [← settled_process] at hm
    exact Option.map_eq_some_iff.mpr ⟨_, hm, rfl⟩
  case scan | collectLock | unblockScan =>
    rw [show s.settled.innerLocked = s.innerLocked from rfl]
    split at hs <;> cases hs
    next hlock => rw [if_neg hlock]; rfl
  case collect rest acc => rcases rest with _ | ⟨_ | t, rest⟩ <;> cases hs <;> rfl
  case idle | returned => cases hs; rfl

omit [DecidableEq ι] in
theorem settled_map {o o' : Option (Blocking.State ι Unit)} (h : s.phase t ≠ .unstarted)
    (ho : ∀ c, o = some c → o' = some c.settled) (hs : o.map (s.setThread t) = some s') :
    o'.map (s.settled.setThread t) = some s'.settled := by
  obtain ⟨c, hc, rfl⟩ := Option.map_eq_some_iff.mp hs
  rw [ho c hc]
  exact congrArg some (settled_setThread h)

/-- A thread on its way into the table, but for a `new` one that enters `parked_scope`. -/
theorem settled_startup (hs : startup cfg s t = some s') :
    startup cfg s.settled t = some s'.settled ∨ s.phase t = .processing ∧ s.innerLocked = false ∧
      ∃ m, s.inner.processAboutToTerminate s.status s.indexInManager = some (m, false) ∧
        s' = { s with inner := m }.setPhase t (.parked false) := by
  unfold startup at hs ⊢
  cases hp : s.phase t
  all_goals
    have hp' : s.settled.phase t = _ := hp
    simp only [hp, hp'] at hs ⊢
  case unstarted =>
    left
    obtain rfl := Option.some.inj hs
    rw [show s.settled.threads t = s.threads t from if_pos hp]
    let c := s.threads t
    exact congrArg some (settled_setBoth (p := .spawned)
      (c := { c with thread := { c.thread with execStatus := .inManaged } }) nofun)
  all_goals have hne : s.phase t ≠ .unstarted := by rw [hp]; exact nofun
  case spawned =>
    left
    split at hs
    · next hm =>
      obtain ⟨c, hc, rfl⟩ := Option.map_eq_some_iff.mp hs
      rw [if_pos hm, settled_threads hne, Blocking.call_settled hc]
      exact congrArg some (settled_setBoth nofun)
    · next hm =>
      obtain rfl := Option.some.inj hs
      rw [if_neg hm]
      exact congrArg some (settled_setPhase hne nofun)
  case enabling | parking =>
    left
    rw [settled_pc]
    split at hs
    · next hpc =>
      obtain rfl := Option.some.inj hs
      rw [if_pos hpc]
      exact congrArg some (settled_setPhase hne nofun)
    · next hpc =>
      rw [if_neg hpc]
      exact settled_map hne (fun c hc => settled_threads hne ▸ Blocking.targetStep_settled hc) hs
  case processing =>
    rw [show s.settled.innerLocked = s.innerLocked from rfl]
    split at hs
    · cases hs
    next hlock =>
    obtain ⟨⟨m, again⟩, hm, hs⟩ := Option.bind_eq_some_iff.mp hs
    rw [if_neg hlock, show s.settled.inner.processAboutToTerminate s.settled.status
      s.settled.indexInManager = some (m, again) from settled_process.trans hm, Option.bind_some]
    dsimp only at hs ⊢
    split at hs
    · next ha =>
      obtain rfl := Option.some.inj hs
      rw [if_pos ha]
      exact .inl rfl
    next ha =>
    obtain rfl : again = false := by simpa using ha
    by_cases hnew : (s.threads t).thread.execStatus = .new
    · rw [if_pos (.inr hnew)] at hs
      exact .inr ⟨trivial, by simpa using hlock, m, hm, (Option.some.inj hs).symm⟩
    have hst := (settled_threads hne).trans (Blocking.State.settled_of_ne hnew)
    rw [hst]
    left
    split at hs
    · next hn =>
      obtain rfl := Option.some.inj hs
      rw [if_pos hn]
      exact congrArg some (settled_setPhase (s := { s with inner := m }) hne nofun)
    · next hn =>
      obtain ⟨c, hc, rfl⟩ := Option.map_eq_some_iff.mp hs
      rw [if_neg hn, ← hst, settled_threads hne, Blocking.call_settled hc]
      exact congrArg some (settled_setBoth (s := { s with inner := m }) nofun)
  case parked scope =>
    left
    rw [show s.settled.innerLocked = s.innerLocked from rfl]
    split at hs
    · cases hs
    next hlock =>
    obtain rfl := Option.some.inj hs
    rw [if_neg hlock]
    let m := s.inner.addThread t
    refine congrArg some (settled_setPhase (s := { s with
      inner := m.1, indexInManager := Function.update s.indexInManager t m.2 }) hne ?_)
    cases scope <;> exact nofun
  case leaving =>
    left
    rw [settled_pc]
    split at hs
    · next hpc =>
      obtain rfl := Option.some.inj hs
      rw [if_pos hpc]
      exact congrArg some (settled_setPhase hne nofun)
    next hpc =>
    rw [if_neg hpc]
    split at hs
    · next hpc =>
      rw [if_pos hpc]
      exact settled_map hne (fun c hc => settled_threads hne ▸ Blocking.call_settled hc) hs
    · next hpc =>
      rw [if_neg hpc]
      exact settled_map hne (fun c hc => settled_threads hne ▸ Blocking.targetStep_settled hc) hs
  case running => cases hs

/-- A step of the manager, or the `new` thread of `settled_startup` goes its own way. -/
theorem settled_step (hi : Inv cfg s.settled) {l : Label τ ι} (h : l = .collector → StatusLoaded s)
    (hs : step cfg s l = some s') :
    step cfg s.settled l = some s'.settled ∨
      Inv cfg s'.settled ∧ FromThread s.settled s'.settled False := by
  cases l with
  | startup t =>
    rcases settled_startup hs with hs | ⟨hp, hlock, m, hm, rfl⟩
    · exact .inl hs
    right
    have hne : s.phase t ≠ .unstarted := by rw [hp]; rintro ⟨⟩
    have hmem : ∀ u, some u ∈ m.threads → some u ∈ s.inner.threads :=
      fun u hu => Inner.mem_of_process hm hu
    rw [← settled_setPhase (s := { s with inner := m }) (p := .parked false) hne (by rintro ⟨⟩)]
    refine ⟨?_, rfl, rfl, fun _ => .refl, fun u hu => .inl (hmem u hu), fun hl => ?_⟩
    · refine (hi.setInner s.indexInManager fun u hu => hi.members u (hmem u hu)).setPhase
        (t := t) (p := .parked false) hne (by rintro ⟨⟩) fun hr => ?_
      rw [show s.settled.phase t = .processing from hp] at hr
      cases hr
    · rw [show s.settled.innerLocked = false from hlock] at hl
      cases hl
  | call t op =>
    left
    simp only [step, ThreadManager.call] at hs ⊢
    rw [show s.settled.phase = s.phase from rfl]
    split at hs
    · next hp =>
      have hne : s.phase t ≠ .unstarted := by rw [hp]; rintro ⟨⟩
      rw [if_pos hp]
      exact settled_map hne (fun c hc => settled_threads hne ▸ Blocking.call_settled hc) hs
    · cases hs
  | step t =>
    left
    simp only [step, threadStep] at hs ⊢
    rw [show s.settled.phase = s.phase from rfl, settled_pc,
      show s.settled.innerLocked = s.innerLocked from rfl]
    split at hs
    · cases hs
    next hp =>
    have hne : s.phase t ≠ .unstarted := by rw [not_not.mp hp]; rintro ⟨⟩
    have hmap : ∀ c, Blocking.targetStep cfg.adapters (s.threads t) = some c →
        Blocking.targetStep cfg.adapters (s.settled.threads t) = some c.settled :=
      fun c hc => settled_threads hne ▸ Blocking.targetStep_settled hc
    rw [if_neg hp]
    split at hs
    · next hpc =>
      rw [if_pos hpc]
      split at hs
      · cases hs
      next hlock =>
      obtain ⟨m, hm, hs⟩ := Option.bind_eq_some_iff.mp hs
      obtain ⟨c, hc, rfl⟩ := Option.map_eq_some_iff.mp hs
      rw [if_neg hlock, show s.settled.inner = s.inner from rfl,
        show s.settled.indexInManager = s.indexInManager from rfl, hm, hmap c hc]
      exact congrArg (fun x => some { x with inner := m }) (settled_setThread hne)
    · next hpc =>
      rw [if_neg hpc]
      exact settled_map hne hmap hs
  | collector => exact .inl (settled_collectorStep hi (h rfl) hs)

theorem settled_registerMutatorManual (hi : Inv cfg s.settled)
    (hs : s.registerMutatorManual cfg t = some s') :
    Inv cfg s'.settled ∧ FromThread s.settled s'.settled False := by
  obtain ⟨hp, -, rfl⟩ := State.registerMutatorManual_result hs
  have hfresh := hi.fresh t hp
  have hthread : s.settled.threads t = s.threads t := if_pos hp
  have he : s.setPhase t .spawned = (s.setThread t (s.threads t)).setPhase t .spawned := by
    rw [State.setThread, Function.update_eq_self]
  rw [he, ← settled_setBoth (p := .spawned) (by rintro ⟨⟩), ← hthread, hfresh]
  have hnew := Blocking.Inv.started (ρ := Unit) cfg.adapters
  refine ⟨hi.spawn hp ?_ rfl rfl, .setBoth ?_⟩
  · exact ⟨hnew.target, hnew.requester, rfl, rfl, hnew.blocked, fun _ _ _ => .inr (.inr (.inl rfl)),
      hnew.acknowledged, fun _ => trivial⟩
  · rw [hfresh]
    exact .of_eq rfl rfl rfl

end Steps

end ThreadManager

end VmkitCore
