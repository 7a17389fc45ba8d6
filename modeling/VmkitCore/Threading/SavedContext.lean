import VmkitCore.Threading.BlockingSafety

/-! # The saved context of a blocked thread

`check_block` saves the registers and the stack pointer, `enter_native` only the
stack pointer. A clock counts the managed instructions of the thread, and what is
saved is marked with the time of its saving.
-/

namespace VmkitCore.Blocking

variable {ι ρ : Type*}

/-- A thread with the times of its last managed instruction and of what it has saved. -/
structure History (ι ρ : Type*) where
  state : State ι ρ
  clock : ℕ
  registersAt : Option ℕ
  stackPointerAt : Option ℕ
  /-- It was `enter_native` that managed code called last, of all that may leave it. -/
  leftByEnterNative : Bool

inductive HistoryLabel (ι ρ : Type*)
  /-- A managed instruction that is not a call into the thread system. -/
  | instruction
  | blocking (l : Label ι ρ)
  deriving DecidableEq, Repr

/-- The step calls `check_block`, which saves the context before anything else. -/
def callsCheckBlock (s : State ι ρ) : Label ι ρ → Bool
  | .step =>
    match s.pc with
    | .yieldpointTake => s.thread.takeYieldpoint ≠ 0
    | .blockRequest _ => true
    | _ => false
  | _ => false

namespace History

variable [DecidableEq ι]

/-- A call is a managed instruction, too, if it is managed code that makes it. -/
def call (h : History ι ρ) (op : Op ι) (state : State ι ρ) : History ι ρ :=
  let clock := if h.state.pc = .managed then h.clock + 1 else h.clock
  { state, clock
    registersAt := h.registersAt
    stackPointerAt := if op = .enterNative then some clock else h.stackPointerAt
    leftByEnterNative :=
      match op with
      | .enterNative => true
      | .yieldpoint | .blockSelf _ => false
      | _ => h.leftByEnterNative }

def checkBlock (h : History ι ρ) (state : State ι ρ) : History ι ρ :=
  { h with state, registersAt := some h.clock, stackPointerAt := some h.clock }

def step [DecidableEq ρ] (as : List (BlockAdapter ι)) (h : History ι ρ) :
    HistoryLabel ι ρ → Option (History ι ρ)
  | .instruction => if h.state.pc = .managed then some { h with clock := h.clock + 1 } else none
  | .blocking l => (Blocking.step as h.state l).map fun state =>
    match l with
    | .call op => h.call op state
    | _ => if callsCheckBlock h.state l then h.checkBlock state else { h with state }

def started : History ι ρ := ⟨.started, 0, none, none, false⟩

/-- A target that keeps track of what it saves. -/
def machine [DecidableEq ρ] (as : List (BlockAdapter ι)) :
    Machine (History ι ρ) (HistoryLabel ι ρ) where
  init h := h = started
  step := step as

/-- Both are as the last managed instruction has left them. -/
def Fresh (h : History ι ρ) : Prop :=
  h.registersAt = some h.clock ∧ h.stackPointerAt = some h.clock

end History

/-- What is known of the saved context at a step of the target. -/
inductive Side
  | managed
  /-- On the way to `check_block`. -/
  | checking
  | saved | native
  deriving DecidableEq, Repr

def Frame.side : Frame → Side
  | .yieldpoint | .blockSelf => .saved
  | .leaveNative => .native

def Pc.side : Pc ι → Side
  | .yieldpointEnabled | .yieldpointLock | .yieldpointTake | .blockLock _ | .blockRequest _ =>
    .checking
  | .enterLoad | .enterCas | .enterBlockedLock | .enterBlockedStatus | .enterBlockedAcknowledge
  | .enterBlockedNotify | .enterBlockedUnlock | .native | .leaveLoad _ | .leaveCas _ => .native
  | .checkLock f | .checkBlocking f | .checkAcknowledge f | .checkNotify f | .checkBlocked f
  | .asleep f | .woken f | .checkStatus f | .checkDone f | .checkUnlock f => f.side
  | _ => .managed

@[simp] theorem Pc.side_wake (pc : Pc ι) : pc.wake.side = pc.side := by
  cases pc <;> rfl

variable [DecidableEq ι] {as : List (BlockAdapter ι)} {s s' : State ι ρ}

/-- Only the calls of `check_block` lead to where the context is saved. -/
theorem targetStep_side (hs : targetStep as s = some s') :
    if callsCheckBlock s (.step : Label ι ρ) then s.pc.side = .checking ∧ s'.pc.side = .saved
    else s'.pc.side = s.pc.side ∨ s'.pc.side = .managed := by
  unfold targetStep at hs
  unfold callsCheckBlock
  cases hpc : s.pc
  all_goals
    simp only [hpc] at hs
    try cases hs
  case yieldpointLock | enterBlockedLock | woken | blockLock | terminateLock =>
    rw [acquire_pc hs]; exact .inl rfl
  case checkLock f =>
    cases f with
    | leaveNative => rw [acquire_pc hs]; exact .inl rfl
    | yieldpoint | blockSelf => cases hs; exact .inl rfl
  case checkUnlock f => cases f <;> cases hs <;> exact .inr rfl
  case yieldpointTake =>
    split <;> simp_all [Pc.side, State.setThread, Frame.side]
  case leaveCas =>
    by_cases he : s.thread.execStatus = .inNative
    · rw [if_pos he]; exact .inr rfl
    · rw [if_neg he]; exact .inl rfl
  case leaveLoad =>
    left
    repeat' split
    all_goals rfl
  case yieldpointEnabled =>
    cases s.thread.yieldpointsEnabled
    · exact .inr rfl
    · exact .inl rfl
  case enterBlockedAcknowledge | checkAcknowledge =>
    left
    dsimp only [State.setThread]
    split <;> rfl
  case enterLoad | enterCas | checkBlocked | enableTest =>
    left
    split <;> rfl
  all_goals first | exact .inl rfl | exact .inr rfl | exact ⟨rfl, rfl⟩

omit [DecidableEq ι] in
theorem call_side {op : Op ι} (hs : call s op = some s') :
    s.pc = .managed ∧ (op = .enterNative ∧ s'.pc.side = .native ∨
        (op = .yieldpoint ∨ ∃ a, op = .blockSelf a) ∧ s'.pc.side = .checking ∨
        s'.pc.side = .managed) ∨
      s.pc = .native ∧ (op = .leaveNative ∨ op = .attemptLeaveNativeNoBlock) ∧
        s'.pc.side = .native := by
  unfold call at hs
  split at hs <;> rename_i hpc <;> cases hs <;> simp [hpc, Pc.side, State.setThread]

/-- Steps of requesters leave the target where it is. -/
theorem step_side [DecidableEq ρ] {l : Label ι ρ} (hs : step as s l = some s')
    (hcall : ∀ op, l ≠ .call op) :
    if callsCheckBlock s l then s.pc.side = .checking ∧ s'.pc.side = .saved
    else s'.pc.side = s.pc.side ∨ s'.pc.side = .managed := by
  cases l with
  | call op => exact absurd rfl (hcall op)
  | step => exact targetStep_side hs
  | request r op => exact .inl (by rw [request_pc hs])
  | requesterStep r =>
    rcases requesterStep_pc hs with he | he
    · exact .inl (by rw [he])
    · exact .inl (by rw [he, Pc.side_wake])

/-- What has been saved, by the side the target is on. -/
structure History.Inv (as : List (BlockAdapter ι)) (h : History ι ρ) : Prop where
  blocking : Blocking.Inv as h.state
  le : ∀ n, h.registersAt = some n → n ≤ h.clock
  checking : h.state.pc.side = .checking → h.leftByEnterNative = false
  saved : h.state.pc.side = .saved → h.registersAt = some h.clock ∧
    h.stackPointerAt = some h.clock ∧ h.leftByEnterNative = false
  native : h.state.pc.side = .native → h.registersAt ≠ some h.clock ∧
    h.stackPointerAt = some h.clock ∧ h.leftByEnterNative = true

namespace History.Inv

variable {h h' : History ι ρ}

/-- What has been saved stays as fresh while the thread is not in managed code. -/
theorem move (hi : Inv as h) {state : State ι ρ} (hb : Blocking.Inv as state)
    (hside : state.pc.side = h.state.pc.side ∨ state.pc.side = .managed) :
    Inv as { h with state } := by
  rcases hside with he | he
  · exact ⟨hb, hi.le, fun hc => hi.checking (he.symm.trans hc),
      fun hs => hi.saved (he.symm.trans hs), fun hn => hi.native (he.symm.trans hn)⟩
  · refine ⟨hb, hi.le, fun hc => ?_, fun hs => ?_, fun hn => ?_⟩
    · cases he.symm.trans hc
    · cases he.symm.trans hs
    · cases he.symm.trans hn

theorem checkBlock (hi : Inv as h) {state : State ι ρ} (hb : Blocking.Inv as state)
    (hchecking : h.state.pc.side = .checking) (hside : state.pc.side = .saved) :
    Inv as (h.checkBlock state) := by
  refine ⟨hb, fun n hn => Nat.le_of_eq (Option.some.inj hn).symm, fun hc => ?_,
    fun _ => ⟨rfl, rfl, hi.checking hchecking⟩, fun hn => ?_⟩
  · cases hside.symm.trans hc
  · cases hside.symm.trans hn

/-- Managed code goes on, and what it has saved gets old. -/
theorem managed (hi : Inv as h) {state : State ι ρ} (hb : Blocking.Inv as state)
    (hside : state.pc.side = .managed) {stackPointerAt : Option ℕ} {leftByEnterNative : Bool} :
    Inv as ⟨state, h.clock + 1, h.registersAt, stackPointerAt, leftByEnterNative⟩ := by
  refine ⟨hb, fun n hn => Nat.le_succ_of_le (hi.le n hn), fun hc => ?_, fun hs => ?_, fun hn => ?_⟩
  · cases hside.symm.trans hc
  · cases hside.symm.trans hs
  · cases hside.symm.trans hn

theorem call (hi : Inv as h) {op : Op ι} {state : State ι ρ} (hb : Blocking.Inv as state)
    (hs : Blocking.call h.state op = some state) : Inv as (h.call op state) := by
  rcases call_side hs with ⟨hpc, ⟨rfl, hside⟩ | ⟨hop, hside⟩ | hside⟩ | ⟨hpc, hop, hside⟩
  · -- the registers have not been saved since this call
    have hold : h.registersAt ≠ some (h.clock + 1) := fun he =>
      absurd (hi.le _ he) (Nat.not_succ_le_self _)
    simp only [History.call, hpc, if_true]
    refine ⟨hb, fun n hn => Nat.le_succ_of_le (hi.le n hn), fun hc => ?_, fun hs => ?_,
      fun _ => ⟨hold, rfl, rfl⟩⟩
    · cases hside.symm.trans hc
    · cases hside.symm.trans hs
  · simp only [History.call, hpc, if_true]
    refine ⟨hb, fun n hn => Nat.le_succ_of_le (hi.le n hn), fun _ => ?_, fun hs => ?_, fun hn => ?_⟩
    · rcases hop with rfl | ⟨a, rfl⟩ <;> rfl
    · cases hside.symm.trans hs
    · cases hside.symm.trans hn
  · simp only [History.call, hpc, if_true]
    exact hi.managed hb hside
  · have hmove := hi.move hb (.inl (hside.trans (by rw [hpc]; rfl)))
    rcases hop with rfl | rfl <;> simpa [History.call, hpc] using hmove

theorem step [DecidableEq ρ] (hi : Inv as h) {l : HistoryLabel ι ρ}
    (hs : History.step as h l = some h') : Inv as h' := by
  cases l with
  | instruction =>
    rw [History.step, Option.ite_none_right_eq_some] at hs
    obtain ⟨hpc, hs⟩ := hs
    cases hs
    exact hi.managed hi.blocking (by rw [hpc]; rfl)
  | blocking l =>
    obtain ⟨state, hstep, rfl⟩ := Option.map_eq_some_iff.mp hs
    have hb := hi.blocking.step hstep
    cases l with
    | call op => exact hi.call hb hstep
    | step | request r op | requesterStep r =>
      have hside := step_side hstep (by simp)
      dsimp only
      split at hside
      · next hc => rw [if_pos hc]; exact hi.checkBlock hb hside.1 hside.2
      · next hc => rw [if_neg hc]; exact hi.move hb hside

end History.Inv

theorem History.inv_of_reachable [DecidableEq ρ] {h : History ι ρ}
    (hr : (History.machine as).Reachable h) : h.Inv as :=
  hr.invariant (fun _ hs => by
      rw [show _ = History.started from hs]
      exact ⟨Inv.started as, by simp [started], by simp [started, State.started, Pc.side],
        by simp [started, State.started, Pc.side], by simp [started, State.started, Pc.side]⟩)
    fun _ _ _ hi _ hs => hi.step hs

/--
In every run, what is saved of a thread that is blocked for the collection is all of its last
managed instruction exactly when it was not `enter_native` that it left managed code by; the
saved stack pointer is in any case.
-/
theorem saved_context_iff [DecidableEq ρ] {gc : ι} {h : History ι ρ} (hgc : .flags gc ∈ as)
    (hr : (History.machine as).Reachable h) (hb : h.state.thread.isBlockedFor gc = true) :
    (h.Fresh ↔ h.leftByEnterNative = false) ∧ h.stackPointerAt = some h.clock := by
  have hi := History.inv_of_reachable hr
  have hmay := hi.blocking.blocked gc hgc hb
  have hside : h.state.pc.side = .saved ∨ h.state.pc.side = .native := by
    cases hpc : h.state.pc
    case checkLock f | checkBlocking f | checkAcknowledge f | checkNotify f | checkBlocked f |
        asleep f | woken f | checkStatus f | checkDone f | checkUnlock f =>
      cases f
      · exact .inl rfl
      · exact .inl rfl
      · exact .inr rfl
    case native | leaveLoad | leaveCas | enterBlockedNotify | enterBlockedUnlock => exact .inr rfl
    all_goals
      rw [hpc] at hmay
      cases hmay
  rcases hside with hsaved | hnative
  · obtain ⟨hregs, hsp, hleft⟩ := hi.saved hsaved
    exact ⟨⟨fun _ => hleft, fun _ => ⟨hregs, hsp⟩⟩, hsp⟩
  · obtain ⟨hregs, hsp, hleft⟩ := hi.native hnative
    refine ⟨⟨fun hf => absurd hf.1 hregs, fun h => ?_⟩, hsp⟩
    cases hleft.symm.trans h

theorem saved_context_iff_yieldpoint : ∃ h : History Unit Unit,
    (History.machine [.flags ()]).checkedExec (fun _ _ => True) .started
      (yieldpointRun.map .blocking) = some h ∧
    h.state.thread.isBlockedFor () = true ∧ h.clock = 2 ∧ h.Fresh := by
  obtain ⟨h, hs, hb, hclock, hleft⟩ : ∃ h : History Unit Unit,
      (History.machine [.flags ()]).checkedExec (fun _ _ => True) .started
        (yieldpointRun.map .blocking) = some h ∧
      h.state.thread.isBlockedFor () = true ∧ h.clock = 2 ∧ h.leftByEnterNative = false :=
    ⟨_, rfl, rfl, rfl, rfl⟩
  have hr : (History.machine [.flags ()]).Reachable h := .checkedExec (.init rfl) hs
  exact ⟨h, hs, hb, hclock, (saved_context_iff (by simp) hr hb).1.mpr hleft⟩

/-- The thread enters native code after an instruction, and is blocked there. -/
def enterNativeRun : List (HistoryLabel Unit Unit) :=
  [.instruction, .blocking (.call .enterNative), .blocking .step, .blocking .step,
    .blocking (.request () (.blockUnchecked (.flags ()) true))] ++
  List.replicate 9 (.blocking (.requesterStep ()))

theorem registers_not_saved : ∃ h : History Unit Unit,
    (History.machine [.flags ()]).exec .started enterNativeRun = some h ∧
    h.state.thread.isBlockedFor () = true ∧ h.clock = 2 ∧ h.registersAt = none ∧ ¬ h.Fresh := by
  refine ⟨_, rfl, rfl, rfl, rfl, fun h => ?_⟩
  cases h.1

end VmkitCore.Blocking
