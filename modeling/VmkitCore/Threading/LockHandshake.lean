import VmkitCore.Sync.MonitorInvariant
import VmkitCore.Threading.BlockingSafety

/-! # Locking a monitor with a handshake

The call waits for the mutex in native code, and then takes it along to managed code or gives
it back. The machine of the monitor runs side by side with the blocking of the caller, whose
own thread monitor may be the one that it locks.
-/

namespace VmkitCore.LockHandshake

/-- Where the caller is in `lock_with_handshake`; its loop goes on from `leave` with `enter`. -/
inductive Stage
  | enter | mutex | attempt | dropGuard | leave | store
  deriving DecidableEq, Repr

structure Config (τ ι : Type*) where
  ids : ThreadIds τ
  caller : τ
  as : List (BlockAdapter ι)
  /-- The monitor is the thread monitor of the caller. -/
  own : Bool

structure State (τ ι : Type*) where
  /-- The cells and the thread monitor of the caller, and the others that block it. -/
  target : Blocking.State ι τ
  monitor : Monitor.State τ
  stage : Option Stage

inductive Label (τ ι : Type*)
  | target (l : Blocking.Label ι τ)
  | monitor (l : Monitor.Label τ)
  /-- The caller goes to sleep in `check_block`, on its own monitor. -/
  | wait
  /-- The next step of the caller in `lock_with_handshake`. -/
  | caller
  deriving DecidableEq, Repr

/-- What `enter_native` and `leave_native` do with the thread monitor. -/
def direct {τ : Type*} : Monitor.Label τ → Bool
  | .start _ .lockNoHandshake | .start _ .drop | .start _ .waitNoHandshake | .step _ | .wake _ =>
    true
  | _ => false

def asleep {ι : Type*} : Blocking.Pc ι → Bool
  | .asleep _ => true
  | _ => false

def inWait : Monitor.Pc → Bool
  | .asleep .. => true
  | _ => false

variable {τ ι : Type*} (cfg : Config τ ι)

/-- The thread that has the thread monitor of the caller. -/
def Config.actor : Blocking.Holder τ → τ
  | .target => cfg.caller
  | .requester r => r

/--
The thread monitor of the caller, if that is the monitor: who has it there has locked the mutex,
and waiting in `check_block` is waiting for this condition variable.
-/
def Agrees (s : State τ ι) : Prop :=
  cfg.own = true → (∀ h ∈ s.target.monitor, s.monitor.mutex = some (cfg.actor h)) ∧
    (asleep s.target.pc = true → inWait (s.monitor.threads cfg.caller).pc = true)

/-- Steps of the caller's cells that may come next; only outside of the call it chooses them. -/
def AllowsTarget (s : State τ ι) : Blocking.Label ι τ → Prop
  | .call _ => s.stage = none
  | .step => True
  | .request r _ | .requesterStep r => r ≠ cfg.caller

variable [DecidableEq τ]

/-- What the caller may do in the monitor at a stage; in the call, it locks only its own. -/
def callerMay : Option Stage → Monitor.Label τ → Bool
  | none, l => l ≠ .start cfg.caller .lockWithHandshake
  | some .enter, l | some .leave, l => cfg.own && direct l
  | some _, _ => false

/-- Steps of the monitor that may come next. -/
def AllowsMonitor (s : State τ ι) (l : Monitor.Label τ) : Prop :=
  l.thread = cfg.caller → callerMay cfg s.stage l = true

instance (s : State τ ι) : Decidable (Agrees cfg s) := inferInstanceAs (Decidable (_ → _ ∧ _))

instance (s : State τ ι) : ∀ l, Decidable (AllowsTarget cfg s l)
  | .call _ => inferInstanceAs (Decidable (_ = _))
  | .step => inferInstanceAs (Decidable True)
  | .request .. | .requesterStep _ => inferInstanceAs (Decidable (_ ≠ _))

instance (s : State τ ι) (l : Monitor.Label τ) : Decidable (AllowsMonitor cfg s l) :=
  inferInstanceAs (Decidable (_ → _ = true))

section Source

variable [DecidableEq ι] (s : State τ ι)

/-- `lock_with_handshake`, at a recursion or with the loop of `lock_with_handshake_no_rec`. -/
def callerStep : Option (State τ ι) :=
  let c := cfg.caller
  match s.stage with
  | none =>
    (Monitor.startOp cfg.ids s.monitor c .lockWithHandshake).bind fun monitor =>
      if s.monitor.holder ≠ cfg.ids.slot c then
        (Blocking.call s.target .enterNative).map fun target => ⟨target, monitor, some .enter⟩
      else some { s with monitor := monitor }
  | some .enter =>
    if s.target.pc = .native then
      (Monitor.startOp cfg.ids s.monitor c .endFrame).map fun monitor =>
        ⟨s.target, monitor, some .mutex⟩
    else none
  | some .mutex =>
    (Monitor.threadStep cfg.ids s.monitor c).bind fun monitor =>
      (Blocking.call s.target .attemptLeaveNativeNoBlock).map fun target =>
        ⟨target, monitor, some .attempt⟩
  | some .attempt =>
    match s.target.pc with
    | .managed => (Monitor.step cfg.ids s.monitor (.attempt c true)).map fun monitor =>
        ⟨s.target, monitor, some .store⟩
    | .native => (Monitor.step cfg.ids s.monitor (.attempt c false)).map fun monitor =>
        ⟨s.target, monitor, some .dropGuard⟩
    | _ => none
  | some .dropGuard =>
    (Monitor.threadStep cfg.ids s.monitor c).bind fun monitor =>
      (Blocking.call s.target .leaveNative).map fun target => ⟨target, monitor, some .leave⟩
  | some .leave =>
    (Blocking.call s.target .enterNative).map fun target => ⟨target, s.monitor, some .enter⟩
  | some .store =>
    -- the count is stored last
    (Monitor.threadStep cfg.ids s.monitor c).map fun monitor =>
      ⟨s.target, monitor, if (s.monitor.threads c).pc = .countGuard then none else some .store⟩

/-- The caller gives its own monitor up in the same step in which it goes to sleep. -/
def waitStep : Option (State τ ι) :=
  (Blocking.targetStep cfg.as s.target).bind fun target =>
    (Monitor.threadStep cfg.ids s.monitor cfg.caller).bind fun monitor =>
      if cfg.own && asleep target.pc && inWait (monitor.threads cfg.caller).pc then
        some ⟨target, monitor, s.stage⟩
      else none

def move : Label τ ι → Option (State τ ι)
  | .target l =>
    if AllowsTarget cfg s l then
      (Blocking.step cfg.as s.target l).map fun target => { s with target := target }
    else none
  | .monitor l =>
    if AllowsMonitor cfg s l then
      (Monitor.step cfg.ids s.monitor l).map fun monitor => { s with monitor := monitor }
    else none
  | .wait => waitStep cfg s
  | .caller => callerStep cfg s

def step (l : Label τ ι) : Option (State τ ι) :=
  (move cfg s l).bind fun s' => if Agrees cfg s' then some s' else none

end Source

/-- The caller in managed code, and a new monitor. -/
def State.new : State τ ι := ⟨.started, .new, none⟩

def machine [DecidableEq ι] (cfg : Config τ ι) : Machine (State τ ι) (Label τ ι) where
  init s := s = State.new
  step := step cfg

/-- What the caller has when the call returns. -/
structure Locked (s : State τ ι) : Prop where
  mutex : s.monitor.mutex = some cfg.caller
  holder : s.monitor.holder = cfg.ids.slot cfg.caller
  recCount : s.monitor.recCount = 1
  managed : s.target.thread.execStatus = .inManaged ∨
    s.target.thread.execStatus = .inManagedToBlock
  notBlocked : ∀ i, .flags i ∈ cfg.as → s.target.thread.isBlockedFor i = false

/-- During the call the caller never sleeps with the mutex, and returns with it. -/
structure Safe [DecidableEq ι] (s : State τ ι) : Prop where
  asleep : s.stage ≠ none → asleep s.target.pc = true → s.monitor.mutex ≠ some cfg.caller
  returns : ∀ s', s.stage ≠ none → step cfg s .caller = some s' → s'.stage = none → Locked cfg s'

/-- No `wait_with_handshake` on the monitor returns, and the actions of unlocked calls are orderly. -/
def Orderly (s : State τ ι) : Label τ ι → Prop
  | .monitor l => Monitor.Orderly s.monitor l
  | _ => True

instance : ∀ (s : State τ ι) (l : Label τ ι), Decidable (Orderly s l)
  | s, .monitor l => inferInstanceAs (Decidable (Monitor.Orderly s.monitor l))
  | _, .target _ | _, .wait | _, .caller => inferInstanceAs (Decidable True)

/-- Between the start of `attempt_leave_native_no_block` and its answer. -/
def attempting : Blocking.Pc ι → Bool
  | .leaveLoad false | .leaveCas false | .managed | .native => true
  | _ => false

variable {cfg} {s s' : State τ ι}

section Monitor

variable {ids : ThreadIds τ} {m m' : Monitor.State τ} {t : τ}

/-- Inside of the methods that are called on the thread monitor. -/
def plain : Monitor.Pc → Bool
  | .idle | .lockMutex | .storeHolder | .countGuard | .dropCount .direct | .dropHolder .direct
  | .dropMutex .direct | .waitSwapCount .direct | .waitSwapHolder .direct _
  | .waitSleep .direct .. | .asleep .direct .. | .waitRelock .direct .. | .waitStoreCount .direct ..
  | .waitStoreHolder .direct _ => true
  | _ => false

/-- These methods return to the frame that they were called in. -/
structure Stays (l l' : Monitor.Local) : Prop where
  frames : l'.frames = l.frames
  plain : plain l'.pc = true

theorem stays_setLocal {m₁ : Monitor.State τ} {l : Monitor.Local}
    (hf : l.frames = (m.threads t).frames) (hp : plain l.pc = true) :
    Stays (m.threads t) ((m₁.setLocal t l).threads t) := by
  constructor
  · simpa [Monitor.State.setLocal] using hf
  · simpa [Monitor.State.setLocal] using hp

theorem stays_goto {m₁ : Monitor.State τ} (hm : m₁.threads = m.threads) {pc : Monitor.Pc}
    (hp : plain pc = true) : Stays (m.threads t) ((m₁.goto t pc).threads t) :=
  stays_setLocal (by rw [hm]) hp

theorem stays_acquire {pc : Monitor.Pc} (hp : plain pc = true) (hs : m.acquire t pc = some m') :
    Stays (m.threads t) (m'.threads t) := by
  obtain ⟨-, rfl⟩ := Monitor.State.acquire_eq_some.mp hs
  exact stays_goto rfl hp

theorem stays_threadStep (hp : plain (m.threads t).pc = true)
    (hs : Monitor.threadStep ids m t = some m') : Stays (m.threads t) (m'.threads t) := by
  unfold Monitor.threadStep at hs
  cases hpc : (m.threads t).pc
  all_goals
    simp only [hpc] at hs hp
    try cases hs
    try cases hp
  case lockMutex => exact stays_acquire rfl hs
  case storeHolder => exact stays_goto rfl rfl
  case countGuard => exact stays_setLocal rfl rfl
  case dropCount c =>
    cases c with
    | direct => exact stays_setLocal rfl (by dsimp only; split <;> rfl)
    | handshake d => cases hp
  case waitRelock c _ _ =>
    cases c with
    | direct => exact stays_acquire rfl hs
    | handshake d => cases hp
  case dropHolder c | dropMutex c | waitSwapCount c | waitSwapHolder c _ | waitSleep c _ _
    | waitStoreCount c _ _ | waitStoreHolder c _ =>
    cases c with
    | direct => exact stays_goto rfl rfl
    | handshake d => cases hp

theorem stays_step {a : Monitor.Label τ} (ha : direct a = true)
    (hp : plain (m.threads a.thread).pc = true) (hs : Monitor.step ids m a = some m') :
    Stays (m.threads a.thread) (m'.threads a.thread) := by
  cases a with
  | start u op =>
    obtain ⟨-, hs⟩ := Option.ite_none_left_eq_some.mp hs
    cases op with
    | lockNoHandshake =>
      cases hs
      exact stays_goto rfl (by split <;> rfl)
    | drop | waitNoHandshake =>
      obtain ⟨-, hs⟩ := Option.ite_none_right_eq_some.mp hs
      cases hs
      exact stays_goto rfl rfl
    | _ => cases ha
  | step u => exact stays_threadStep hp hs
  | attempt u left => cases ha
  | wake u =>
    unfold Monitor.step at hs
    dsimp only at hs
    split at hs
    · next c rec holder hpc =>
      cases hs
      cases c with
      | direct => exact stays_goto rfl rfl
      | handshake d => rw [Monitor.Label.thread, hpc] at hp; cases hp
    · cases hs

theorem inWait_of_setLocal {m : Monitor.State τ} {l : Monitor.Local} :
    inWait ((m.setLocal t l).threads t).pc = inWait l.pc := by
  simp [Monitor.State.setLocal]

theorem inWait_of_acquire {pc : Monitor.Pc} (hs : m.acquire t pc = some m') :
    inWait (m'.threads t).pc = inWait pc := by
  obtain ⟨-, rfl⟩ := Monitor.State.acquire_eq_some.mp hs
  exact inWait_of_setLocal

/-- Only `wait_no_handshake` goes to sleep. -/
theorem waitSleep_of_inWait (hs : Monitor.threadStep ids m t = some m')
    (hw : inWait (m'.threads t).pc = true) :
    ∃ c rec holder, (m.threads t).pc = .waitSleep c rec holder := by
  unfold Monitor.threadStep at hs
  cases hpc : (m.threads t).pc
  all_goals
    simp only [hpc] at hs
    try cases hs
  case waitSleep c rec holder => exact ⟨c, rec, holder, rfl⟩
  case lockMutex | handshakeMutex | waitRelock | relockMutex | waitHandshakeMutex =>
    cases (inWait_of_acquire hs).symm.trans hw
  case waitStoreHolder c holder => cases c <;> cases inWait_of_setLocal.symm.trans hw
  case dropCount c =>
    have hw := inWait_of_setLocal.symm.trans hw
    dsimp only at hw
    split at hw <;> cases hw
  all_goals cases inWait_of_setLocal.symm.trans hw

theorem not_returning (hs : Monitor.threadStep ids m t = some m')
    (hw : inWait (m'.threads t).pc = true) : Monitor.returning m t = none := by
  obtain ⟨c, rec, holder, hpc⟩ := waitSleep_of_inWait hs hw
  rw [Monitor.returning, hpc]

theorem countGuard_spec (hpc : (m.threads t).pc = .countGuard)
    (hs : Monitor.threadStep ids m t = some m') : (m'.threads t).pc = .idle ∧
      (m'.threads t).guards = (m.threads t).guards + 1 := by
  rw [Monitor.threadStep, hpc] at hs
  cases hs
  simp [Monitor.State.setLocal]

theorem endFrame_pc {f : Monitor.Frame} {fs : List Monitor.Frame}
    (hf : (m.threads t).frames = f :: fs)
    (hs : Monitor.startOp ids m t .endFrame = some m') : (m'.threads t).pc = f.resume := by
  obtain ⟨-, hs⟩ := Option.ite_none_left_eq_some.mp hs
  simp only [hf] at hs
  obtain ⟨-, hs⟩ := Option.ite_none_right_eq_some.mp hs
  cases hs
  simp [Monitor.State.setLocal]

end Monitor

/-- What the caller does in the monitor and with its own cells at each stage. -/
def At (own : Bool) (l : Monitor.Local) (pc : Blocking.Pc ι) : Stage → Prop
  -- the frame that the native transitions run in
  | .enter | .leave => (∃ g f fs, l.frames = ⟨.handshakeMutex, g, f⟩ :: fs) ∧
      plain l.pc = true ∧ (own = false → l.pc = .idle ∧ l.guards = 0)
  | .mutex => l.pc = .handshakeMutex ∧ pc = .native
  | .attempt => l.pc = .attemptLeave ∧ attempting pc = true
  | .dropGuard => l.pc = .dropRaw ∧ pc = .native
  | .store => (l.pc = .storeHolder ∨ l.pc = .countGuard) ∧ l.guards = 0 ∧ pc = .managed

structure Inv [DecidableEq ι] (cfg : Config τ ι) (s : State τ ι) : Prop where
  target : Blocking.Inv cfg.as s.target
  monitor : Monitor.Inv cfg.ids s.monitor
  place : ∀ st ∈ s.stage, At cfg.own (s.monitor.threads cfg.caller) s.target.pc st

theorem at_enterReleased {own : Bool} {m : Monitor.State τ} {t : τ} {pc : Blocking.Pc ι}
    {st : Stage} (hst : st = .enter ∨ st = .leave) :
    At own ((m.enterReleased t .handshakeMutex).threads t) pc st := by
  have hl : (m.enterReleased t .handshakeMutex).threads t = ⟨.idle, 0, 0,
      ⟨.handshakeMutex, (m.threads t).guards, (m.threads t).floor⟩ :: (m.threads t).frames⟩ :=
    Function.update_self ..
  rw [hl]
  rcases hst with rfl | rfl <;> exact ⟨⟨_, _, _, rfl⟩, rfl, fun _ => ⟨rfl, rfl⟩⟩

section Place

variable {own : Bool} {l l' : Monitor.Local} {pc : Blocking.Pc ι} {st : Stage}
  {b b' : Blocking.State ι τ} {as : List (BlockAdapter ι)}

theorem At.wake (h : At own l pc st) : At own l pc.wake st := by
  cases st with
  | enter | leave => exact h
  | mutex | dropGuard => exact ⟨h.1, by rw [h.2]; rfl⟩
  | attempt =>
    refine ⟨h.1, ?_⟩
    obtain ⟨-, hpc⟩ := h
    cases pc <;> exact hpc
  | store => exact ⟨h.1, h.2.1, by rw [h.2.2]; rfl⟩

theorem At.stays (h : At own l pc st) (hown : own = true) (hs : Stays l l')
    (hst : st = .enter ∨ st = .leave) : At own l' pc st := by
  rcases hst with rfl | rfl
  all_goals
    obtain ⟨⟨g, f, fs, hf⟩, -, -⟩ := h
    exact ⟨⟨g, f, fs, hs.frames.trans hf⟩, hs.plain,
      fun hno => absurd (hno.symm.trans hown) Bool.false_ne_true⟩

variable [DecidableEq ι]

omit [DecidableEq τ] in
theorem attempting_targetStep (h : attempting b.pc = true)
    (hs : Blocking.targetStep as b = some b') : attempting b'.pc = true := by
  unfold Blocking.targetStep at hs
  cases hpc : b.pc
  all_goals
    simp only [hpc] at hs h
    try cases hs
    try cases h
  case leaveLoad block =>
    cases block with
    | true => cases h
    | false => dsimp only; split <;> rfl
  case leaveCas block =>
    cases block with
    | true => cases h
    | false => split <;> rfl

omit [DecidableEq τ] in
/-- In the call the caller's cells are in one of the two native transitions, or at rest. -/
theorem At.targetStep (h : At own l b.pc st) (hs : Blocking.targetStep as b = some b') :
    At own l b'.pc st := by
  cases st with
  | enter | leave => exact h
  | mutex | dropGuard => rw [Blocking.targetStep, h.2] at hs; cases hs
  | attempt => exact ⟨h.1, attempting_targetStep h.2 hs⟩
  | store => rw [Blocking.targetStep, h.2.2] at hs; cases hs

end Place

namespace Inv

variable [DecidableEq ι]

theorem targetLabel (h : Inv cfg s) {l : Blocking.Label ι τ} (ha : AllowsTarget cfg s l)
    {b : Blocking.State ι τ} (hs : Blocking.step cfg.as s.target l = some b) :
    Inv cfg { s with target := b } := by
  refine ⟨h.target.step hs, h.monitor, fun st hst => ?_⟩
  have hat := h.place st hst
  cases l with
  | call op => cases ha.symm.trans hst
  | step => exact hat.targetStep hs
  | request r op =>
    have hpc : b.pc = s.target.pc := Blocking.request_pc hs
    exact hpc ▸ hat
  | requesterStep r =>
    rcases Blocking.requesterStep_pc hs with hpc | hpc
    · exact hpc ▸ hat
    · exact hpc ▸ hat.wake

theorem monitorLabel (h : Inv cfg s) {l : Monitor.Label τ} (ha : AllowsMonitor cfg s l)
    (hc : Monitor.Orderly s.monitor l) {m : Monitor.State τ}
    (hs : Monitor.step cfg.ids s.monitor l = some m) : Inv cfg { s with monitor := m } := by
  refine ⟨h.target, h.monitor.step hc hs, fun st hst => ?_⟩
  have hat := h.place st hst
  by_cases hl : l.thread = cfg.caller
  · have hallows := ha hl
    rw [show s.stage = some st from hst] at hallows
    cases st with
    | enter | leave =>
      obtain ⟨hown, hdirect⟩ := Bool.and_eq_true_iff.mp hallows
      have hstays := stays_step hdirect (hl ▸ hat.2.1) hs
      rw [hl] at hstays
      exact hat.stays hown hstays (by simp)
    | mutex | attempt | dropGuard | store => cases hallows
  · rw [Monitor.step_threads_of_ne hl hs]
    exact hat

theorem waitStep (h : Inv cfg s) (hs : waitStep cfg s = some s') : Inv cfg s' := by
  obtain ⟨b, hb, hs⟩ := Option.bind_eq_some_iff.mp hs
  obtain ⟨m, hm, hs⟩ := Option.bind_eq_some_iff.mp hs
  obtain ⟨hcond, hs⟩ := Option.ite_none_right_eq_some.mp hs
  cases hs
  rw [Bool.and_eq_true, Bool.and_eq_true] at hcond
  obtain ⟨⟨hown, -⟩, hw⟩ := hcond
  refine ⟨h.target.step (l := .step) hb, h.monitor.threadStep (not_returning hm hw) hm,
    fun st hst => ?_⟩
  have hat := (h.place st hst).targetStep hb
  cases st with
  | enter | leave => exact hat.stays hown (stays_threadStep hat.2.1 hm) (by simp)
  | mutex | attempt | dropGuard =>
    obtain ⟨c, rec, holder, hpc⟩ := waitSleep_of_inWait hm hw
    cases hpc.symm.trans hat.1
  | store =>
    obtain ⟨c, rec, holder, hpc⟩ := waitSleep_of_inWait hm hw
    rcases hat.1 with hat | hat <;> cases hpc.symm.trans hat

/-- The start of the call; the frame of the first `enter_native` returns to the mutex. -/
theorem start (h : Inv cfg s) (hst : s.stage = none) (hs : callerStep cfg s = some s') :
    Inv cfg s' := by
  simp only [LockHandshake.callerStep, hst] at hs
  obtain ⟨m, hm, hs⟩ := Option.bind_eq_some_iff.mp hs
  have hop : Monitor.Op.Orderly .lockWithHandshake := trivial
  have hinv := h.monitor.start hop hm
  by_cases hh : s.monitor.holder = cfg.ids.slot cfg.caller
  · rw [if_neg (not_not.mpr hh)] at hs
    cases hs
    exact ⟨h.target, hinv, fun _ hst' => by cases hst'⟩
  · rw [if_pos hh] at hs
    obtain ⟨b, hb, rfl⟩ := Option.map_eq_some_iff.mp hs
    refine ⟨h.target.step (l := .call .enterNative) hb, hinv, ?_⟩
    rintro st ⟨⟩
    obtain ⟨-, hm⟩ := Option.ite_none_left_eq_some.mp hm
    cases hm
    rw [if_pos hh]
    exact at_enterReleased (.inl rfl)

/-- The slow exit of the frame has been made, and the mutex is to be taken. -/
theorem enter (h : Inv cfg s) (hst : s.stage = some .enter) (hs : callerStep cfg s = some s') :
    Inv cfg s' := by
  simp only [LockHandshake.callerStep, hst] at hs
  obtain ⟨hpc, hs⟩ := Option.ite_none_right_eq_some.mp hs
  obtain ⟨m, hm, rfl⟩ := Option.map_eq_some_iff.mp hs
  obtain ⟨⟨g, f, fs, hf⟩, -⟩ := h.place .enter hst
  have hop : Monitor.Op.Orderly .endFrame := trivial
  refine ⟨h.target, h.monitor.start hop hm, ?_⟩
  rintro st ⟨⟩
  exact ⟨endFrame_pc hf hm, hpc⟩

theorem mutex (h : Inv cfg s) (hst : s.stage = some .mutex) (hs : callerStep cfg s = some s') :
    Inv cfg s' := by
  simp only [LockHandshake.callerStep, hst] at hs
  obtain ⟨hpc, hnative⟩ := h.place .mutex hst
  obtain ⟨m, hm, hs⟩ := Option.bind_eq_some_iff.mp hs
  obtain ⟨b, hb, rfl⟩ := Option.map_eq_some_iff.mp hs
  have hret : Monitor.returning s.monitor cfg.caller = none := by
    rw [Monitor.returning, hpc]
  have hb' : b.pc = .leaveLoad false := by
    simp only [Blocking.call, hnative] at hb
    cases hb
    rfl
  refine ⟨h.target.step (l := .call .attemptLeaveNativeNoBlock) hb,
    h.monitor.threadStep hret hm, ?_⟩
  rintro st ⟨⟩
  rw [Monitor.threadStep, hpc] at hm
  exact ⟨by rw [Monitor.acquire_threads hm], by rw [hb']; rfl⟩

/-- The attempt goes on to the stores of the lock, or to the drop of the guard. -/
theorem attempt (h : Inv cfg s) (hst : s.stage = some .attempt)
    (hs : callerStep cfg s = some s') : Inv cfg s' := by
  simp only [LockHandshake.callerStep, hst] at hs
  obtain ⟨hat, -⟩ := h.place .attempt hst
  have hguards : (s.monitor.threads cfg.caller).guards = 0 := by
    have hok := (h.monitor.locals cfg.caller).pc
    rwa [hat] at hok
  cases hpc : s.target.pc <;> simp only [hpc] at hs
  case managed =>
    obtain ⟨m, hm, rfl⟩ := Option.map_eq_some_iff.mp hs
    refine ⟨h.target, h.monitor.step (a := .attempt _ true) trivial hm, ?_⟩
    rintro st ⟨⟩
    simp only [Monitor.step, hat] at hm
    cases hm
    simp only [Monitor.goto_threads]
    exact ⟨.inl rfl, hguards, hpc⟩
  case native =>
    obtain ⟨m, hm, rfl⟩ := Option.map_eq_some_iff.mp hs
    refine ⟨h.target, h.monitor.step (a := .attempt _ false) trivial hm, ?_⟩
    rintro st ⟨⟩
    simp only [Monitor.step, hat] at hm
    cases hm
    simp only [Monitor.goto_threads]
    exact ⟨rfl, hpc⟩
  all_goals cases hs

theorem dropGuard (h : Inv cfg s) (hst : s.stage = some .dropGuard)
    (hs : callerStep cfg s = some s') : Inv cfg s' := by
  simp only [LockHandshake.callerStep, hst] at hs
  obtain ⟨hpc, -⟩ := h.place .dropGuard hst
  obtain ⟨m, hm, hs⟩ := Option.bind_eq_some_iff.mp hs
  obtain ⟨b, hb, rfl⟩ := Option.map_eq_some_iff.mp hs
  have hret : Monitor.returning s.monitor cfg.caller = none := by
    rw [Monitor.returning, hpc]
  refine ⟨h.target.step (l := .call .leaveNative) hb, h.monitor.threadStep hret hm, ?_⟩
  rintro st ⟨⟩
  simp only [Monitor.threadStep, hpc] at hm
  cases hm
  exact at_enterReleased (.inr rfl)

theorem leave (h : Inv cfg s) (hst : s.stage = some .leave) (hs : callerStep cfg s = some s') :
    Inv cfg s' := by
  simp only [LockHandshake.callerStep, hst] at hs
  have hat := h.place .leave hst
  obtain ⟨b, hb, rfl⟩ := Option.map_eq_some_iff.mp hs
  exact ⟨h.target.step (l := .call .enterNative) hb, h.monitor, by rintro st ⟨⟩; exact hat⟩

/-- The store of the holder leads to the one of the count, which is the last step. -/
theorem store (h : Inv cfg s) (hst : s.stage = some .store) (hs : callerStep cfg s = some s') :
    Inv cfg s' := by
  simp only [LockHandshake.callerStep, hst] at hs
  obtain ⟨hpc, hrest⟩ := h.place .store hst
  obtain ⟨m, hm, rfl⟩ := Option.map_eq_some_iff.mp hs
  have hret : Monitor.returning s.monitor cfg.caller = none := by
    rcases hpc with hpc | hpc <;> rw [Monitor.returning, hpc]
  refine ⟨h.target, h.monitor.threadStep hret hm, ?_⟩
  rcases hpc with hpc | hpc
  · rw [hpc]
    rintro st ⟨⟩
    simp only [Monitor.threadStep, hpc] at hm
    cases hm
    rw [Monitor.goto_threads]
    exact ⟨.inr rfl, hrest⟩
  · rw [hpc]
    rintro st ⟨⟩

theorem callerStep (h : Inv cfg s) (hs : callerStep cfg s = some s') : Inv cfg s' := by
  cases hst : s.stage with
  | none => exact h.start hst hs
  | some st =>
    cases st with
    | enter => exact h.enter hst hs
    | mutex => exact h.mutex hst hs
    | attempt => exact h.attempt hst hs
    | dropGuard => exact h.dropGuard hst hs
    | leave => exact h.leave hst hs
    | store => exact h.store hst hs

omit [DecidableEq τ] in
theorem new : Inv cfg (State.new : State τ ι) where
  target := Blocking.Inv.started cfg.as
  monitor := Monitor.Inv.new cfg.ids
  place _ h := nomatch h

theorem step (h : Inv cfg s) {l : Label τ ι} (hc : Orderly s l)
    (hs : LockHandshake.step cfg s l = some s') : Inv cfg s' := by
  obtain ⟨s₁, hm, hs⟩ := Option.bind_eq_some_iff.mp hs
  obtain ⟨-, hs⟩ := Option.ite_none_right_eq_some.mp hs
  cases hs
  cases l with
  | target l =>
    obtain ⟨ha, hm⟩ := Option.ite_none_right_eq_some.mp hm
    obtain ⟨b, hb, rfl⟩ := Option.map_eq_some_iff.mp hm
    exact h.targetLabel ha hb
  | monitor l =>
    obtain ⟨ha, hm⟩ := Option.ite_none_right_eq_some.mp hm
    obtain ⟨m, hl, rfl⟩ := Option.map_eq_some_iff.mp hm
    exact h.monitorLabel ha hc hl
  | wait => exact h.waitStep hm
  | caller => exact h.callerStep hm

omit [DecidableEq τ] in
/-- In the call, the caller has the mutex only between locking it and giving it back. -/
theorem not_mutex (h : Inv cfg s) (ha : Agrees cfg s) (hst : s.stage ≠ none)
    (hsleep : asleep s.target.pc = true) : s.monitor.mutex ≠ some cfg.caller := by
  obtain ⟨st, hst⟩ := Option.ne_none_iff_exists'.mp hst
  have hat := h.place st hst
  rw [ne_eq, h.monitor.mutex, Monitor.Local.Owns]
  cases st with
  | enter | leave =>
    cases hown : cfg.own with
    | false =>
      obtain ⟨hpc, hg⟩ := hat.2.2 hown
      rw [hpc, hg]
      exact Nat.lt_irrefl 0
    | true =>
      have hw := (ha hown).2 hsleep
      cases hpc : (s.monitor.threads cfg.caller).pc <;> rw [hpc] at hw
      case asleep => exact not_false
      all_goals cases hw
  | mutex | dropGuard => rw [hat.2] at hsleep; cases hsleep
  | attempt =>
    have hatt := hat.2
    cases hpc : s.target.pc <;> rw [hpc] at hsleep hatt
    case asleep => cases hatt
    all_goals cases hsleep
  | store => rw [hat.2.2] at hsleep; cases hsleep

/-- The call returns with storing the count. -/
theorem returns (hst : s.stage ≠ none) (hs : LockHandshake.callerStep cfg s = some s')
    (hst' : s'.stage = none) : s.stage = some .store ∧
      (s.monitor.threads cfg.caller).pc = .countGuard := by
  obtain ⟨st, hst⟩ := Option.ne_none_iff_exists'.mp hst
  simp only [LockHandshake.callerStep, hst] at hs
  cases st with
  | enter =>
    obtain ⟨-, hs⟩ := Option.ite_none_right_eq_some.mp hs
    obtain ⟨m, -, rfl⟩ := Option.map_eq_some_iff.mp hs
    cases hst'
  | mutex | dropGuard =>
    obtain ⟨m, -, hs⟩ := Option.bind_eq_some_iff.mp hs
    obtain ⟨b, -, rfl⟩ := Option.map_eq_some_iff.mp hs
    cases hst'
  | attempt =>
    cases hpc : s.target.pc <;> simp only [hpc] at hs
    case managed | native =>
      obtain ⟨m, -, rfl⟩ := Option.map_eq_some_iff.mp hs
      cases hst'
    all_goals cases hs
  | leave =>
    obtain ⟨b, -, rfl⟩ := Option.map_eq_some_iff.mp hs
    cases hst'
  | store =>
    obtain ⟨m, -, rfl⟩ := Option.map_eq_some_iff.mp hs
    dsimp only at hst'
    split at hst'
    · next hpc => exact ⟨hst, hpc⟩
    · cases hst'

theorem locked (h : Inv cfg s) (hst : s.stage ≠ none)
    (hs : LockHandshake.callerStep cfg s = some s') (hst' : s'.stage = none) : Locked cfg s' := by
  have h' := h.callerStep hs
  obtain ⟨hstore, hpc⟩ := returns hst hs hst'
  obtain ⟨-, hguards, hmanaged⟩ := h.place _ hstore
  simp only [LockHandshake.callerStep, hstore] at hs
  obtain ⟨m, hm, rfl⟩ := Option.map_eq_some_iff.mp hs
  obtain ⟨hidle, hone⟩ := countGuard_spec hpc hm
  rw [hguards] at hone
  -- the caller is outside of the monitor's methods again, with its one guard
  have hmutex : m.mutex = some cfg.caller :=
    (h'.monitor.mutex cfg.caller).mpr (by rw [Monitor.Local.Owns, hidle, hone]; exact Nat.one_pos)
  have hholder := h'.monitor.holder cfg.caller hmutex
  have hcount := h'.monitor.recCount cfg.caller hmutex
  have hstatus := h.target.status
  have hblocked := h.target.blocked
  dsimp only at hholder hcount
  rw [hidle] at hholder hcount
  rw [hone] at hcount
  rw [hmanaged] at hstatus hblocked
  refine ⟨hmutex, hholder, hcount, by simpa [Blocking.Pc.allows] using hstatus, fun i hi => ?_⟩
  exact Bool.eq_false_iff.mpr fun hb => Bool.false_ne_true (hblocked i hi hb)

end Inv

theorem agrees_of_step [DecidableEq ι] {l : Label τ ι} (hs : step cfg s l = some s') :
    Agrees cfg s' := by
  obtain ⟨s₁, -, hs⟩ := Option.bind_eq_some_iff.mp hs
  obtain ⟨ha, hs⟩ := Option.ite_none_right_eq_some.mp hs
  cases hs
  exact ha

theorem inv_of_reachable [DecidableEq ι] (h : (machine cfg).ReachableUnder Orderly s) :
    Inv cfg s ∧ Agrees cfg s := by
  refine h.invariant (I := fun s => Inv cfg s ∧ Agrees cfg s) ?_ ?_
  · rintro s rfl
    exact ⟨.new, fun _ => ⟨nofun, nofun⟩⟩
  · intro s l s' hi hc hs
    exact ⟨hi.1.step hc hs, agrees_of_step hs⟩

/--
In every run in which no `wait_with_handshake` on the monitor has returned, and in which the actions
of unlocked calls return and keep to their own guards, the call does not sleep with the mutex, and
returns with it, in managed code and not blocked.
-/
theorem lock_with_handshake_safe [DecidableEq ι]
    (h : (machine cfg).ReachableUnder Orderly s) : Safe cfg s := by
  obtain ⟨hinv, ha⟩ := inv_of_reachable h
  refine ⟨hinv.not_mutex ha, fun s' hst hs hst' => ?_⟩
  obtain ⟨s₁, hm, hs⟩ := Option.bind_eq_some_iff.mp hs
  obtain ⟨-, hs⟩ := Option.ite_none_right_eq_some.mp hs
  cases hs
  exact hinv.locked hst hm hst'

/-- Two threads, one of which locks with a handshake. -/
def pairConfig (own : Bool) : Config Bool Unit := ⟨.pair, true, [.flags ()], own⟩

def lockRun (t : Bool) : List (Label Bool Unit) :=
  .monitor (.start t .lockNoHandshake) :: List.replicate 3 (.monitor (.step t))

def dropRun (t : Bool) : List (Label Bool Unit) :=
  .monitor (.start t .drop) :: List.replicate 3 (.monitor (.step t))

/-- From `enter_native` up to the mutex. -/
def enterRun : List (Label Bool Unit) := [.target .step, .target .step, .caller]

/-- The other thread locks the thread monitor of the caller for a call that it makes there. -/
def requestRun (op : Blocking.RequesterOp Unit) (n : ℕ) : List (Label Bool Unit) :=
  List.flatten [lockRun false, [.target (.request false op)],
    List.replicate n (.target (.requesterStep false)), dropRun false]

/-- While the caller is in native code it is blocked, and while it sleeps it is unblocked. -/
def blockedRun : List (Label Bool Unit) :=
  List.flatten [[.caller], enterRun, requestRun (.blockUnchecked (.flags ()) true) 10,
    [.caller, .target .step, .caller, .caller, .target .step], lockRun true,
    List.replicate 3 (.target .step),
    [.monitor (.start true .waitNoHandshake), .monitor (.step true), .monitor (.step true), .wait],
    requestRun (.unblock (.flags ())) 5,
    [.monitor (.wake true), .monitor (.step true), .monitor (.step true), .monitor (.step true)],
    List.replicate 6 (.target .step), dropRun true, [.caller], enterRun,
    [.caller, .target .step, .target .step, .caller, .caller]]

theorem lock_with_handshake_safe_blocked : ∃ s s',
    (machine (pairConfig true)).checkedExec Orderly State.new blockedRun = some s ∧
    step (pairConfig true) s .caller = some s' ∧ Locked (pairConfig true) s' := by
  have hrun : ((machine (pairConfig true)).checkedExec Orderly State.new blockedRun).bind
      (fun s => (step (pairConfig true) s .caller).map fun s' => (s.stage, s'.stage)) =
      some (some .store, none) := by decide +kernel
  obtain ⟨s, hs, hrun⟩ := Option.bind_eq_some_iff.mp hrun
  obtain ⟨s', hs', hst⟩ := Option.map_eq_some_iff.mp hrun
  obtain ⟨hst, hst'⟩ := Prod.mk.inj hst
  have hsafe := lock_with_handshake_safe (.checkedExec (.init rfl) hs)
  exact ⟨s, s', hs, hs', hsafe.returns s' (by rw [hst]; exact nofun) hs' hst'⟩

/-- The other thread returns from `wait_with_handshake`, and waits again during the call. -/
def staleRun : List (Label Bool Unit) :=
  List.flatten [lockRun false,
    [.monitor (.start false .waitWithHandshake), .monitor (.start false .endFrame)],
    List.replicate 3 (.monitor (.step false)), [.monitor (.wake false)],
    List.replicate 7 (.monitor (.step false)),
    [.monitor (.start false .endFrame), .monitor (.step false), .monitor (.attempt false true)],
    List.replicate 5 (.monitor (.step false)), [.caller], enterRun,
    [.caller, .target .step, .target .step, .caller, .monitor (.start false .waitNoHandshake)],
    List.replicate 3 (.monitor (.step false)), [.caller]]

/-- A guard that outlived its lock gives up the mutex of the caller. -/
theorem lock_with_handshake_robbed :
    ¬ ∀ s : State Bool Unit, (machine (pairConfig false)).Reachable s →
      Safe (pairConfig false) s := by
  intro h
  have hrun : ((machine (pairConfig false)).checkedExec (fun _ _ => True) State.new staleRun).bind
      (fun s => (step (pairConfig false) s .caller).map fun s' =>
        (s.stage, s'.stage, s'.monitor.mutex)) = some (some .store, none, none) := by
    decide +kernel
  obtain ⟨s, hs, hrun⟩ := Option.bind_eq_some_iff.mp hrun
  obtain ⟨s', hs', hst⟩ := Option.map_eq_some_iff.mp hrun
  obtain ⟨hst, hst'⟩ := Prod.mk.inj hst
  obtain ⟨hst', hm⟩ := Prod.mk.inj hst'
  have hlocked := (h s (.checkedExec (.init rfl) hs)).returns s' (by rw [hst]; exact nofun) hs' hst'
  cases hm.symm.trans hlocked.mutex

end VmkitCore.LockHandshake
