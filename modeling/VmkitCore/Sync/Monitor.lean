import Mathlib.Algebra.GroupWithZero.Nat
import VmkitCore.Lib.Machine

/-! # The reentrant monitor

A monitor is a mutex, the id of the holding thread and a recursion count. Each
method is split into its single reads and writes of these cells, so that the
steps of different threads may interleave between any two of them. A guard only
refers to the mutex, so a thread counts its live guards.
-/

namespace VmkitCore

/-- Thread ids: never zero, which means that nobody holds, and distinct. -/
structure ThreadIds (τ : Type*) where
  slot : τ → ℕ
  slot_ne_zero : ∀ t, slot t ≠ 0
  slot_injective : Function.Injective slot

/-- The ids of two threads. -/
def ThreadIds.pair : ThreadIds Bool where
  slot b := if b then 2 else 1
  slot_ne_zero := by decide
  slot_injective := by unfold Function.Injective; decide

namespace Monitor

/-- Who runs `wait_no_handshake`, `unlock_completely` or a guard's destructor. -/
inductive Caller
  | direct
  /-- Inside `wait_with_handshake`, called with this many live guards. -/
  | handshake (depth : ℕ)
  deriving DecidableEq, Repr

/-- The next step of a thread; a saved count or holder travels with it. -/
inductive Pc
  | idle
  -- `lock_no_handshake`, and the tail of `lock_with_handshake`
  | lockMutex | storeHolder | countGuard
  -- `lock_with_handshake_no_rec`
  | handshakeMutex | attemptLeave | dropRaw
  -- `Drop for MonitorGuard`
  | dropCount (c : Caller) | dropHolder (c : Caller) | dropMutex (c : Caller)
  -- `wait_no_handshake`
  | waitSwapCount (c : Caller) | waitSwapHolder (c : Caller) (rec : ℕ)
  | waitSleep (c : Caller) (rec holder : ℕ) | asleep (c : Caller) (rec holder : ℕ)
  | waitRelock (c : Caller) (rec holder : ℕ) | waitStoreCount (c : Caller) (rec holder : ℕ)
  | waitStoreHolder (c : Caller) (holder : ℕ)
  -- `unlock_completely`
  | unlockLoad (c : Caller) | unlockStoreCount (c : Caller) (rec : ℕ)
  | unlockHolder (c : Caller) (rec : ℕ) | unlockMutex (c : Caller) (rec : ℕ)
  -- the end of `unlocked_no_handshake`
  | relockMutex (rec : ℕ) | relockCount (rec : ℕ) | relockHolder (rec : ℕ)
  -- `relock_with_handshake`
  | waitHandshakeMutex (depth rec : ℕ) | waitHandshakeAttempt (depth rec : ℕ)
  | waitHandshakeDropRaw (depth rec : ℕ) | waitHandshakeHolder (depth rec : ℕ)
  | waitHandshakeCount (depth rec : ℕ)
  deriving DecidableEq, Repr

/-- A call that user or thread-system code runs inside of, and where it resumes. -/
structure Frame where
  resume : Pc
  guards : ℕ
  floor : ℕ
  deriving DecidableEq, Repr

/--
One thread: its next step, its live guards, how many of them belong to callers of the current
frame and may not be dropped in it, and the frames around the current one.
-/
structure Local where
  pc : Pc
  guards : ℕ
  floor : ℕ
  frames : List Frame
  deriving DecidableEq, Repr

/-- The frame runs an action of `unlocked_no_handshake`. -/
def Frame.isAction (f : Frame) : Bool :=
  match f.resume with
  | .relockMutex _ => true
  | _ => false

/-- The `n`-th caller outwards, if there are only actions in between: these may use its guards. -/
def Local.outer (l : Local) (n : ℕ) : Option Frame :=
  if (l.frames.take (n + 1)).all Frame.isAction then l.frames[n]? else none

structure State (τ : Type*) where
  /-- The thread that locked the mutex last, while it is locked. -/
  mutex : Option τ
  holder : ℕ
  recCount : ℕ
  threads : τ → Local

inductive Op
  | lockNoHandshake | lockWithHandshake | drop | waitNoHandshake | unlockedNoHandshake
  | waitWithHandshake
  /-- The action, or the native transition, that the innermost frame runs returns. -/
  | endFrame
  /-- The action that the innermost frame runs unwinds; the guards that it has are dropped before. -/
  | unwind
  /-- The action uses a guard of the `n`-th caller outwards, which becomes one of its guards. -/
  | capture (n : ℕ)
  /-- A guard of the action is left to the `n`-th caller outwards. -/
  | giveBack (n : ℕ)
  deriving DecidableEq, Repr

inductive Label (τ : Type*)
  | start (t : τ) (op : Op)
  | step (t : τ)
  /-- The answer of `attempt_leave_native_no_block`. -/
  | attempt (t : τ) (left : Bool)
  /-- A notification reaches a sleeping thread. -/
  | wake (t : τ)
  deriving DecidableEq, Repr

/-- The thread that takes the step. -/
def Label.thread {τ : Type*} : Label τ → τ
  | .start t _ | .step t | .attempt t _ | .wake t => t

/-- `fetch_sub(1)` on a `usize`. -/
def fetchSub (n : ℕ) : ℕ := if n = 0 then 2 ^ 64 - 1 else n - 1

variable {τ : Type*} [DecidableEq τ]

def State.setLocal (s : State τ) (t : τ) (l : Local) : State τ :=
  { s with threads := Function.update s.threads t l }

def State.goto (s : State τ) (t : τ) (pc : Pc) : State τ :=
  s.setLocal t { s.threads t with pc := pc }

/-- Lock the mutex, which blocks until it is free. -/
def State.acquire (s : State τ) (t : τ) (pc : Pc) : Option (State τ) :=
  if s.mutex = none then some ({ s with mutex := some t }.goto t pc) else none

/-- Run code in a frame that does not hold the monitor. -/
def State.enterReleased (s : State τ) (t : τ) (resume : Pc) : State τ :=
  let l := s.threads t
  s.setLocal t ⟨.idle, 0, 0, ⟨resume, l.guards, l.floor⟩ :: l.frames⟩

/-- Run code in a frame that still holds the monitor. -/
def State.enterHolding (s : State τ) (t : τ) (resume : Pc) : State τ :=
  let l := s.threads t
  s.setLocal t ⟨.idle, l.guards, l.guards, ⟨resume, l.guards, l.floor⟩ :: l.frames⟩

def startOp (ids : ThreadIds τ) (s : State τ) (t : τ) (op : Op) : Option (State τ) :=
  let l := s.threads t
  if l.pc ≠ .idle then none else
  match op with
  | .lockNoHandshake => some (s.goto t (if s.holder ≠ ids.slot t then .lockMutex else .countGuard))
  | .lockWithHandshake =>
    -- `enter_native` may itself use this monitor, if it is the monitor of the thread
    some (if s.holder ≠ ids.slot t then s.enterReleased t .handshakeMutex
      else s.goto t .countGuard)
  | .drop => if l.floor < l.guards then some (s.goto t (.dropCount .direct)) else none
  | .waitNoHandshake =>
    if l.floor < l.guards then some (s.goto t (.waitSwapCount .direct)) else none
  | .unlockedNoHandshake =>
    if l.floor < l.guards then some (s.goto t (.unlockLoad .direct)) else none
  | .waitWithHandshake =>
    -- `parked_scope` enters native with the monitor still held
    if l.floor < l.guards then
      some (s.enterHolding t (.waitSwapCount (.handshake l.guards)))
    else none
  | .endFrame =>
    match l.frames with
    | [] => none
    | f :: fs => if l.guards = l.floor then some (s.setLocal t ⟨f.resume, f.guards, f.floor, fs⟩)
      else none
  | .unwind =>
    match l.frames with
    | ⟨.relockMutex _, guards, floor⟩ :: frames =>
      -- `unlocked_no_handshake` does not lock again, and its guard is still there
      if l.guards = l.floor then some (s.setLocal t ⟨.idle, guards, floor, frames⟩) else none
    | _ => none
  | .capture n =>
    match l.outer n with
    -- the call that runs the action has borrowed one of the guards
    | some f => if f.floor + 1 < f.guards then
        some (s.setLocal t { l with
          guards := l.guards + 1, frames := l.frames.set n { f with guards := f.guards - 1 } })
      else none
    | none => none
  | .giveBack n =>
    match l.outer n with
    | some f => if l.floor < l.guards then
        some (s.setLocal t { l with
          guards := l.guards - 1, frames := l.frames.set n { f with guards := f.guards + 1 } })
      else none
    | none => none

/-- The reads and writes of a thread inside a method. -/
def threadStep (ids : ThreadIds τ) (s : State τ) (t : τ) : Option (State τ) :=
  let l := s.threads t
  match l.pc with
  | .idle | .attemptLeave | .waitHandshakeAttempt .. | .asleep .. => none
  | .lockMutex => s.acquire t .storeHolder
  | .storeHolder => some ({ s with holder := ids.slot t }.goto t .countGuard)
  | .countGuard =>
    some ({ s with recCount := s.recCount + 1 }.setLocal t
      { l with pc := .idle, guards := l.guards + 1 })
  | .handshakeMutex => s.acquire t .attemptLeave
  | .dropRaw => some ({ s with mutex := none }.enterReleased t .handshakeMutex)
  | .dropCount c =>
    some ({ s with recCount := fetchSub s.recCount }.setLocal t
      { l with pc := if s.recCount = 1 then .dropHolder c else .idle, guards := l.guards - 1 })
  | .dropHolder c => some ({ s with holder := 0 }.goto t (.dropMutex c))
  | .dropMutex _ => some ({ s with mutex := none }.goto t .idle)
  | .waitSwapCount c =>
    some ({ s with recCount := 0 }.goto t (.waitSwapHolder c s.recCount))
  | .waitSwapHolder c rec => some ({ s with holder := 0 }.goto t (.waitSleep c rec s.holder))
  | .waitSleep c rec holder => some ({ s with mutex := none }.goto t (.asleep c rec holder))
  | .waitRelock c rec holder => s.acquire t (.waitStoreCount c rec holder)
  | .waitStoreCount c rec holder =>
    some ({ s with recCount := rec }.goto t (.waitStoreHolder c holder))
  | .waitStoreHolder c holder =>
    some ({ s with holder := holder }.goto t
      (match c with | .direct => .idle | .handshake _ => .unlockLoad c))
  | .unlockLoad c => some (s.goto t (.unlockStoreCount c s.recCount))
  | .unlockStoreCount c rec => some ({ s with recCount := 0 }.goto t (.unlockHolder c rec))
  | .unlockHolder c rec => some ({ s with holder := 0 }.goto t (.unlockMutex c rec))
  | .unlockMutex c rec =>
    some ({ s with mutex := none }.enterReleased t
      (match c with | .direct => .relockMutex rec | .handshake d => .waitHandshakeMutex d rec))
  | .relockMutex rec => s.acquire t (.relockCount rec)
  | .relockCount rec => some ({ s with recCount := rec }.goto t (.relockHolder rec))
  | .relockHolder _ => some ({ s with holder := ids.slot t }.goto t .idle)
  | .waitHandshakeMutex d rec => s.acquire t (.waitHandshakeAttempt d rec)
  | .waitHandshakeDropRaw d rec =>
    some ({ s with mutex := none }.enterReleased t (.waitHandshakeMutex d rec))
  | .waitHandshakeHolder d rec =>
    some ({ s with holder := ids.slot t }.goto t (.waitHandshakeCount d rec))
  | .waitHandshakeCount d rec =>
    -- the new guard is made here, and the consumed one is dropped when the call returns
    some ({ s with recCount := rec }.setLocal t
      { l with pc := .dropCount (.handshake d), guards := l.guards + 1 })

def step (ids : ThreadIds τ) (s : State τ) : Label τ → Option (State τ)
  | .start t op => startOp ids s t op
  | .step t => threadStep ids s t
  | .attempt t left =>
    match (s.threads t).pc with
    | .attemptLeave => some (s.goto t (if left then .storeHolder else .dropRaw))
    | .waitHandshakeAttempt d rec =>
      some (s.goto t (if left then .waitHandshakeHolder d rec else .waitHandshakeDropRaw d rec))
    | _ => none
  | .wake t =>
    match (s.threads t).pc with
    | .asleep c rec holder => some (s.goto t (.waitRelock c rec holder))
    | _ => none

/-- A new monitor: unlocked, with every thread outside of it. -/
def State.new : State τ := ⟨none, 0, 0, fun _ => ⟨.idle, 0, 0, []⟩⟩

/-- A monitor used by any number of threads. -/
def machine (ids : ThreadIds τ) : Machine (State τ) (Label τ) where
  init s := s = State.new
  step := step ids

section Frame

variable {ids : ThreadIds τ} {m m' : State τ} {t : τ}

theorem State.acquire_eq_some {pc : Pc} : m.acquire t pc = some m' ↔
    m.mutex = none ∧ m' = { m with mutex := some t }.goto t pc := by
  rw [State.acquire, Option.ite_none_right_eq_some, Option.some.injEq, eq_comm (b := m')]

theorem acquire_mutex {pc : Pc} (hs : m.acquire t pc = some m') : m'.mutex = some t := by
  obtain ⟨-, rfl⟩ := State.acquire_eq_some.mp hs
  rfl

/-- The start of a method, and the end of a frame, only concern the thread. -/
theorem startOp_eq_some {op : Op} (hs : startOp ids m t op = some m') :
    ∃ l, m' = m.setLocal t l := by
  obtain ⟨-, hs⟩ := Option.ite_none_left_eq_some.mp hs
  cases op with
  | lockNoHandshake => cases hs; exact ⟨_, rfl⟩
  | lockWithHandshake => cases hs; split <;> exact ⟨_, rfl⟩
  | drop | waitNoHandshake | unlockedNoHandshake | waitWithHandshake =>
    obtain ⟨-, hs⟩ := Option.ite_none_right_eq_some.mp hs
    cases hs
    exact ⟨_, rfl⟩
  | endFrame | unwind | capture | giveBack =>
    dsimp only at hs
    split at hs
    all_goals
      try cases hs
      try
        obtain ⟨-, hs⟩ := Option.ite_none_right_eq_some.mp hs
        cases hs
        exact ⟨_, rfl⟩

theorem startOp_mutex {op : Op} (hs : startOp ids m t op = some m') : m'.mutex = m.mutex := by
  obtain ⟨l, rfl⟩ := startOp_eq_some hs
  rfl

theorem goto_threads {pc : Pc} :
    (m.goto t pc).threads t = { m.threads t with pc := pc } := Function.update_self ..

theorem acquire_threads {pc : Pc} (hs : m.acquire t pc = some m') :
    m'.threads t = { m.threads t with pc := pc } := by
  obtain ⟨-, rfl⟩ := State.acquire_eq_some.mp hs
  exact Function.update_self ..

theorem setLocal_threads_of_ne {u : τ} {l : Local} (hu : u ≠ t) :
    (m.setLocal u l).threads t = m.threads t :=
  Function.update_of_ne hu.symm _ _

theorem acquire_threads_of_ne {u : τ} {pc : Pc} (hu : u ≠ t)
    (hs : m.acquire u pc = some m') : m'.threads t = m.threads t := by
  obtain ⟨-, rfl⟩ := State.acquire_eq_some.mp hs
  exact setLocal_threads_of_ne hu

theorem threadStep_threads_of_ne {u : τ} (hu : u ≠ t)
    (hs : threadStep ids m u = some m') : m'.threads t = m.threads t := by
  unfold threadStep at hs
  cases hpc : (m.threads u).pc
  all_goals
    simp only [hpc] at hs
    try cases hs
  case lockMutex | handshakeMutex | waitRelock | relockMutex | waitHandshakeMutex =>
    exact acquire_threads_of_ne hu hs
  all_goals exact setLocal_threads_of_ne hu

/-- A step of the monitor leaves the other threads as they are. -/
theorem step_threads_of_ne {a : Label τ} (ha : a.thread ≠ t)
    (hs : step ids m a = some m') : m'.threads t = m.threads t := by
  cases a with
  | start u op =>
    obtain ⟨l, rfl⟩ := startOp_eq_some hs
    exact setLocal_threads_of_ne ha
  | step u => exact threadStep_threads_of_ne ha hs
  | attempt u left | wake u =>
    unfold step at hs
    dsimp only at hs
    split at hs <;> cases hs
    all_goals exact setLocal_threads_of_ne ha

end Frame

end Monitor

end VmkitCore
