import VmkitCore.Threading.BlockingSafety

/-! # Parked scopes

`parked_scope` enters native code for its body, unless the state of the thread says
that it is there already. Scopes nest, and a body returns or unwinds. The code that
runs is managed or native by the calls it has made, and the thread should be, too.
-/

namespace VmkitCore

/-- The states in which `parked_scope` only runs its body. -/
def ThreadState.runsBody : ThreadState → Bool
  | .inNative | .new => true
  | _ => false

namespace Blocking

variable {ι ρ : Type*}

/-- A call of `parked_scope`, with the side of its caller. -/
structure Scope where
  fromNative : Bool
  /-- It has found the thread outside of native code, and enters it. -/
  enters : Bool
  deriving DecidableEq, Repr

inductive ScopePc
  -- the code of the thread, or an operation that this code has called
  | code
  -- `parked_scope`, and the two operations it calls
  | load | entering | leaving
  deriving DecidableEq, Repr

/-- A target with its scopes, the innermost first. -/
structure Scoped (ι ρ : Type*) where
  state : State ι ρ
  scopes : List Scope
  pc : ScopePc
  /-- The code that runs is native code. -/
  native : Bool

inductive ScopedLabel (ι ρ : Type*)
  | blocking (l : Label ι ρ)
  | parkedScope
  | load
  | endScope (unwinds : Bool)
  deriving DecidableEq, Repr

namespace Scoped

/-- Neither inside an operation nor inside `parked_scope`. -/
def atRest (n : Scoped ι ρ) : Bool :=
  match n.pc, n.state.pc with
  | .code, .managed | .code, .native => true
  | _, _ => false

/-- After a step of the target, which may be the end of an operation. -/
def arrive (n : Scoped ι ρ) (state : State ι ρ) : Scoped ι ρ :=
  match n.pc, state.pc, n.scopes with
  | .code, .managed, _ => { n with state, native := false }
  | .code, .native, _ => { n with state, native := true }
  | .entering, .native, _ => { n with state, pc := .code, native := true }
  | .leaving, .managed, f :: scopes => ⟨state, scopes, .code, f.fromNative⟩
  | _, _, _ => { n with state }

/-- `parked_scope` reads the state of the thread. -/
def load (n : Scoped ι ρ) : Scoped ι ρ :=
  if n.state.thread.execStatus.runsBody then
    { n with scopes := ⟨n.native, false⟩ :: n.scopes, pc := .code, native := true }
  else
    { n with
      state := { n.state with pc := .enterLoad }
      scopes := ⟨n.native, true⟩ :: n.scopes
      pc := .entering }

/-- The body of the innermost scope ends in the native code it began in. -/
def endScope (n : Scoped ι ρ) (unwinds : Bool) : Option (Scoped ι ρ) :=
  match n.scopes with
  | [] => none
  | f :: scopes =>
    if n.atRest = false ∨ n.native = false then none
    else if f.enters && !unwinds then
      some { n with state := { n.state with pc := .leaveLoad true }, pc := .leaving }
    else some { n with scopes, native := f.fromNative }

def step [DecidableEq ι] [DecidableEq ρ] (as : List (BlockAdapter ι)) (n : Scoped ι ρ) :
    ScopedLabel ι ρ → Option (Scoped ι ρ)
  | .blocking l =>
    match l with
    | .call op =>
      if n.pc = .code then (Blocking.call n.state op).map fun state => { n with state } else none
    | .step => (targetStep as n.state).map n.arrive
    | .request r op => (Blocking.request n.state r op).map fun state => { n with state }
    | .requesterStep r => (Blocking.requesterStep n.state r).map fun state => { n with state }
  | .parkedScope => if n.atRest then some { n with pc := .load } else none
  | .load => if n.pc = .load then some n.load else none
  | .endScope unwinds => n.endScope unwinds

def started : Scoped ι ρ := ⟨.started, [], .code, false⟩

/-- A target that calls `parked_scope` wherever it is, and ends its scopes either way. -/
def machine [DecidableEq ι] [DecidableEq ρ] (as : List (BlockAdapter ι)) :
    Machine (Scoped ι ρ) (ScopedLabel ι ρ) where
  init n := n = started
  step := step as

/-- The thread is on the side of the code that runs. -/
structure OnSide (n : Scoped ι ρ) : Prop where
  native : n.native = true → n.state.pc = .native ∧
    (n.state.thread.execStatus = .inNative ∨ n.state.thread.execStatus = .blockedInNative)
  managed : n.native = false → n.state.pc = .managed ∧
    (n.state.thread.execStatus = .inManaged ∨ n.state.thread.execStatus = .inManagedToBlock)

end Scoped

section Honoured

variable [DecidableEq ι]

/-- Inside `block_unchecked` for this adapter, before it exchanges the state of the target. -/
def RequesterPc.asks (i : ι) : RequesterPc ι → Bool
  | .blockTerminate a _ | .blockTake a _ | .statusLoad a _ | .statusCas a .. => a = .flags i
  | _ => false

/-- Nothing blocks the target, and no request waits for it that has got as far as its state. -/
def Honoured (as : List (BlockAdapter ι)) (s : State ι ρ) : Prop :=
  ∀ i, .flags i ∈ as → s.thread.isBlockedFor i = false ∧
    (s.thread.shouldBlockFor i = true → ∃ r, (s.requesters r).pc.asks i = true)

end Honoured

namespace Scoped

/-- The last step has ended this scope, and the thread is where it was when the scope began. -/
structure Ended [DecidableEq ι] (as : List (BlockAdapter ι)) (f : Scope) (n : Scoped ι ρ) :
    Prop where
  atRest : n.atRest = true
  side : n.native = f.fromNative
  onSide : n.OnSide
  honoured : f.fromNative = false → Honoured as n.state

/-- Native code opens no scope while it is blocked, and no body unwinds into managed code. -/
def Clean (n : Scoped ι ρ) : ScopedLabel ι ρ → Prop
  | .load => n.native = true → n.state.thread.execStatus ≠ .blockedInNative
  | .endScope unwinds => unwinds = true → ∀ f ∈ n.scopes.head?, f.fromNative = true
  | _ => True

end Scoped

/-- Inside `enter_native`. -/
def Pc.enters : Pc ι → Bool
  | .enterLoad | .enterCas | .enterBlockedLock | .enterBlockedStatus | .enterBlockedAcknowledge
  | .enterBlockedNotify | .enterBlockedUnlock => true
  | _ => false

/-- Inside `leave_native`. -/
def Pc.leaves : Pc ι → Bool
  | .leaveLoad true | .leaveCas true | .checkLock .leaveNative | .checkBlocking .leaveNative
  | .checkAcknowledge .leaveNative | .checkNotify .leaveNative | .checkBlocked .leaveNative
  | .asleep .leaveNative | .woken .leaveNative | .checkStatus .leaveNative | .checkDone .leaveNative
  | .checkUnlock .leaveNative => true
  | _ => false

section Wake

variable {pc : Pc ι}

@[simp] theorem wake_enters : pc.wake.enters = pc.enters := by cases pc <;> rfl

@[simp] theorem wake_leaves : pc.wake.leaves = pc.leaves := by
  cases pc with
  | asleep f => cases f <;> rfl
  | _ => rfl

@[simp] theorem wake_eq_managed : pc.wake = .managed ↔ pc = .managed := by
  cases pc <;> simp [Pc.wake]

@[simp] theorem wake_eq_native : pc.wake = .native ↔ pc = .native := by
  cases pc <;> simp [Pc.wake]

end Wake

/-- A call leads into an operation, or leaves the thread in managed code. -/
theorem call_rest {s s' : State ι ρ} {op : Op ι} (hs : call s op = some s') :
    (s'.pc = .managed → s.pc = .managed) ∧ s'.pc ≠ .native := by
  unfold call at hs
  split at hs <;> rename_i hpc <;> cases hs <;> simp [hpc, State.setThread]

section Target

variable [DecidableEq ι] {as : List (BlockAdapter ι)} {s s' : State ι ρ}

theorem targetStep_enters (hs : targetStep as s = some s') (h : s.pc.enters = true) :
    s'.pc.enters = true ∨ s'.pc = .native := by
  unfold targetStep at hs
  cases hpc : s.pc
  all_goals
    simp only [hpc] at hs h
    try cases h
  case enterLoad => cases hs; left; dsimp only; split <;> rfl
  case enterCas =>
    cases hs
    split
    · exact .inr rfl
    · exact .inl rfl
  case enterBlockedLock => rw [acquire_pc hs]; exact .inl rfl
  case enterBlockedStatus => cases hs; exact .inl rfl
  case enterBlockedAcknowledge =>
    cases hs
    left
    dsimp only [State.setThread]
    split <;> rfl
  case enterBlockedNotify => cases hs; exact .inl rfl
  case enterBlockedUnlock => cases hs; exact .inr rfl

theorem Honoured.of_managed (hi : Inv as s) (hpc : s.pc = .managed)
    (h : ∀ i, .flags i ∈ as → s.thread.shouldBlockFor i = true →
      ∃ r, (s.requesters r).pc.asks i = true) : Honoured as s := by
  refine fun i hm => ⟨?_, h i hm⟩
  cases hb : s.thread.isBlockedFor i with
  | false => rfl
  | true =>
    have hmay := hi.blocked i hm hb
    rw [hpc] at hmay
    cases hmay

/-- A requester that has exchanged the state relies on it, so it is not `inManaged`. -/
theorem asks_of_requests (hi : Inv as s) (hst : s.thread.execStatus = .inManaged) {r : ρ} {i : ι}
    (hr : (s.requesters r).pc.requests i = true) : (s.requesters r).pc.asks i = true := by
  have hsees := hi.sees r
  rw [hst] at hsees
  cases hpc : (s.requesters r).pc
  all_goals
    rw [hpc] at hr hsees
    first
    | exact hr
    | cases hr
    | skip
  case blockNotify =>
    rcases hsees.2 with he | he
    · cases he
    · cases he.1
  case blockClear => cases hsees.1

/-- At the end of `leave_native` all is honoured that has got as far as the state. -/
theorem targetStep_leaves (hi : Inv as s) (hs : targetStep as s = some s')
    (h : s.pc.leaves = true) : s'.pc.leaves = true ∨ s'.pc = .managed ∧ Honoured as s' := by
  have hi' := hi.targetStep hs
  unfold targetStep at hs
  cases hpc : s.pc
  case leaveLoad block =>
    cases block with
    | false => rw [hpc] at h; cases h
    | true =>
      simp only [hpc, if_true] at hs
      cases hs
      left
      dsimp only
      split <;> rfl
  case leaveCas block =>
    cases block with
    | false => rw [hpc] at h; cases h
    | true =>
      simp only [hpc] at hs
      split at hs
      · cases hs
        refine .inr ⟨rfl, .of_managed hi' rfl fun i hm hsb => ?_⟩
        rcases hi'.pending i hm hsb with ⟨r, hr⟩ | hw | he | hd
        · exact ⟨r, asks_of_requests hi' rfl hr⟩
        · cases hw
        · cases he
        · cases hd
      · cases hs; exact .inl rfl
  case checkUnlock f =>
    cases f with
    | yieldpoint | blockSelf => rw [hpc] at h; cases h
    | leaveNative =>
      simp only [hpc] at hs
      cases hs
      refine .inr ⟨rfl, .of_managed hi' rfl fun i hm hsb => ?_⟩
      rw [hi.acknowledged (by rw [hpc]; rfl) i hm] at hsb
      cases hsb
  case checkAcknowledge f =>
    cases f with
    | yieldpoint | blockSelf => rw [hpc] at h; cases h
    | leaveNative =>
      simp only [hpc] at hs
      cases hs
      left
      dsimp only [State.setThread]
      split <;> rfl
  case checkLock f | checkBlocking f | checkNotify f | checkBlocked f | asleep f | woken f |
      checkStatus f | checkDone f =>
    cases f with
    | yieldpoint | blockSelf => rw [hpc] at h; cases h
    | leaveNative =>
      left
      simp only [hpc] at hs
      first
      | (rw [acquire_pc hs]; rfl)
      | (cases hs; rfl)
      | (cases hs; split <;> rfl)
      | cases hs
  all_goals
    rw [hpc] at h
    cases h

end Target

namespace Scoped

/-- Where the thread is, and which scope is the innermost, at each step of `parked_scope`. -/
structure Placed (n : Scoped ι ρ) : Prop where
  code : n.pc = .code → (n.state.pc = .managed → n.native = false) ∧
    (n.state.pc = .native → n.native = true)
  load : n.pc = .load → n.state.pc = .managed ∧ n.native = false ∨
    n.state.pc = .native ∧ n.native = true
  entering : n.pc = .entering → n.state.pc.enters = true ∧ ∃ fs, n.scopes = ⟨false, true⟩ :: fs
  leaving : n.pc = .leaving → n.state.pc.leaves = true ∧ ∃ fs, n.scopes = ⟨false, true⟩ :: fs

namespace Placed

variable {n : Scoped ι ρ} {fs : List Scope}

theorem ofCode (hpc : n.pc = .code) (hm : n.state.pc = .managed → n.native = false)
    (hn : n.state.pc = .native → n.native = true) : n.Placed := by
  refine ⟨fun _ => ⟨hm, hn⟩, fun hc => ?_, fun hc => ?_, fun hc => ?_⟩ <;> cases hpc.symm.trans hc

theorem ofEntering (hpc : n.pc = .entering) (hs : n.state.pc.enters = true)
    (hf : n.scopes = ⟨false, true⟩ :: fs) : n.Placed := by
  refine ⟨fun hc => ?_, fun hc => ?_, fun _ => ⟨hs, fs, hf⟩, fun hc => ?_⟩ <;>
    cases hpc.symm.trans hc

theorem ofLeaving (hpc : n.pc = .leaving) (hs : n.state.pc.leaves = true)
    (hf : n.scopes = ⟨false, true⟩ :: fs) : n.Placed := by
  refine ⟨fun hc => ?_, fun hc => ?_, fun hc => ?_, fun _ => ⟨hs, fs, hf⟩⟩ <;>
    cases hpc.symm.trans hc

end Placed

structure Inv [DecidableEq ι] (as : List (BlockAdapter ι)) (n : Scoped ι ρ) : Prop where
  blocking : Blocking.Inv as n.state
  placed : n.Placed
  scopes : ∀ f ∈ n.scopes, f.enters = !f.fromNative

section Steps

variable [DecidableEq ι] {as : List (BlockAdapter ι)} {n n' : Scoped ι ρ} {s : State ι ρ}

omit [DecidableEq ι] in
theorem atRest_iff : n.atRest = true ↔
    n.pc = .code ∧ (n.state.pc = .managed ∨ n.state.pc = .native) := by
  unfold atRest
  split <;> simp_all

theorem Inv.onSide (h : Inv as n) (hr : n.atRest = true) : n.OnSide := by
  obtain ⟨hpc, hs⟩ := atRest_iff.mp hr
  obtain ⟨hm, hn⟩ := h.placed.code hpc
  have hst := h.blocking.status
  refine ⟨fun hnat => ?_, fun hnat => ?_⟩
  · have hp : n.state.pc = .native := hs.resolve_left fun he => by simp [hm he] at hnat
    rw [hp] at hst
    exact ⟨hp, by simpa [Pc.allows] using hst⟩
  · have hp : n.state.pc = .managed := hs.resolve_right fun he => by simp [hn he] at hnat
    rw [hp] at hst
    exact ⟨hp, by simpa [Pc.allows] using hst⟩

/-- The state after a step, and what holds if it has ended a scope. -/
structure After (as : List (BlockAdapter ι)) (n n' : Scoped ι ρ) : Prop where
  inv : Inv as n'
  ended : ∀ f, n.scopes = f :: n'.scopes → Ended as f n'

/-- A step that ends no scope. -/
theorem After.of_length (h : Inv as n') (hl : n.scopes.length ≤ n'.scopes.length) :
    After as n n' := by
  refine ⟨h, fun f hf => ?_⟩
  rw [hf, List.length_cons] at hl
  exact absurd hl (Nat.not_succ_le_self _)

/-- A step of a requester, which wakes the target at most. -/
theorem Inv.wake (h : Inv as n) (hs : Blocking.Inv as s)
    (hpc : s.pc = n.state.pc ∨ s.pc = n.state.pc.wake) : Inv as { n with state := s } := by
  refine ⟨hs, ⟨fun hc => ?_, fun hc => ?_, fun hc => ?_, fun hc => ?_⟩, h.scopes⟩
  · rcases hpc with he | he <;> simpa [he] using h.placed.code hc
  · rcases hpc with he | he <;> simpa [he] using h.placed.load hc
  · rcases hpc with he | he <;> simpa [he] using h.placed.entering hc
  · rcases hpc with he | he <;> simpa [he] using h.placed.leaving hc

omit [DecidableEq ι] in
theorem arrive_inside (hm : s.pc ≠ .managed) (hn : s.pc ≠ .native) :
    n.arrive s = { n with state := s } := by
  unfold arrive
  split <;> simp_all

/-- The operation that the code has called goes on, or returns. -/
theorem Inv.targetStep_code (h : Inv as n) (hpc : n.pc = .code) (hi : Blocking.Inv as s) :
    After as n (n.arrive s) := by
  by_cases hm : s.pc = .managed
  · rw [show n.arrive s = { n with state := s, native := false } by simp [arrive, hpc, hm]]
    refine .of_length ⟨hi, .ofCode hpc (fun _ => rfl) fun hn => ?_, h.scopes⟩ (Nat.le_refl _)
    cases hm.symm.trans hn
  by_cases hn : s.pc = .native
  · rw [show n.arrive s = { n with state := s, native := true } by simp [arrive, hpc, hn]]
    exact .of_length ⟨hi, .ofCode hpc (absurd · hm) fun _ => rfl, h.scopes⟩ (Nat.le_refl _)
  · rw [arrive_inside hm hn]
    exact .of_length ⟨hi, .ofCode hpc (absurd · hm) (absurd · hn), h.scopes⟩ (Nat.le_refl _)

/-- A step of the target, which may end a scope that was entered from managed code. -/
theorem Inv.targetStep (h : Inv as n) (hs : Blocking.targetStep as n.state = some s) :
    After as n (n.arrive s) := by
  have hi := h.blocking.targetStep hs
  cases hpc : n.pc with
  | code => exact h.targetStep_code hpc hi
  | load =>
    rcases h.placed.load hpc with ⟨he, -⟩ | ⟨he, -⟩ <;> simp [Blocking.targetStep, he] at hs
  | entering =>
    obtain ⟨hp, fs, hfs⟩ := h.placed.entering hpc
    rcases targetStep_enters hs hp with he | he
    · rw [arrive_inside (fun hm => by rw [hm] at he; cases he) fun hn => by rw [hn] at he; cases he]
      exact .of_length ⟨hi, .ofEntering hpc he hfs, h.scopes⟩ (Nat.le_refl _)
    · rw [show n.arrive s = { n with state := s, pc := .code, native := true } by
        simp [arrive, hpc, he]]
      refine .of_length ⟨hi, .ofCode rfl (fun hm => ?_) fun _ => rfl, h.scopes⟩ (Nat.le_refl _)
      cases he.symm.trans hm
  | leaving =>
    obtain ⟨hp, fs, hfs⟩ := h.placed.leaving hpc
    rcases targetStep_leaves h.blocking hs hp with he | ⟨he, hh⟩
    · rw [arrive_inside (fun hm => by rw [hm] at he; cases he) fun hn => by rw [hn] at he; cases he]
      exact .of_length ⟨hi, .ofLeaving hpc he hfs, h.scopes⟩ (Nat.le_refl _)
    · rw [show n.arrive s = ⟨s, fs, .code, false⟩ by simp [arrive, hpc, he, hfs]]
      have hinv : Inv as (⟨s, fs, .code, false⟩ : Scoped ι ρ) := by
        refine ⟨hi, .ofCode rfl (fun _ => rfl) fun hn => ?_, fun f hf => ?_⟩
        · cases he.symm.trans hn
        · exact h.scopes f (hfs ▸ List.mem_cons_of_mem _ hf)
      have hr : (⟨s, fs, .code, false⟩ : Scoped ι ρ).atRest = true := atRest_iff.mpr ⟨rfl, .inl he⟩
      refine ⟨hinv, fun f hf => ?_⟩
      obtain rfl : ⟨false, true⟩ = f := (List.cons.inj (hfs.symm.trans hf)).1
      exact ⟨hr, rfl, hinv.onSide hr, fun _ => hh⟩

/-- `parked_scope` reads the state of the thread, which tells the side of its caller. -/
theorem Inv.load (h : Inv as n) (hpc : n.pc = .load)
    (hc : n.native = true → n.state.thread.execStatus ≠ .blockedInNative) : After as n n.load := by
  have hst := h.blocking.status
  rcases h.placed.load hpc with ⟨he, hn⟩ | ⟨he, hn⟩
  · have hrun : n.state.thread.execStatus.runsBody = false := by
      rw [he] at hst
      rcases (by simpa [Pc.allows] using hst) with hst | hst <;> rw [hst] <;> rfl
    have hcall : Blocking.call n.state .enterNative = some { n.state with pc := .enterLoad } := by
      simp [Blocking.call, he]
    rw [Scoped.load, if_neg (by simp [hrun]), hn]
    refine .of_length ⟨h.blocking.call hcall, .ofEntering rfl rfl rfl, ?_⟩ (Nat.le_succ _)
    exact List.forall_mem_cons.mpr ⟨rfl, h.scopes⟩
  · have hrun : n.state.thread.execStatus = .inNative := by
      rw [he] at hst
      exact (by simpa [Pc.allows] using hst : _ ∨ _).resolve_right (hc hn)
    rw [Scoped.load, if_pos (by rw [hrun]; rfl), hn]
    refine .of_length ⟨h.blocking, .ofCode rfl (fun hm => ?_) fun _ => rfl, ?_⟩ (Nat.le_succ _)
    · cases he.symm.trans hm
    · exact List.forall_mem_cons.mpr ⟨rfl, h.scopes⟩

/-- A body ends, and the scope is at its end, too, unless it has to leave native code. -/
theorem Inv.endScope (h : Inv as n) {unwinds : Bool}
    (hc : unwinds = true → ∀ f ∈ n.scopes.head?, f.fromNative = true)
    (hs : n.endScope unwinds = some n') : After as n n' := by
  unfold Scoped.endScope at hs
  split at hs
  · cases hs
  next f fs hfs =>
  split at hs
  · cases hs
  next hguard =>
  rw [not_or, Bool.not_eq_false, Bool.not_eq_false] at hguard
  obtain ⟨hr, hn⟩ := hguard
  obtain ⟨hpc, -⟩ := atRest_iff.mp hr
  have hnative := ((h.onSide hr).native hn).1
  have hf := h.scopes f (hfs ▸ List.mem_cons_self)
  split at hs
  · next he =>
    obtain rfl := Option.some.inj hs
    obtain ⟨he, -⟩ := Bool.and_eq_true_iff.mp he
    have hcall : Blocking.call n.state .leaveNative =
        some { n.state with pc := .leaveLoad true } := by
      simp [Blocking.call, hnative]
    have hfn : f.fromNative = false := by simpa [he] using hf
    have hscopes : n.scopes = ⟨false, true⟩ :: fs := hfs.trans (by cases f; simp_all)
    exact .of_length ⟨h.blocking.call hcall, .ofLeaving rfl rfl hscopes, h.scopes⟩ (Nat.le_refl _)
  · next he =>
    obtain rfl := Option.some.inj hs
    have hfn : f.fromNative = true := by
      cases unwinds with
      | true => exact hc rfl f (by simp [hfs])
      | false => simpa [hf] using he
    have hinv : Inv as { n with scopes := fs, native := f.fromNative } := by
      refine ⟨h.blocking, .ofCode hpc (fun hm => ?_) fun _ => hfn, fun g hg => ?_⟩
      · cases hnative.symm.trans hm
      · exact h.scopes g (hfs ▸ List.mem_cons_of_mem _ hg)
    have hr' : ({ n with scopes := fs, native := f.fromNative } : Scoped ι ρ).atRest = true :=
      atRest_iff.mpr ⟨hpc, .inr hnative⟩
    refine ⟨hinv, fun g hg => ?_⟩
    obtain rfl : f = g := (List.cons.inj (hfs.symm.trans hg)).1
    exact ⟨hr', rfl, hinv.onSide hr', fun hm => by rw [hfn] at hm; cases hm⟩

theorem Inv.step [DecidableEq ρ] (h : Inv as n) {l : ScopedLabel ι ρ} (hc : n.Clean l)
    (hs : Scoped.step as n l = some n') : After as n n' := by
  cases l with
  | blocking l =>
    cases l with
    | call op =>
      simp only [Scoped.step] at hs
      split at hs
      · next hpc =>
        obtain ⟨s, hs', rfl⟩ := Option.map_eq_some_iff.mp hs
        obtain ⟨hm, hn⟩ := call_rest hs'
        refine .of_length ⟨h.blocking.call hs', .ofCode hpc (fun he => ?_) (absurd · hn), h.scopes⟩
          (Nat.le_refl _)
        exact (h.placed.code hpc).1 (hm he)
      · cases hs
    | step =>
      obtain ⟨s, hs', rfl⟩ := Option.map_eq_some_iff.mp hs
      exact h.targetStep hs'
    | request r op =>
      obtain ⟨s, hs', rfl⟩ := Option.map_eq_some_iff.mp hs
      exact .of_length (h.wake (h.blocking.request hs') (.inl (request_pc hs'))) (Nat.le_refl _)
    | requesterStep r =>
      obtain ⟨s, hs', rfl⟩ := Option.map_eq_some_iff.mp hs
      exact .of_length (h.wake (h.blocking.requesterStep hs') (requesterStep_pc hs'))
        (Nat.le_refl _)
  | parkedScope =>
    simp only [Scoped.step] at hs
    split at hs
    · next hr =>
      obtain rfl := Option.some.inj hs
      have hside := h.onSide hr
      refine .of_length ⟨h.blocking, ⟨nofun, fun _ => ?_, nofun, nofun⟩, h.scopes⟩ (Nat.le_refl _)
      cases hn : n.native with
      | false => exact .inl ⟨(hside.managed hn).1, rfl⟩
      | true => exact .inr ⟨(hside.native hn).1, rfl⟩
    · cases hs
  | load =>
    simp only [Scoped.step] at hs
    split at hs
    · next hpc =>
      obtain rfl := Option.some.inj hs
      exact h.load hpc hc
    · cases hs
  | endScope unwinds => exact h.endScope hc hs

end Steps

section Runs

variable [DecidableEq ι] [DecidableEq ρ] {as : List (BlockAdapter ι)} {n n' : Scoped ι ρ}

theorem inv_of_reachable (h : (machine as).ReachableUnder Clean n) : Inv as n := by
  refine h.invariant ?_ fun n l n' hi hc hs => (hi.step hc hs).inv
  rintro n rfl
  exact ⟨.started as, .ofCode rfl (fun _ => rfl) nofun, nofun⟩

end Runs

instance : ∀ (n : Scoped ι ρ) (l : ScopedLabel ι ρ), Decidable (n.Clean l)
  | _, .load => inferInstanceAs (Decidable (_ → _))
  | n, .endScope unwinds =>
    inferInstanceAs (Decidable (unwinds = true → ∀ f ∈ n.scopes.head?, f.fromNative = true))
  | _, .blocking _ | _, .parkedScope => inferInstanceAs (Decidable True)

/-- From managed code into the body of a scope. -/
def enterScope : List (ScopedLabel Unit Unit) :=
  [.parkedScope, .load, .blocking .step, .blocking .step]

def block : List (ScopedLabel Unit Unit) :=
  .blocking (.request () (.blockUnchecked (.flags ()) true)) ::
    List.replicate 10 (.blocking (.requesterStep ()))

def unblock : List (ScopedLabel Unit Unit) :=
  .blocking (.request () (.unblock (.flags ()))) :: List.replicate 5 (.blocking (.requesterStep ()))

/-- Native code that is blocked opens a scope, which leaves the thread in managed code. -/
def blockedRun : List (ScopedLabel Unit Unit) :=
  enterScope ++ block ++ unblock ++ [.parkedScope, .load] ++ List.replicate 5 (.blocking .step) ++
    .endScope false :: List.replicate 8 (.blocking .step)

end Scoped

end Blocking

end VmkitCore
