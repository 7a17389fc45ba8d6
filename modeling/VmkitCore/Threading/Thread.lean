import Mathlib.Data.List.Basic

/-! # Threads and block adapters

The cells of a thread that requests to block it read or write, and the adapters
that say what it is blocked for.
-/

namespace VmkitCore

inductive ThreadState
  | new | inManaged | inNative | inManagedToBlock | blockedInNative | terminated
  deriving DecidableEq, Repr

def ThreadState.notRunning : ThreadState → Bool
  | .new | .terminated => true
  | _ => false

variable {ι : Type*} [DecidableEq ι]

/-- The cells of a thread; each adapter `i` has its own two flags. -/
structure Thread (ι : Type*) where
  takeYieldpoint : Int32
  execStatus : ThreadState
  isAboutToTerminate : Bool
  isBlocking : Bool
  isJoinable : Bool
  yieldpointsEnabledCount : Int8
  yieldpointRequestPending : Bool
  atYieldpoint : Bool
  activeMutatorContext : Bool
  isBlockedFor : ι → Bool
  shouldBlockFor : ι → Bool

/-- A member of the adapter list: `()`, or an adapter with flags such as `GCBlockAdapter`. -/
inductive BlockAdapter (ι : Type*)
  | unit
  | flags (i : ι)
  deriving DecidableEq, Repr

namespace BlockAdapter

def isBlocked : BlockAdapter ι → Thread ι → Bool
  | unit, _ => false
  | flags i, t => t.isBlockedFor i

def setBlocked : BlockAdapter ι → Bool → Thread ι → Thread ι
  | unit, _, t => t
  | flags i, v, t => { t with isBlockedFor := Function.update t.isBlockedFor i v }

def requestBlock : BlockAdapter ι → Thread ι → Thread ι
  | unit, t => t
  | flags i, t => { t with shouldBlockFor := Function.update t.shouldBlockFor i true }

/-- Also `has_block_request_with_token`, as no adapter looks at the token. -/
def hasBlockRequest : BlockAdapter ι → Thread ι → Bool
  | unit, _ => false
  | flags i, t => t.shouldBlockFor i

def clearBlockRequest : BlockAdapter ι → Thread ι → Thread ι
  | unit, t => t
  | flags i, t => { t with shouldBlockFor := Function.update t.shouldBlockFor i false }

theorem isBlockedFor_setBlocked (a : BlockAdapter ι) {t : Thread ι} {i : ι}
    (h : t.isBlockedFor i = true) : (a.setBlocked true t).isBlockedFor i = true := by
  cases a with
  | unit => exact h
  | flags j =>
    by_cases hij : i = j
    · simp [setBlocked, hij]
    · simpa [setBlocked, hij] using h

theorem shouldBlockFor_requestBlock (a : BlockAdapter ι) {t : Thread ι} {i : ι}
    (h : t.shouldBlockFor i = true) : (a.requestBlock t).shouldBlockFor i = true := by
  cases a with
  | unit => exact h
  | flags j =>
    by_cases hij : i = j
    · simp [requestBlock, hij]
    · simpa [requestBlock, hij] using h

end BlockAdapter

namespace Thread

/-- `BlockAdapterList::acknowledge_block_requests`, with whether there were any. -/
def acknowledgeBlockRequests (t : Thread ι) : List (BlockAdapter ι) → Thread ι × Bool
  | [] => (t, false)
  | a :: as =>
    if a.hasBlockRequest t then
      (((a.clearBlockRequest (a.setBlocked true t)).acknowledgeBlockRequests as).1, true)
    else t.acknowledgeBlockRequests as

/-- `BlockAdapterList::is_blocked` -/
def isBlocked (t : Thread ι) (as : List (BlockAdapter ι)) : Bool :=
  as.foldl (fun b a => b || a.isBlocked t) false

def yieldpointsEnabled (t : Thread ι) : Bool := t.yieldpointsEnabledCount == 1

/-- A mutator that has been created but not started. -/
def forMutator : Thread ι where
  takeYieldpoint := 0
  execStatus := .new
  isAboutToTerminate := false
  isBlocking := false
  isJoinable := false
  yieldpointsEnabledCount := 0
  yieldpointRequestPending := false
  atYieldpoint := false
  activeMutatorContext := true
  isBlockedFor _ := false
  shouldBlockFor _ := false

/-- The same execution state, and the same flags for blocking and dying. -/
structure Agrees (t u : Thread ι) : Prop where
  execStatus : t.execStatus = u.execStatus
  isAboutToTerminate : t.isAboutToTerminate = u.isAboutToTerminate
  isBlockedFor : t.isBlockedFor = u.isBlockedFor
  shouldBlockFor : t.shouldBlockFor = u.shouldBlockFor

variable {t : Thread ι} {as : List (BlockAdapter ι)} {i : ι}

omit [DecidableEq ι] in
theorem isBlocked_eq_any (t : Thread ι) (as : List (BlockAdapter ι)) :
    t.isBlocked as = as.any fun a => a.isBlocked t := by
  have h : ∀ b, as.foldl (fun b a => b || a.isBlocked t) b = (b || as.any (·.isBlocked t)) := by
    induction as with
    | nil => simp
    | cons a as ih => simp [ih, Bool.or_assoc]
  simpa [isBlocked] using h false

omit [DecidableEq ι] in
theorem isBlocked_eq_false (hi : .flags i ∈ as) (h : t.isBlocked as = false) :
    t.isBlockedFor i = false := by
  rw [isBlocked_eq_any] at h
  exact List.any_eq_false.mp h _ hi |> Bool.eq_false_iff.mpr

/-- Acknowledging moves every pending request of the list to the blocked flags. -/
theorem acknowledgeBlockRequests_fst (t : Thread ι) (as : List (BlockAdapter ι)) :
    (t.acknowledgeBlockRequests as).1 = { t with
      isBlockedFor := fun i => t.isBlockedFor i || (t.shouldBlockFor i && .flags i ∈ as)
      shouldBlockFor := fun i => t.shouldBlockFor i && !decide (.flags i ∈ as) } := by
  induction as generalizing t with
  | nil => simp [acknowledgeBlockRequests]
  | cons a as ih =>
    rw [acknowledgeBlockRequests]
    cases a with
    | unit => simp [BlockAdapter.hasBlockRequest, ih]
    | flags j =>
      by_cases hj : t.shouldBlockFor j = true
      · simp only [BlockAdapter.hasBlockRequest, hj, if_true, ih,
          BlockAdapter.clearBlockRequest, BlockAdapter.setBlocked, Thread.mk.injEq, true_and]
        constructor <;> funext i <;> by_cases hij : i = j <;> simp [hij, hj]
      · simp only [BlockAdapter.hasBlockRequest, hj, if_false, ih, Thread.mk.injEq, true_and,
          Bool.false_eq_true]
        constructor <;> funext i <;> by_cases hij : i = j <;> simp [hij, hj]

end Thread

end VmkitCore
