import VmkitCore.Lib.Machine
import VmkitCore.ObjectModel.Move

/-! # Stability of address-based hash codes

A run of one object interleaves `hashcode()` calls with relocations. The hash
of an object survives the first move after hashing. A further move of the
object falls into the branch for unhashed objects and drops the stored hash, so
the code is stable exactly when no such move changes the address-based value.
-/

namespace VmkitCore

open VMKitObject

/-- The heap and the current reference of the object that a run follows. -/
structure ObjectState where
  memory : ByteMemory
  object : VMKitObject

inductive ObjectOp
  | hashcode
  | relocate (target : MoveTarget)
  deriving DecidableEq, Repr

/-- The destination is aligned, has room in front of the reference and ends in the address space. -/
def MoveTarget.Fits (state : HashState) (numBytes : ℕ) (target : MoveTarget) : Prop :=
  8 ∣ (target.reference state).address ∧
    state.frontBytesWhenCopied ≤ (target.reference state).address ∧
    (target.reference state).address - state.frontBytesWhenCopied + numBytes ≤ 2 ^ 64

instance (state : HashState) (numBytes : ℕ) (target : MoveTarget) :
    Decidable (target.Fits state numBytes) :=
  inferInstanceAs (Decidable (_ ∧ _ ∧ _))

/-- An object whose header can be read and whose front bytes lie in the address space. -/
def ObjectState.Live (vm : VirtualMachine) (s : ObjectState) : Prop :=
  ∃ state, s.object.hashState vm s.memory = some state ∧
    state.frontBytes ≤ s.object.address ∧ s.object.address ≤ 2 ^ 64

def objectStep (vm : VirtualMachine) (s : ObjectState) : ObjectOp → Option ObjectState
  | .hashcode => do
    let (_, m) ← s.object.hashcode vm s.memory
    some ⟨m, s.object⟩
  | .relocate target => do
    let state ← s.object.hashState vm s.memory
    let numBytes ← s.object.bytesRequiredWhenCopied vm s.memory
    if target.Fits state numBytes then
      let (m, object) ← VMKitObjectModel.moveObject vm s.memory s.object target numBytes
      some ⟨m, object⟩
    else none

/-- Runs of one object under `hashcode()` calls and relocations. -/
def objectMachine (vm : VirtualMachine) : Machine ObjectState ObjectOp where
  init := ObjectState.Live vm
  step := objectStep vm

/-- `hashcode()` on the current reference returns the given value. -/
def HashcodeReturns (vm : VirtualMachine) (h : ℕ) (s : ObjectState) : Prop :=
  ∃ m, s.object.hashcode vm s.memory = some (h, m)

/--
A relocation of an object that carries a stored hash goes to a reference whose address
gives the same hash.
-/
def KeepsStoredHash (vm : VirtualMachine) (s : ObjectState) (op : ObjectOp) : Prop :=
  ∀ target, op = .relocate target → s.object.hashState vm s.memory = some .hashedAndMoved →
    (target.reference .hashedAndMoved).address >>> 3 =
      s.memory.load (s.object.address - hashcodeOffset) 8

variable {vm : VirtualMachine} {s s' : ObjectState} {h : ℕ}

theorem HashcodeReturns.unique {h' : ℕ} (hr : HashcodeReturns vm h s)
    (hr' : HashcodeReturns vm h' s) : h = h' := by
  obtain ⟨m, hm⟩ := hr
  obtain ⟨m', hm'⟩ := hr'
  exact congrArg Prod.fst (Option.some.inj (hm.symm.trans hm'))

theorem ObjectState.Live.front (hl : s.Live vm) : objectRefOffset ≤ s.object.address := by
  obtain ⟨state, -, ho, -⟩ := hl
  exact (VMKitObjectModel.objectRefOffset_le_frontBytes state).trans ho

/-- The value `hashcode()` returns, by the hash state of the object. -/
theorem hashcodeReturns_iff {state : HashState} (habh : vm.addressBasedHashing = true)
    (hl : s.Live vm) (hs : s.object.hashState vm s.memory = some state) :
    HashcodeReturns vm h s ↔ h = match state with
      | .hashedAndMoved => s.memory.load (s.object.address - hashcodeOffset) 8
      | _ => s.object.address >>> 3 := by
  obtain ⟨m, hm, -⟩ := setHashState_spec (m := s.memory) hl.front habh .hashed
  cases state <;> simp [HashcodeReturns, VMKitObject.hashcode, habh, hs, hm, eq_comm]

/-- A `hashcode()` call leaves the object where it is, hashed, with the code it returned. -/
theorem hashcode_step (habh : vm.addressBasedHashing = true) (hl : s.Live vm) {m : ByteMemory}
    (hc : s.object.hashcode vm s.memory = some (h, m)) :
    ObjectState.Live vm ⟨m, s.object⟩ ∧ s.object.hashState vm m ≠ some .unhashed ∧
      HashcodeReturns vm h ⟨m, s.object⟩ := by
  have hret : HashcodeReturns vm h s := ⟨m, hc⟩
  obtain ⟨state, hs, ho, hb⟩ := id hl
  rw [hashcodeReturns_iff habh hl hs] at hret
  obtain ⟨m', hm', hst, -⟩ := setHashState_spec (m := s.memory) hl.front habh .hashed
  cases state with
  | hashedAndMoved =>
    obtain rfl : s.memory = m := by simpa [VMKitObject.hashcode, habh, hs, hret] using hc
    exact ⟨hl, by simp [hs], ⟨_, hc⟩⟩
  | unhashed | hashed =>
    obtain rfl : m' = m := by simpa [VMKitObject.hashcode, habh, hs, hm', hret] using hc
    have hl' : ObjectState.Live vm ⟨m', s.object⟩ := ⟨_, hst, hl.front, hb⟩
    exact ⟨hl', by simp [hst], (hashcodeReturns_iff habh hl' hst).mpr hret⟩

/-- Where a relocation leaves the object, and what it stores there. -/
theorem relocate_spec {state : HashState} (habh : vm.addressBasedHashing = true) (hl : s.Live vm)
    (hs : s.object.hashState vm s.memory = some state) {target : MoveTarget}
    (hstep : objectStep vm s (.relocate target) = some s') :
    s'.object = target.reference state ∧ s'.Live vm ∧
      s'.object.hashState vm s'.memory = some state.afterMove ∧
      (state = .hashed → s'.memory.load (s'.object.address - hashcodeOffset) 8 =
        s.object.address >>> 3) := by
  obtain ⟨state', hs', ho, hb⟩ := id hl
  obtain rfl : state' = state := Option.some.inj (hs'.symm.trans hs)
  obtain ⟨numBytes, hn, hle⟩ :=
    VMKitObjectModel.bytesRequiredWhenCopied_spec hl.front habh hs
  simp only [objectStep, hs, hn, Option.bind_eq_bind, Option.bind_some] at hstep
  split at hstep
  case isFalse => cases hstep
  case isTrue hf =>
    obtain ⟨-, hfront, hend⟩ := hf
    obtain ⟨m', hm', hst, -, hword⟩ :=
      VMKitObjectModel.moveObject_spec habh hs ho hfront hle
    simp only [hm', Option.bind_some, Option.some.injEq] at hstep
    subst hstep
    refine ⟨rfl, ⟨_, hst, ?_, by dsimp only; omega⟩, hst, fun hh => ?_⟩
    · cases state' <;> simpa [HashState.frontBytes, HashState.afterMove,
        HashState.frontBytesWhenCopied] using (le_trans (by decide) hfront)
    · rw [hword hh, Nat.mod_eq_of_lt]
      simp only [Nat.shiftRight_eq_div_pow]
      omega

theorem reachable_live (habh : vm.addressBasedHashing = true) (h : (objectMachine vm).Reachable s) :
    s.Live vm := by
  apply h.invariant (I := ObjectState.Live vm) (fun _ h => h)
  intro s op s' hl _ hstep
  cases op with
  | hashcode =>
    obtain ⟨⟨h, m⟩, hc, rfl⟩ : ∃ r, s.object.hashcode vm s.memory = some r ∧
        (⟨r.2, s.object⟩ : ObjectState) = s' := by
      simpa [objectMachine, objectStep, Option.bind_eq_some_iff] using hstep
    exact (hashcode_step habh hl hc).1
  | relocate target =>
    obtain ⟨state, hs, -⟩ := id hl
    exact (relocate_spec habh hl hs hstep).2.1

/-- Live and past its first `hashcode()` call. -/
def ObjectState.HashTaken (vm : VirtualMachine) (s : ObjectState) : Prop :=
  s.Live vm ∧ s.object.hashState vm s.memory ≠ some .unhashed

theorem hashTaken_step (habh : vm.addressBasedHashing = true) {op : ObjectOp}
    (ht : s.HashTaken vm) (hstep : objectStep vm s op = some s') : s'.HashTaken vm := by
  cases op with
  | hashcode =>
    obtain ⟨⟨h, m⟩, hc, rfl⟩ : ∃ r, s.object.hashcode vm s.memory = some r ∧
        (⟨r.2, s.object⟩ : ObjectState) = s' := by
      simpa [objectStep, Option.bind_eq_some_iff] using hstep
    exact ⟨(hashcode_step habh ht.1 hc).1, (hashcode_step habh ht.1 hc).2.1⟩
  | relocate target =>
    obtain ⟨state, hs, -⟩ := id ht.1
    obtain ⟨-, hl', hst, -⟩ := relocate_spec habh ht.1 hs hstep
    refine ⟨hl', ?_⟩
    rw [hst]
    cases state <;> simp [HashState.afterMove]

/-- One step keeps the hash code exactly when it keeps a stored hash. -/
theorem hashcodeReturns_step (habh : vm.addressBasedHashing = true) {op : ObjectOp}
    (ht : s.HashTaken vm) (hret : HashcodeReturns vm h s)
    (hstep : objectStep vm s op = some s') :
    HashcodeReturns vm h s' ↔ KeepsStoredHash vm s op := by
  obtain ⟨state, hs, -⟩ := id ht.1
  cases op with
  | hashcode =>
    obtain ⟨m, hc⟩ := hret
    obtain rfl : (⟨m, s.object⟩ : ObjectState) = s' := by simpa [objectStep, hc] using hstep
    exact iff_of_true (hashcode_step habh ht.1 hc).2.2 fun _ he => nomatch he
  | relocate target =>
    obtain ⟨hobj, hl', hst, hword⟩ := relocate_spec habh ht.1 hs hstep
    rw [hashcodeReturns_iff habh ht.1 hs] at hret
    rw [hashcodeReturns_iff habh hl' hst]
    cases state with
    | unhashed => exact absurd hs ht.2
    | hashed =>
      apply iff_of_true (hret.trans (hword rfl).symm)
      intro _ _ hm
      rw [hs] at hm
      cases hm
    | hashedAndMoved =>
      rw [hret]
      simp [KeepsStoredHash, HashState.afterMove, hs, hobj, eq_comm]

/--
After a `hashcode()` call returned `h`, at any point of any run, every later call would
return `h` again exactly when no later relocation drops a stored hash.
-/
theorem hashcode_stable_iff (habh : vm.addressBasedHashing = true)
    (hs : (objectMachine vm).Reachable s) {m : ByteMemory}
    (hc : s.object.hashcode vm s.memory = some (h, m)) (ops : List ObjectOp) :
    (objectMachine vm).Always (HashcodeReturns vm h) ⟨m, s.object⟩ ops ↔
      (objectMachine vm).Meets (KeepsStoredHash vm) ⟨m, s.object⟩ ops := by
  obtain ⟨hl, hst, hret⟩ := hashcode_step habh (reachable_live habh hs) hc
  exact Machine.always_iff_meets (J := ObjectState.HashTaken vm)
    (fun _ _ _ ht hstep => hashTaken_step habh ht hstep)
    (fun _ _ _ ht hret hstep => hashcodeReturns_step habh ht hret hstep) ⟨hl, hst⟩ hret

/-- An unhashed object with empty metadata, at the given reference in a zeroed heap. -/
def ObjectState.fresh (address : ℕ) : ObjectState := ⟨fun _ => 0, ⟨address⟩⟩

theorem fresh_live : (ObjectState.fresh 1032).Live (.fixedSize 16) :=
  ⟨.unhashed, by decide, by decide, by decide⟩

/-- One move after hashing keeps the hash code 129. -/
theorem hashcode_stable_one_move : ∃ m,
    (ObjectState.fresh 1032).object.hashcode (.fixedSize 16) (fun _ => 0) = some (129, m) ∧
    (objectMachine (.fixedSize 16)).Always (HashcodeReturns (.fixedSize 16) 129)
      ⟨m, ⟨1032⟩⟩ [.relocate (.toAddress 2048)] := by
  refine ⟨_, rfl, (hashcode_stable_iff rfl (.init fresh_live) rfl _).mpr ?_⟩
  refine fun _ _ => ⟨fun _ _ hm => ?_, trivial⟩
  exact absurd hm (by decide)

/-- Two moves after hashing change the hash code from 129 to 514. -/
theorem hashcode_changes_after_two_moves : ∃ s₁ s₂,
    (objectMachine (.fixedSize 16)).init (.fresh 1032) ∧
    HashcodeReturns (.fixedSize 16) 129 (.fresh 1032) ∧
    (objectMachine (.fixedSize 16)).exec (.fresh 1032) [.hashcode] = some s₁ ∧
    (objectMachine (.fixedSize 16)).exec s₁
      [.relocate (.toAddress 2048), .relocate (.toAddress 4096)] = some s₂ ∧
    HashcodeReturns (.fixedSize 16) 514 s₂ ∧ ¬ HashcodeReturns (.fixedSize 16) 129 s₂ := by
  refine ⟨_, _, fresh_live, ⟨_, rfl⟩, rfl, rfl, ⟨_, rfl⟩, fun hr => ?_⟩
  exact absurd (hr.unique ⟨_, rfl⟩ : 129 = 514) (by decide)

end VmkitCore
