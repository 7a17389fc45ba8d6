import VmkitCore.Sync.MonitorInvariant

/-! # Mutual exclusion

Without `wait_with_handshake`, and while actions keep to their own guards, the three cells of a
monitor agree with the live guards whenever no thread is in the middle of a method, and only the
drop of the last guard, a wait or an unlocked action gives the mutex up.
-/

namespace VmkitCore.Monitor

/-- No thread is between two steps of a method: it is outside of them, or blocked in one. -/
def Pc.Quiet : Pc → Prop
  | .idle | .lockMutex | .handshakeMutex | .asleep .. | .waitRelock .. | .relockMutex _ => True
  | _ => False

/-- The condition variable has not returned yet. -/
def Pc.InWait : Pc → Prop
  | .asleep .. | .waitRelock .. => True
  | _ => False

def Pc.IsRelock : Pc → Prop
  | .relockMutex _ => True
  | _ => False

/-- The steps that unlock the mutex. -/
def Pc.Unlocks : Pc → Prop
  | .dropMutex _ | .waitSleep .. | .unlockMutex .. | .dropRaw | .waitHandshakeDropRaw .. => True
  | _ => False

/-- Steps and frames of the methods other than `wait_with_handshake`. -/
def Pc.Direct : Pc → Prop
  | .dropCount c | .dropHolder c | .dropMutex c | .waitSwapCount c | .waitSwapHolder c _
  | .waitSleep c .. | .asleep c .. | .waitRelock c .. | .waitStoreCount c ..
  | .waitStoreHolder c _ | .unlockLoad c | .unlockStoreCount c _ | .unlockHolder c _
  | .unlockMutex c _ => c = .direct
  | .waitHandshakeMutex .. | .waitHandshakeAttempt .. | .waitHandshakeDropRaw ..
  | .waitHandshakeHolder .. | .waitHandshakeCount .. => False
  | _ => True

/-- All guards of a thread, those set aside by unlocked actions included. -/
def Local.liveGuards (l : Local) : ℕ := l.guards + (l.frames.map Frame.guards).sum

/-- Inside an unlocked action, without a guard taken since it began. -/
def Local.Unlocked (l : Local) : Prop :=
  l.pc.IsRelock ∨ l.guards = 0 ∧ ∃ f ∈ l.frames, f.resume.IsRelock

structure Local.IsDirect (l : Local) : Prop where
  pc : l.pc.Direct
  frames : ∀ f ∈ l.frames, f.resume = .handshakeMutex ∨ f.resume.IsRelock

variable {τ : Type*}

/-- What the cells say of one thread. -/
structure Consistent (ids : ThreadIds τ) (s : State τ) (t : τ) : Prop where
  held : s.mutex = some t ↔ s.holder = ids.slot t
  live : s.holder = ids.slot t ↔
    0 < (s.threads t).liveGuards ∧ ¬ (s.threads t).pc.InWait ∧ ¬ (s.threads t).Unlocked
  count : s.mutex = some t → s.recCount = (s.threads t).guards

/-- There is no `wait_with_handshake`, and actions return. -/
def NoHandshakeWait (_ : State τ) : Label τ → Prop
  | .start _ op => op ≠ .waitWithHandshake ∧ op ≠ .unwind
  | _ => True

instance : ∀ (s : State τ) (a : Label τ), Decidable (NoHandshakeWait s a)
  | _, .start .. => inferInstanceAs (Decidable (_ ∧ _))
  | _, .step _ | _, .attempt .. | _, .wake _ => inferInstanceAs (Decidable True)

/-- An action uses no guard that was taken before it began, and leaves none behind. -/
def Op.OwnGuards : Op → Prop
  | .capture _ | .giveBack _ => False
  | _ => True

instance : ∀ op : Op, Decidable op.OwnGuards
  | .capture _ | .giveBack _ => inferInstanceAs (Decidable False)
  | .lockNoHandshake | .lockWithHandshake | .drop | .waitNoHandshake | .unlockedNoHandshake
  | .waitWithHandshake | .endFrame | .unwind => inferInstanceAs (Decidable True)

def OwnGuards (_ : State τ) : Label τ → Prop
  | .start _ op => op.OwnGuards
  | _ => True

instance : ∀ (s : State τ) (a : Label τ), Decidable (OwnGuards s a)
  | _, .start _ op => inferInstanceAs (Decidable op.OwnGuards)
  | _, .step _ | _, .attempt .. | _, .wake _ => inferInstanceAs (Decidable True)

theorem Op.orderly_of_ownGuards {op : Op} (hu : op ≠ .unwind) (ho : op.OwnGuards) :
    op.Orderly := by
  cases op
  case unwind => exact hu rfl
  case capture | giveBack => exact ho
  all_goals trivial

section Local

variable {l : Local} {slot : ℕ}

theorem FramesOk.resume {floor : ℕ} {fs : List Frame} (h : FramesOk slot floor fs) {f : Frame}
    (hf : f ∈ fs) : f.resume.Ok slot f.guards f.floor := by
  induction fs generalizing floor with
  | nil => cases hf
  | cons g fs ih =>
    rcases List.mem_cons.mp hf with rfl | hf
    · exact h.2.1
    · exact ih h.2.2.2 hf

/-- A thread without guards of its own frame has set the others aside. -/
theorem Local.unlocked_of_live (hl : LocalOk slot l) (hd : l.IsDirect) (hg : l.guards = 0)
    (hlive : 0 < l.liveGuards) : l.Unlocked := by
  rw [liveGuards, hg, Nat.zero_add] at hlive
  obtain ⟨f, hf, hpos⟩ : ∃ f ∈ l.frames, 0 < f.guards := by
    by_contra hno
    have hz : ∀ n ∈ l.frames.map Frame.guards, n = 0 := by
      intro n hn
      obtain ⟨f, hf, rfl⟩ := List.mem_map.mp hn
      exact Nat.eq_zero_of_not_pos fun hp => hno ⟨f, hf, hp⟩
    have hsum : (l.frames.map Frame.guards).sum = 0 := List.sum_eq_zero_iff_forall_eq_nat.mpr hz
    omega
  rcases hd.frames f hf with hr | hr
  · have h0 := hl.frames.resume hf
    rw [hr] at h0
    exact absurd h0 (Nat.ne_of_gt hpos)
  · exact .inr ⟨hg, f, hf, hr⟩

theorem Local.IsDirect.goto (hd : l.IsDirect) {pc : Pc} {g : ℕ} (hpc : pc.Direct) :
    Local.IsDirect ⟨pc, g, l.floor, l.frames⟩ := ⟨hpc, hd.frames⟩

theorem Local.IsDirect.enter (hd : l.IsDirect) {pc : Pc} {g f : ℕ}
    (hpc : pc = .handshakeMutex ∨ pc.IsRelock) :
    Local.IsDirect ⟨.idle, 0, 0, ⟨pc, g, f⟩ :: l.frames⟩ :=
  ⟨trivial, fun _ hm => (List.mem_cons.mp hm).elim (fun e => e ▸ hpc) (hd.frames _)⟩

end Local

variable {ids : ThreadIds τ} {s s' : State τ} {t u : τ}

theorem Inv.consistent (h : Inv ids s) (hd : (s.threads t).IsDirect)
    (hq : (s.threads t).pc.Quiet) : Consistent ids s t := by
  have hl := h.locals t
  have hmutex := h.mutex t
  have hholder := h.holder_eq_slot_iff (t := t)
  have hsets := Local.unlocked_of_live hl hd
  have hcount := h.recCount t
  -- a thread that is not idle is outside, and its guards are set aside or in a wait
  have hout : ¬ (s.threads t).Owns → ((s.threads t).guards = 0 ∨ (s.threads t).pc.InWait ∨
      (s.threads t).Unlocked) → Consistent ids s t := by
    intro ho hwhy
    have hm : s.mutex ≠ some t := fun e => ho (hmutex.mp e)
    refine ⟨by simp [hholder, hm], ?_, fun e => absurd e hm⟩
    rw [hholder]
    refine ⟨fun e => absurd e.1 hm, fun ⟨hlive, hw, hu⟩ => ?_⟩
    rcases hwhy with hg | hw' | hu'
    · exact absurd (hsets hg hlive) hu
    · exact absurd hw' hw
    · exact absurd hu' hu
  by_cases ho : (s.threads t).Owns
  · have hpc : (s.threads t).pc = .idle := by
      unfold Local.Owns at ho
      cases hpc : (s.threads t).pc <;> simp_all [Pc.Owns, Pc.Quiet]
    have hg : 0 < (s.threads t).guards := by simpa [Local.Owns, hpc, Pc.Owns] using ho
    have hm := hmutex.mpr ho
    have hs := (h.holder_idle hpc).mpr hg
    refine ⟨by simp [hm, hs], ?_, fun _ => by simpa [hpc, Pc.recCell] using hcount hm⟩
    refine iff_of_true hs ⟨Nat.add_pos_left hg _, ?_, ?_⟩
    · simp [hpc, Pc.InWait]
    · simp [Local.Unlocked, hpc, Pc.IsRelock, Nat.ne_of_gt hg]
  · have hok := hl.pc
    apply hout ho
    unfold Local.Owns at ho
    cases hpc : (s.threads t).pc with
    | idle => exact .inl (by simpa [hpc, Pc.Owns] using ho)
    | lockMutex => rw [hpc] at hok; exact .inl hok
    | handshakeMutex => rw [hpc] at hok; exact .inl hok
    | asleep => exact .inr (.inl trivial)
    | waitRelock => exact .inr (.inl trivial)
    | relockMutex => exact .inr (.inr (.inl (by rw [hpc]; trivial)))
    | _ => simp [hpc, Pc.Quiet] at hq

theorem Local.IsDirect.returning (hd : (s.threads t).IsDirect) : returning s t = none := by
  have hpc := hd.pc
  unfold Monitor.returning
  split <;> simp_all [Pc.Direct]

variable [DecidableEq τ]

theorem isDirect_update {l : Local} (h : ∀ u, (s.threads u).IsDirect) (hl : l.IsDirect)
    (u : τ) : (Function.update s.threads t l u).IsDirect := by
  by_cases hu : u = t
  · subst hu; simpa using hl
  · simpa [hu] using h u

theorem isDirect_acquire {pc : Pc} (h : ∀ u, (s.threads u).IsDirect) (hpc : pc.Direct)
    (hs : s.acquire t pc = some s') (u : τ) : (s'.threads u).IsDirect := by
  obtain ⟨-, rfl⟩ := State.acquire_eq_some.mp hs
  exact isDirect_update h ((h t).goto hpc) u

theorem isDirect_start {op : Op} (h : ∀ u, (s.threads u).IsDirect) (hop : op ≠ .waitWithHandshake)
    (ho : op.Orderly) (hs : startOp ids s t op = some s') (u : τ) : (s'.threads u).IsDirect := by
  have hd := h t
  unfold startOp at hs
  dsimp only at hs
  split at hs
  · cases hs
  cases op with
  | lockNoHandshake =>
    obtain rfl := Option.some.inj hs
    exact isDirect_update h (hd.goto (by split <;> trivial)) u
  | lockWithHandshake =>
    obtain rfl := Option.some.inj hs
    split
    · exact isDirect_update h (hd.enter (.inl rfl)) u
    · exact isDirect_update h (hd.goto (by trivial)) u
  | drop | waitNoHandshake | unlockedNoHandshake =>
    dsimp only at hs
    split at hs
    · obtain rfl := Option.some.inj hs
      exact isDirect_update h (hd.goto (by exact rfl)) u
    · cases hs
  | waitWithHandshake => exact absurd rfl hop
  | endFrame =>
    cases hf : (s.threads t).frames with
    | nil => simp [hf] at hs
    | cons f fs =>
      simp only [hf] at hs
      split at hs
      · obtain rfl := Option.some.inj hs
        have hfr := hd.frames
        simp only [hf, List.mem_cons, forall_eq_or_imp] at hfr
        refine isDirect_update h ⟨?_, hfr.2⟩ u
        rcases hfr.1 with hr | hr
        · exact hr ▸ trivial
        · cases hp : f.resume <;> simp_all [Pc.IsRelock, Pc.Direct]
      · cases hs
  | unwind | capture | giveBack => cases ho

theorem isDirect_threadStep (h : ∀ u, (s.threads u).IsDirect)
    (hs : threadStep ids s t = some s') (u : τ) : (s'.threads u).IsDirect := by
  have hd := h t
  have hpcd := hd.pc
  unfold threadStep at hs
  cases hpc : (s.threads t).pc
  all_goals
    simp only [hpc] at hs hpcd
    try cases hs
  case lockMutex | handshakeMutex | relockMutex => exact isDirect_acquire h (by trivial) hs u
  case waitRelock c rec holder => exact isDirect_acquire h (by exact hpcd) hs u
  case waitHandshakeMutex | waitHandshakeDropRaw | waitHandshakeHolder | waitHandshakeCount =>
    exact hpcd.elim
  case dropRaw => exact isDirect_update h (hd.enter (.inl rfl)) u
  case unlockMutex c rec =>
    obtain rfl : c = .direct := hpcd
    exact isDirect_update h (hd.enter (.inr (by trivial))) u
  case dropCount c =>
    exact isDirect_update h (hd.goto (by split <;> first | exact hpcd | trivial)) u
  case waitStoreHolder c holder =>
    obtain rfl : c = .direct := hpcd
    exact isDirect_update h (hd.goto (by trivial)) u
  all_goals exact isDirect_update h (hd.goto (by first | exact hpcd | trivial)) u

theorem isDirect_step {a : Label τ} (h : ∀ u, (s.threads u).IsDirect) (hc : NoHandshakeWait s a)
    (ho : OwnGuards s a) (hs : step ids s a = some s') (u : τ) : (s'.threads u).IsDirect := by
  cases a with
  | start t op => exact isDirect_start h hc.1 (Op.orderly_of_ownGuards hc.2 ho) hs u
  | step t => exact isDirect_threadStep h hs u
  | attempt t left =>
    have hd := h t
    unfold step at hs
    dsimp only at hs
    split at hs
    · obtain rfl := Option.some.inj hs
      exact isDirect_update h (hd.goto (by split <;> trivial)) u
    · next hpc => exact absurd hd.pc (by simp [hpc, Pc.Direct])
    · cases hs
  | wake t =>
    have hd := h t
    unfold step at hs
    dsimp only at hs
    split at hs
    · next hpc =>
      obtain rfl := Option.some.inj hs
      refine isDirect_update h (hd.goto ?_) u
      simpa [hpc, Pc.Direct] using hd.pc
    · cases hs

/-- While some thread has the mutex, another one can only unlock it. -/
theorem mutex_threadStep (hm : s.mutex = some u) (hs : threadStep ids s t = some s') :
    ((s.threads t).pc.Unlocks → s'.mutex = none) ∧
      (¬ (s.threads t).pc.Unlocks → s'.mutex = some u) := by
  unfold threadStep State.acquire at hs
  cases hpc : (s.threads t).pc
  all_goals
    simp only [hpc, hm, reduceCtorEq, if_false] at hs
    try cases hs
  case dropRaw | dropMutex | waitSleep | unlockMutex | waitHandshakeDropRaw =>
    exact ⟨fun _ => rfl, fun hn => absurd trivial hn⟩
  case unlockLoad => exact ⟨fun hn => hn.elim, fun _ => hm⟩
  all_goals exact ⟨fun hn => hn.elim, fun _ => rfl⟩

theorem Inv.unlocks_iff (h : Inv ids s) {a : Label τ} (hs : Monitor.step ids s a = some s')
    (hm : s.mutex = some t) :
    s'.mutex ≠ some t ↔ a = .step t ∧ (s.threads t).pc.Unlocks := by
  cases a with
  | start u op => simp [startOp_mutex hs, hm]
  | step u =>
    obtain ⟨hyes, hno⟩ := mutex_threadStep hm hs
    by_cases hu : (s.threads u).pc.Unlocks
    · have ho : (s.threads u).Owns := by
        unfold Local.Owns
        cases hpc : (s.threads u).pc <;> simp_all [Pc.Owns, Pc.Unlocks]
      obtain rfl : t = u := h.owner_unique ((h.mutex t).mp hm) ho
      simp [hyes hu, hu]
    · simp only [hno hu, ne_eq, not_true_eq_false, false_iff, Label.step.injEq]
      rintro ⟨rfl, hu'⟩
      exact hu hu'
  | attempt u left =>
    unfold Monitor.step at hs
    dsimp only at hs
    split at hs <;> cases hs <;> simp [State.goto, State.setLocal, hm]
  | wake u =>
    unfold Monitor.step at hs
    dsimp only at hs
    split at hs <;> cases hs
    simp [State.goto, State.setLocal, hm]

/-- The first step of a drop tells whether the guard was the last one. -/
theorem Inv.drop_last (h : Inv ids s) (hpc : (s.threads t).pc = .dropCount .direct)
    (hs : Monitor.step ids s (.step t) = some s') :
    (s'.threads t).pc = if (s'.threads t).guards = 0 then .dropHolder .direct else .idle := by
  have hok := (h.locals t).pc
  have hr := h.recCount t ((h.mutex t).mpr (by rw [Local.Owns, hpc]; trivial))
  rw [hpc] at hok hr
  simp only [Pc.Ok, Pc.recCell] at hok hr
  simp only [Monitor.step, Monitor.threadStep, hpc, Option.some.injEq] at hs
  subst hs
  simp only [State.setLocal, Function.update_self]
  by_cases h1 : s.recCount = 1
  · rw [if_pos h1, if_pos (by omega)]
  · rw [if_neg h1, if_neg (by omega)]

/-- The invariant of the runs without `wait_with_handshake`. -/
structure DirectInv (ids : ThreadIds τ) (s : State τ) : Prop where
  inv : Inv ids s
  direct : ∀ t, (s.threads t).IsDirect

theorem directInv_of_reachable
    (h : (machine ids).ReachableUnder (fun s a => NoHandshakeWait s a ∧ OwnGuards s a) s) :
    DirectInv ids s := by
  refine h.invariant ?_ ?_
  · rintro _ rfl
    exact ⟨Inv.new ids, fun _ => ⟨trivial, nofun⟩⟩
  · intro s a s' ⟨hi, hd⟩ ⟨hc, ho⟩ hs
    refine ⟨hi.step ?_ hs, isDirect_step hd hc ho hs⟩
    cases a with
    | start u op => exact Op.orderly_of_ownGuards hc.2 ho
    | step u => exact (hd u).returning
    | attempt | wake => trivial

/--
Without `wait_with_handshake`, and with actions that keep to their own guards: when no thread is
inside a method, the cells are consistent with the live guards; at most one thread is inside; and
the mutex is given up only by the drop of the last guard, a wait, an unlocked action, or a
`lock_with_handshake` that has no guard yet.
-/
theorem monitor_consistent
    (h : (machine ids).ReachableUnder (fun s a => NoHandshakeWait s a ∧ OwnGuards s a) s) :
    ((∀ t, (s.threads t).pc.Quiet) →
      (∀ t, Consistent ids s t) ∧ (s.mutex = none → s.holder = 0 ∧ s.recCount = 0)) ∧
    (∀ t u, (s.threads t).Owns → (s.threads u).Owns → t = u) ∧
    ∀ a s' t, step ids s a = some s' → s.mutex = some t →
      (s'.mutex ≠ some t ↔ a = .step t ∧ (s.threads t).pc.Unlocks) ∧
      ((s.threads t).pc = .dropMutex .direct → (s.threads t).guards = 0) ∧
      (a = .step t → (s.threads t).pc = .dropCount .direct →
        (s'.threads t).pc = if (s'.threads t).guards = 0 then .dropHolder .direct else .idle) := by
  obtain ⟨hi, hd⟩ := directInv_of_reachable h
  refine ⟨fun hq => ⟨fun t => hi.consistent (hd t) (hq t), hi.free⟩,
    fun t u => hi.owner_unique, fun a s' t hs hm => ⟨hi.unlocks_iff hs hm, fun hpc => ?_, ?_⟩⟩
  · have hok := (hi.locals t).pc
    rwa [hpc] at hok
  · rintro rfl hpc
    exact hi.drop_last hpc hs

theorem monitor_consistent_recursive : ∃ s s',
    (machine .pair).exec State.new [.start true .lockNoHandshake, .step true, .step true,
      .step true, .start true .lockWithHandshake, .step true] = some s ∧
    (s.mutex = some true ↔ s.holder = 2) ∧ s.recCount = (s.threads true).guards ∧
    s.recCount = 2 ∧ step .pair s (.start true .drop) = some s' ∧ s'.mutex = some true := by
  have h := monitor_consistent (.checkedExec (.init rfl)
    (rfl : (machine .pair).checkedExec _ State.new [.start true .lockNoHandshake, .step true,
      .step true, .step true, .start true .lockWithHandshake, .step true] = some _))
  obtain ⟨hcons, -⟩ := h.1 fun | true => trivial | false => trivial
  refine ⟨_, _, rfl, (hcons true).held, (hcons true).count rfl, rfl, rfl, ?_⟩
  by_contra hm
  exact nomatch ((h.2.2 (.start true .drop) _ true rfl rfl).1.mp hm).1

/--
A thread locks the monitor twice. An action of an unlocked call on the second guard drops the first
one, and the second one is dropped after the call.
-/
def outerDropRun : List (Label Bool) :=
  [.start true .lockNoHandshake, .step true, .step true, .step true,
    .start true .lockNoHandshake, .step true, .start true .unlockedNoHandshake, .step true,
    .step true, .step true, .step true, .start true (.capture 0), .start true .drop, .step true,
    .start true .endFrame, .step true, .step true, .step true, .start true .drop, .step true]

/-- The count that is restored after the action counts the guard that was dropped in it. -/
theorem outer_drop_never_unlocks : ¬ ∀ s : State Bool,
    (machine .pair).ReachableUnder NoHandshakeWait s → (∀ t, (s.threads t).pc.Quiet) →
      ∀ t, Consistent .pair s t := by
  intro h
  have hrun : (machine .pair).checkedExec NoHandshakeWait State.new outerDropRun = some _ := rfl
  have hcons := h _ (.checkedExec (.init rfl) hrun)
    (fun | true => trivial | false => trivial) true
  exact absurd (hcons.live.mp rfl).1 (Nat.lt_irrefl 0)

end VmkitCore.Monitor
