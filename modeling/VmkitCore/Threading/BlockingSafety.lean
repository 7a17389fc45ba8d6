import VmkitCore.Threading.BlockingInvariant

/-! # A blocked thread runs no managed code

The steps of the requesters keep the blocking invariant too. So in every run a
target with a blocked flag is parked, and it goes back to managed code only when
no adapter blocks it and every pending request is still being made.
-/

namespace VmkitCore.Blocking

variable {ι ρ : Type*} [DecidableEq ι]

namespace Inv

variable {as : List (BlockAdapter ι)} {s : State ι ρ}

theorem others (h : Inv as s) {r u : ρ} (hr : (s.requesters r).holds = true) (hu : u ≠ r) :
    (s.requesters u).holds = false := by
  by_contra hn
  have hn := (h.requester u).mpr (by simpa using hn)
  rw [(h.requester r).mpr hr] at hn
  exact hu (Holder.requester.inj (Option.some.inj hn)).symm

theorem target_out (h : Inv as s) {r : ρ} (hr : (s.requesters r).holds = true) :
    s.pc.holds = false := by
  by_contra hn
  rw [h.not_holds_of_target (by simpa using hn) r] at hr
  cases hr

variable [DecidableEq ρ]

/-- A step of a requester, given what it leaves behind. -/
theorem requester_step (h : Inv as s) {r : ρ} {t : Thread ι} {m : Option (Holder ρ)}
    {q : Requester ι} (hm : RequesterMonitor s r m q) (hst : s.pc.allows t.execStatus = true)
    (hd : t.isAboutToTerminate = s.thread.isAboutToTerminate)
    (hb : ∀ i, .flags i ∈ as → t.isBlockedFor i = true → s.pc.mayBlock t.execStatus = true)
    (hp : ∀ i, .flags i ∈ as → t.shouldBlockFor i = true →
      (q.pc.requests i = true ∨ ∃ u, u ≠ r ∧ (s.requesters u).pc.requests i = true) ∨
        s.pc.willAcknowledge = true ∨ t.execStatus = .inManagedToBlock ∨ s.pc.dying = true)
    (ha : s.pc.acknowledged = true → ∀ i, .flags i ∈ as → t.shouldBlockFor i = false)
    (hq : q.pc.Sees t.execStatus (s.pc.stuck t.execStatus))
    (ho : ∀ u, u ≠ r → (s.requesters u).pc.Sees t.execStatus (s.pc.stuck t.execStatus)) :
    Inv as ⟨t, m, s.pc, Function.update s.requesters r q⟩ := by
  refine ⟨?_, fun u => ?_, hst, hd.trans h.dying, hb, fun i hi hsi => ?_, ha, fun u => ?_⟩
  · rcases hm with ⟨rfl, -⟩ | ⟨hn, rfl, -⟩ | ⟨hr, rfl, -⟩
    · exact h.target
    · have hne : ¬ s.monitor = some .target := by simp [hn]
      simpa using fun hh => hne (h.target.mpr hh)
    · simp [h.target_out hr]
  · by_cases hu : u = r
    · subst hu
      rcases hm with ⟨rfl, hh⟩ | ⟨-, rfl, hh⟩ | ⟨-, rfl, hh⟩
      · simpa [hh] using h.requester u
      · simp [hh]
      · simp [hh]
    · rcases hm with ⟨rfl, -⟩ | ⟨hn, rfl, -⟩ | ⟨hr, rfl, -⟩
      · simpa [hu] using h.requester u
      · simp [hu, h.not_holds_of_none hn u, Ne.symm hu]
      · simp [hu, h.others hr hu]
  · apply (hp i hi hsi).imp_left
    intro hor
    rcases hor with hr | ⟨u, hu, hr⟩
    · exact ⟨r, by simpa using hr⟩
    · exact ⟨u, by simpa [hu] using hr⟩
  · by_cases hu : u = r
    · subst hu; simpa using hq
    · simpa [hu] using ho u hu

/-- A requester that leaves the cells of the target alone, or writes `take_yieldpoint`. -/
theorem requester_move (h : Inv as s) {r : ρ} {t : Thread ι} {m : Option (Holder ρ)}
    {q : Requester ι} (hm : RequesterMonitor s r m q) (ht : t.Agrees s.thread)
    (hp : ∀ i, (s.requesters r).pc.requests i = true →
      q.pc.requests i = true ∨ s.thread.execStatus = .inManagedToBlock ∨ s.pc.dying = true)
    (hq : q.pc.Sees s.thread.execStatus (s.pc.stuck s.thread.execStatus)) :
    Inv as ⟨t, m, s.pc, Function.update s.requesters r q⟩ := by
  obtain ⟨he, hab, hbl, hsh⟩ := ht
  refine h.requester_step hm (he ▸ h.status) hab (fun i hi hbi => ?_) (fun i hi hsi => ?_)
    (fun hack i hi => hsh ▸ h.acknowledged hack i hi) (he ▸ hq) (fun u _ => he ▸ h.sees u)
  · rw [he]
    exact h.blocked i hi (hbl ▸ hbi)
  · rw [he]
    rcases h.pending i hi (hsh ▸ hsi) with ⟨u, hu⟩ | hor
    · by_cases hur : u = r
      · subst hur
        rcases hp i hu with hp | hp | hp
        · exact .inl (.inl hp)
        · exact .inr (.inr (.inl hp))
        · exact .inr (.inr (.inr hp))
      · exact .inl (.inr ⟨u, hur, hu⟩)
    · exact .inr hor

/-- A requester that has the monitor and writes the flags of the target. -/
theorem requester_write (h : Inv as s) {r : ρ} {t : Thread ι} {q : Requester ι}
    (hr : (s.requesters r).holds = true) (hq : q.holds = true)
    (hst : s.pc.allows t.execStatus = true)
    (hd : t.isAboutToTerminate = s.thread.isAboutToTerminate)
    (hb : ∀ i, .flags i ∈ as → t.isBlockedFor i = true → s.pc.mayBlock t.execStatus = true)
    (hp : ∀ i, .flags i ∈ as → t.shouldBlockFor i = true → q.pc.requests i = true ∨
      s.pc.willAcknowledge = true ∨ t.execStatus = .inManagedToBlock ∨ s.pc.dying = true)
    (hsee : q.pc.Sees t.execStatus (s.pc.stuck t.execStatus)) :
    Inv as ⟨t, s.monitor, s.pc, Function.update s.requesters r q⟩ := by
  have hout := h.target_out hr
  refine h.requester_step (.inl ⟨rfl, hq.trans hr.symm⟩) hst hd hb
    (fun i hi hsi => (hp i hi hsi).imp_left .inl) (fun hack => ?_) hsee
    (fun u hu => Requester.sees_of_not_holds (h.others hr hu) _ _)
  rw [Pc.holds_of_acknowledged hack] at hout
  cases hout

/-- Whoever has the monitor is the only one inside `block_unchecked`. -/
theorem pending_of_holds (h : Inv as s) {r : ρ} (hr : (s.requesters r).holds = true) {i : ι}
    (hi : .flags i ∈ as) (hsi : s.thread.shouldBlockFor i = true) :
    (s.requesters r).pc.requests i = true ∨ s.pc.willAcknowledge = true ∨
      s.thread.execStatus = .inManagedToBlock ∨ s.pc.dying = true := by
  refine (h.pending i hi hsi).imp_left fun ⟨u, hu⟩ => ?_
  by_cases hur : u = r
  · exact hur ▸ hu
  · have hn := h.others hr hur
    rw [Requester.holds_of_requests hu] at hn
    cases hn

theorem acquireFor (h : Inv as s) {r : ρ} {q : Requester ι} {s' : State ι ρ}
    (hs : s.acquireFor r q = some s') (hq : q.holds = true)
    (hp : ∀ i, (s.requesters r).pc.requests i = false)
    (hsee : q.pc.Sees s.thread.execStatus (s.pc.stuck s.thread.execStatus)) : Inv as s' := by
  obtain ⟨hm, rfl⟩ := State.acquireFor_eq_some.mp hs
  exact h.requester_move (.inr (.inl ⟨hm, rfl, hq⟩)) ⟨rfl, rfl, rfl, rfl⟩
    (fun i hi => absurd hi (by simp [hp])) hsee

theorem finish (h : Inv as s) {r : ρ} (hr : (s.requesters r).holds = true)
    (hp : ∀ i, (s.requesters r).pc.requests i = false) : Inv as (s.finish r) := by
  refine h.requester_move ?_ ⟨rfl, rfl, rfl, rfl⟩ (fun i hi => absurd hi (by simp [hp])) trivial
  cases ho : (s.requesters r).outer
  · exact .inr (.inr ⟨hr, by simp, ho⟩)
  · exact .inl ⟨by simp, ho.trans hr.symm⟩

theorem request (h : Inv as s) {r : ρ} {op : RequesterOp ι} {s' : State ι ρ}
    (hs : Blocking.request s r op = some s') : Inv as s' := by
  obtain ⟨hpc, hs⟩ := request_eq_some.mp hs
  have hp : ∀ i, (s.requesters r).pc.requests i = false := fun i => by rw [hpc]; rfl
  have hh : (s.requesters r).holds = (s.requesters r).outer := by
    rw [Requester.holds, hpc]
  have hmove : ∀ q : Requester ι, q.holds = (s.requesters r).outer → q.pc.Sees
      s.thread.execStatus (s.pc.stuck s.thread.execStatus) → Inv as (s.setRequester r q) :=
    fun q hq hsee => h.requester_move (.inl ⟨rfl, hq.trans hh.symm⟩) ⟨rfl, rfl, rfl, rfl⟩
      (fun i hi => absurd hi (by simp [hp])) hsee
  cases op with
  | lock =>
    obtain ⟨ho, rfl⟩ := hs
    exact hmove _ ho.symm trivial
  | unlock =>
    obtain ⟨ho, rfl⟩ := hs
    have hq : { s.requesters r with outer := false }.holds = false := by
      rw [Requester.holds, hpc]
    exact h.requester_move (.inr (.inr ⟨hh.trans ho, rfl, hq⟩)) ⟨rfl, rfl, rfl, rfl⟩
      (fun i hi => absurd hi (by simp [hp])) (by rw [hpc]; trivial)
  | blockUnchecked a async =>
    subst hs
    exact hmove _ rfl trivial
  | unblock a =>
    subst hs
    exact hmove _ rfl trivial

/-- The successful exchange of `set_blocked_exec_status`. -/
theorem exchange (h : Inv as s) {r : ρ} {a : BlockAdapter ι} {async : Bool}
    (hpc : (s.requesters r).pc = .statusCas a async s.thread.execStatus) (res : ThreadState) :
    Inv as ({ s with thread :=
      { s.thread with execStatus := blockedStatus s.thread.execStatus } }.setRequester r
      ⟨.blockNotify a async (blockedStatus s.thread.execStatus), (s.requesters r).outer, res⟩) := by
  have hr : (s.requesters r).holds = true := by rw [Requester.holds, hpc]
  refine h.requester_write hr rfl (Pc.allows_blockedStatus h.status) rfl (fun i hi hbi => ?_)
    (fun i hi hsi => ?_) ⟨rfl, Pc.stuck_blockedStatus (h.target_out hr) h.status⟩
  · exact Pc.mayBlock_blockedStatus (h.blocked i hi hbi)
  · have hp := h.pending_of_holds hr hi hsi
    rw [hpc] at hp
    refine hp.imp_right (Or.imp_right (Or.imp_left fun he => ?_))
    show blockedStatus s.thread.execStatus = _
    rw [he]; rfl

/-- `notify_all` of a requester, which does not sleep itself. -/
theorem notify (h : Inv as s) {r : ρ} {pc : RequesterPc ι}
    (hw : (s.requesters r).pc.wake = (s.requesters r).pc)
    (hq : Requester.holds ⟨pc, (s.requesters r).outer, (s.requesters r).result⟩ =
      (s.requesters r).holds)
    (hp : ∀ i, (s.requesters r).pc.requests i = true →
      pc.requests i = true ∨ s.thread.execStatus = .inManagedToBlock ∨ s.pc.dying = true)
    (hsee : pc.Sees s.thread.execStatus (s.pc.stuck s.thread.execStatus)) :
    Inv as (s.notifyAll.goto r pc) := by
  have hr : s.notifyAll.requesters r = s.requesters r := by
    simp [State.notifyAll, hw]
  unfold State.goto
  rw [hr]
  refine h.notifyAll.requester_move (.inl ⟨rfl, by rw [hr]; exact hq⟩) ⟨rfl, rfl, rfl, rfl⟩ ?_ ?_
  · rw [hr]
    simpa [State.notifyAll] using hp
  · simpa [State.notifyAll] using hsee

theorem requestBlock (h : Inv as s) {r : ρ} {a : BlockAdapter ι} {async : Bool}
    (hpc : (s.requesters r).pc = .blockRequest a async) :
    Inv as ({ s with thread := a.requestBlock s.thread }.goto r (.blockTerminate a async)) := by
  have hr : (s.requesters r).holds = true := by rw [Requester.holds, hpc]
  have hp := fun i => h.pending_of_holds hr (i := i)
  rw [hpc] at hp
  cases a with
  | unit =>
    refine h.requester_write hr rfl h.status rfl h.blocked (fun i hi hsi => ?_) trivial
    exact (hp i hi hsi).imp_left (by simp [RequesterPc.requests])
  | flags j =>
    refine h.requester_write hr rfl h.status rfl h.blocked (fun i hi hsi => ?_) trivial
    by_cases hij : i = j
    · subst hij
      exact .inl (by simp [RequesterPc.requests])
    · have hsi : s.thread.shouldBlockFor i = true := by
        simpa [BlockAdapter.requestBlock, hij] using hsi
      exact (hp i hi hsi).imp_left (by simp [RequesterPc.requests])

/-- Clearing a request leaves no request of another adapter behind. -/
theorem clearBlock (h : Inv as s) {r : ρ} {a : BlockAdapter ι} {pc : RequesterPc ι}
    (hpc : (s.requesters r).pc = .blockClear a ∧ pc = .blockMark a ∨
      (s.requesters r).pc = .unblockClear a ∧ pc = .unblockMark a) :
    Inv as ({ s with thread := a.clearBlockRequest s.thread }.goto r pc) := by
  have hr : (s.requesters r).holds = true := by
    rcases hpc with ⟨hpc, -⟩ | ⟨hpc, -⟩ <;> rw [Requester.holds, hpc]
  have hq : Requester.holds ⟨pc, (s.requesters r).outer, (s.requesters r).result⟩ = true := by
    rcases hpc with ⟨-, rfl⟩ | ⟨-, rfl⟩ <;> rfl
  have hsee : pc.Sees s.thread.execStatus (s.pc.stuck s.thread.execStatus) := by
    have hsee := h.sees r
    rcases hpc with ⟨hpc, rfl⟩ | ⟨hpc, rfl⟩
    · rw [hpc] at hsee; exact hsee
    · trivial
  have hp : ∀ i, .flags i ∈ as → (a.clearBlockRequest s.thread).shouldBlockFor i = true →
      s.thread.shouldBlockFor i = true ∧ (s.requesters r).pc.requests i = false := by
    intro i _ hsi
    cases a with
    | unit => rcases hpc with ⟨hpc, -⟩ | ⟨hpc, -⟩ <;> exact ⟨hsi, by rw [hpc]; rfl⟩
    | flags j =>
      by_cases hij : i = j
      · simp [BlockAdapter.clearBlockRequest, hij] at hsi
      · refine ⟨by simpa [BlockAdapter.clearBlockRequest, hij] using hsi, ?_⟩
        rcases hpc with ⟨hpc, -⟩ | ⟨hpc, -⟩ <;> simp [hpc, RequesterPc.requests, Ne.symm hij]
  have hthread : (a.clearBlockRequest s.thread).execStatus = s.thread.execStatus ∧
      (a.clearBlockRequest s.thread).isAboutToTerminate = s.thread.isAboutToTerminate ∧
      (a.clearBlockRequest s.thread).isBlockedFor = s.thread.isBlockedFor := by
    cases a <;> exact ⟨rfl, rfl, rfl⟩
  obtain ⟨he, hab, hbl⟩ := hthread
  refine h.requester_write hr hq (he ▸ h.status) hab (fun i hi hbi => ?_) (fun i hi hsi => ?_)
    (he ▸ hsee)
  · rw [he]
    exact h.blocked i hi (hbl ▸ hbi)
  · obtain ⟨hsi, hn⟩ := hp i hi hsi
    rw [he]
    exact (h.pending_of_holds hr hi hsi).imp_left fun hy => by rw [hn] at hy; cases hy

/-- Setting a blocked flag needs a stuck target; clearing one does not. -/
theorem setBlocked (h : Inv as s) {r : ρ} {a : BlockAdapter ι} {v : Bool} {pc : RequesterPc ι}
    (hpc : (s.requesters r).pc = .blockMark a ∧ pc = .blockUnlock ∨
      (s.requesters r).pc = .unblockMark a ∧ pc = .unblockNotify ∧ v = false) :
    Inv as ({ s with thread := a.setBlocked v s.thread }.goto r pc) := by
  have hr : (s.requesters r).holds = true := by
    rcases hpc with ⟨hpc, -⟩ | ⟨hpc, -⟩ <;> rw [Requester.holds, hpc]
  have hq : Requester.holds ⟨pc, (s.requesters r).outer, (s.requesters r).result⟩ = true := by
    rcases hpc with ⟨-, rfl⟩ | ⟨-, rfl, -⟩ <;> rfl
  have hsee : ∀ st b, pc.Sees st b := by
    rcases hpc with ⟨-, rfl⟩ | ⟨-, rfl, -⟩ <;> exact fun _ _ => trivial
  have hp : ∀ i, (s.requesters r).pc.requests i = false := by
    rcases hpc with ⟨hpc, -⟩ | ⟨hpc, -⟩ <;> exact fun i => by rw [hpc]; rfl
  have hb : ∀ i, .flags i ∈ as → (a.setBlocked v s.thread).isBlockedFor i = true →
      s.pc.mayBlock s.thread.execStatus = true := by
    intro i hi hbi
    rcases hpc with ⟨hpc, -⟩ | ⟨-, -, rfl⟩
    · have hs := h.sees r
      rw [hpc] at hs
      exact Pc.mayBlock_of_stuck hs.2
    · apply h.blocked i hi
      cases a with
      | unit => exact hbi
      | flags j =>
        by_cases hij : i = j
        · simp [BlockAdapter.setBlocked, hij] at hbi
        · simpa [BlockAdapter.setBlocked, hij] using hbi
  have hpend : ∀ i, .flags i ∈ as → s.thread.shouldBlockFor i = true → pc.requests i = true ∨
      s.pc.willAcknowledge = true ∨ s.thread.execStatus = .inManagedToBlock ∨
      s.pc.dying = true := fun i hi hsi =>
    (h.pending_of_holds hr hi hsi).imp_left fun hy => by rw [hp i] at hy; cases hy
  cases a <;> exact h.requester_write hr hq h.status rfl hb hpend (hsee _ _)

theorem requesterStep (h : Inv as s) {r : ρ} {s' : State ι ρ}
    (hs : Blocking.requesterStep s r = some s') : Inv as s' := by
  have hsee := h.sees r
  have hdying := h.dying
  -- a step with the monitor that keeps the request, or drops it with the state exchanged
  have hmove : ∀ (t : Thread ι) (q : Requester ι), t.Agrees s.thread →
      (s.requesters r).holds = true → q.holds = true →
      (∀ i, (s.requesters r).pc.requests i = true → q.pc.requests i = true ∨
        s.thread.execStatus = .inManagedToBlock ∨ s.pc.dying = true) →
      q.pc.Sees s.thread.execStatus (s.pc.stuck s.thread.execStatus) →
      Inv as ({ s with thread := t }.setRequester r q) := fun t q ht hr hq hp hqs =>
    h.requester_move (.inl ⟨rfl, hq.trans hr.symm⟩) ht hp hqs
  unfold Blocking.requesterStep at hs
  cases hpc : (s.requesters r).pc
  all_goals
    simp only [hpc] at hs hsee
    try cases hs
  case lock => exact h.acquireFor hs rfl (fun i => by rw [hpc]; rfl) trivial
  case woken a => exact h.acquireFor hs rfl (fun i => by rw [hpc]; rfl) trivial
  case blockLock a async =>
    split at hs
    · next ho =>
      cases hs
      refine h.requester_move (.inl ⟨rfl, ?_⟩) ⟨rfl, rfl, rfl, rfl⟩ (fun i hi => ?_) trivial
      · rw [Requester.holds, Requester.holds, hpc, ho]
      · rw [hpc] at hi; cases hi
    · exact h.acquireFor hs rfl (fun i => by rw [hpc]; rfl) trivial
  case unblockLock a =>
    split at hs
    · next ho =>
      cases hs
      refine h.requester_move (.inl ⟨rfl, ?_⟩) ⟨rfl, rfl, rfl, rfl⟩ (fun i hi => ?_) trivial
      · rw [Requester.holds, Requester.holds, hpc, ho]
      · rw [hpc] at hi; cases hi
    · exact h.acquireFor hs rfl (fun i => by rw [hpc]; rfl) trivial
  all_goals have hr : (s.requesters r).holds = true := by rw [Requester.holds, hpc]
  case blockRequest a async => exact h.requestBlock hpc
  case blockTerminate a async =>
    split
    · next hab =>
      exact hmove s.thread _ ⟨rfl, rfl, rfl, rfl⟩ hr rfl
        (fun _ _ => .inr (.inr (hdying.symm.trans hab))) trivial
    · exact hmove s.thread _ ⟨rfl, rfl, rfl, rfl⟩ hr rfl
        (fun i hi => .inl (by rw [hpc] at hi; exact hi)) trivial
  case blockTake a async =>
    exact hmove _ _ ⟨rfl, rfl, rfl, rfl⟩ hr rfl (fun i hi => .inl (by rw [hpc] at hi; exact hi))
      trivial
  case statusLoad a async =>
    exact hmove s.thread _ ⟨rfl, rfl, rfl, rfl⟩ hr rfl
      (fun i hi => .inl (by rw [hpc] at hi; exact hi)) trivial
  case statusCas a async old =>
    split
    · next he =>
      subst he
      exact h.exchange hpc _
    · exact hmove s.thread _ ⟨rfl, rfl, rfl, rfl⟩ hr rfl
        (fun i hi => .inl (by rw [hpc] at hi; exact hi)) trivial
  case blockNotify a async st =>
    obtain ⟨he, hor⟩ := hsee
    have hw : (s.requesters r).pc.wake = (s.requesters r).pc := by rw [hpc]; rfl
    split
    · next hst =>
      refine h.notify hw ?_ (fun _ _ => .inr (.inl (he.trans hst))) ?_
      · cases async <;> rw [hr] <;> rfl
      · cases async <;> trivial
    · next hst =>
      obtain ⟨hb, hstuck⟩ := hor.resolve_left fun hm => hst (he.symm.trans hm)
      rw [if_pos (he.symm.trans hb)]
      exact h.notify hw hr.symm (fun i hi => .inl (by rw [hpc] at hi; exact hi)) ⟨hb, hstuck⟩
  case waitTest a =>
    split
    · exact h.requester_move (.inr (.inr ⟨hr, rfl, rfl⟩)) ⟨rfl, rfl, rfl, rfl⟩
        (fun i hi => by rw [hpc] at hi; cases hi) trivial
    · exact hmove s.thread _ ⟨rfl, rfl, rfl, rfl⟩ hr rfl
        (fun i hi => by rw [hpc] at hi; cases hi) trivial
  case blockClear a => exact h.clearBlock (.inl ⟨hpc, rfl⟩)
  case blockMark a => exact h.setBlocked (.inl ⟨hpc, rfl⟩)
  case blockUnlock => exact h.finish hr fun i => by rw [hpc]; rfl
  case unblockClear a => exact h.clearBlock (.inr ⟨hpc, rfl⟩)
  case unblockMark a => exact h.setBlocked (.inr ⟨hpc, rfl, rfl⟩)
  case unblockNotify =>
    exact h.notify (by rw [hpc]; rfl) hr.symm (fun i hi => by rw [hpc] at hi; cases hi) trivial
  case unblockUnlock => exact h.finish hr fun i => by rw [hpc]; rfl

theorem step (h : Inv as s) {l : Label ι ρ} {s' : State ι ρ}
    (hs : Blocking.step as s l = some s') : Inv as s' := by
  cases l with
  | call op => exact h.call hs
  | step => exact h.targetStep hs
  | request r op => exact h.request hs
  | requesterStep r => exact h.requesterStep hs

end Inv

theorem inv_of_reachable [DecidableEq ρ] {as : List (BlockAdapter ι)} {s : State ι ρ}
    (h : (machine as).Reachable s) : Inv as s :=
  h.invariant (fun _ hs => by rw [show _ = State.started from hs]; exact Inv.started as)
    fun _ _ _ hi _ hs => hi.step hs

def Pc.inEnterNativeBlocked : Pc ι → Bool
  | .enterBlockedLock | .enterBlockedStatus | .enterBlockedAcknowledge | .enterBlockedNotify
  | .enterBlockedUnlock => true
  | _ => false

def Pc.inCheckBlock : Pc ι → Bool
  | .checkLock _ | .checkBlocking _ | .checkAcknowledge _ | .checkNotify _ | .checkBlocked _
  | .asleep _ | .woken _ | .checkStatus _ | .checkDone _ | .checkUnlock _ => true
  | _ => false

/-- In native code that cannot be left, entering it blocked, or inside `check_block`. -/
def Parked (s : State ι ρ) : Prop :=
  s.pc.isNative = true ∧ s.thread.execStatus = .blockedInNative ∨
    s.pc.inEnterNativeBlocked = true ∨ s.pc.inCheckBlock = true

section Parked

variable {as : List (BlockAdapter ι)} {s s' : State ι ρ}

omit [DecidableEq ι]

theorem parked_of_mayBlock (h : s.pc.mayBlock s.thread.execStatus = true) :
    Parked s ∧ s.pc.isManaged = false := by
  unfold Parked
  cases hpc : s.pc <;> rw [hpc] at h <;>
    simp_all [Pc.mayBlock, Pc.isNative, Pc.inEnterNativeBlocked, Pc.inCheckBlock, Pc.isManaged]

/-- Waking changes a point only into one of a thread that has been woken. -/
theorem Pc.eq_of_wake {pc q : Pc ι} (h : pc.wake = q) (hq : ∀ f, q ≠ .woken f) : pc = q := by
  cases pc with
  | asleep f => exact absurd h.symm (hq f)
  | _ => exact h

theorem Pc.wake_ne_asleep (pc : Pc ι) (f : Frame) : pc.wake ≠ .asleep f := by
  cases pc <;> nofun

@[simp] theorem wake_isManaged {pc : Pc ι} : pc.wake.isManaged = pc.isManaged := by
  cases pc <;> rfl

theorem acquire_pc {pc : Pc ι} (hs : s.acquire pc = some s') : s'.pc = pc := by
  obtain ⟨-, rfl⟩ := State.acquire_eq_some.mp hs
  rfl

/-- Native code goes back to managed code by an exchange, or at the end of `check_block`. -/
theorem call_managed {op : Op ι} (hs : call s op = some s') (hpc : s.pc.isManaged = false) :
    s'.pc.isManaged = false := by
  unfold call at hs
  split at hs <;> cases hs <;> simp_all [Pc.isManaged]

end Parked

section Run

variable {as : List (BlockAdapter ι)} {s s' : State ι ρ}

/-- The target goes back to managed code by an exchange, or at the end of `check_block`. -/
theorem targetStep_managed (hs : targetStep as s = some s') (hpc : s.pc.isManaged = false)
    (hpc' : s'.pc.isManaged = true) :
    (∃ b, s.pc = .leaveCas b ∧ s.thread.execStatus = .inNative) ∨ ∃ f, s.pc = .checkUnlock f := by
  unfold targetStep at hs
  cases hp : s.pc
  all_goals
    simp only [hp] at hs hpc
    try cases hs
    try cases hpc
  case leaveCas b =>
    split at hpc'
    · next he => exact .inl ⟨b, rfl, he⟩
    · cases hpc'
  case checkUnlock f => exact .inr ⟨f, rfl⟩
  case enterBlockedLock | woken => rw [acquire_pc hs] at hpc'; cases hpc'
  case enterBlockedAcknowledge | checkAcknowledge | checkBlocked => split at hpc' <;> cases hpc'
  case leaveLoad b => repeat' split at hpc'
                      all_goals cases hpc'
  case checkLock f =>
    cases f with
    | leaveNative => rw [acquire_pc hs] at hpc'; cases hpc'
    | yieldpoint | blockSelf => cases hs; cases hpc'
  all_goals cases hpc'

variable [DecidableEq ρ]

omit [DecidableEq ι] in
theorem acquireFor_pc {r : ρ} {q : Requester ι} (hs : s.acquireFor r q = some s') :
    s'.pc = s.pc := by
  obtain ⟨-, rfl⟩ := State.acquireFor_eq_some.mp hs
  rfl

/-- Starting a method of a requester changes nothing of the target. -/
theorem request_result {r : ρ} {op : RequesterOp ι} (hs : request s r op = some s') :
    s'.thread = s.thread ∧ s'.pc = s.pc ∧
      (s'.requesters r).result = (s.requesters r).result := by
  obtain ⟨-, hs⟩ := request_eq_some.mp hs
  cases op with
  | lock | unlock => rw [hs.2]; simp [State.goto, State.setRequester]
  | blockUnchecked | unblock => rw [hs]; simp [State.goto, State.setRequester]

theorem request_pc {r : ρ} {op : RequesterOp ι} (hs : request s r op = some s') :
    s'.pc = s.pc := (request_result hs).2.1

/-- A requester at most wakes the target. -/
theorem requesterStep_pc {r : ρ} (hs : requesterStep s r = some s') :
    s'.pc = s.pc ∨ s'.pc = s.pc.wake := by
  unfold requesterStep at hs
  cases hp : (s.requesters r).pc
  all_goals
    simp only [hp] at hs
    try cases hs
  case lock | woken => exact .inl (acquireFor_pc hs)
  case blockLock | unblockLock =>
    split at hs
    · cases hs; exact .inl rfl
    · exact .inl (acquireFor_pc hs)
  case blockTerminate | statusCas | waitTest => exact .inl (by split <;> rfl)
  case blockNotify | unblockNotify => exact .inr rfl
  all_goals exact .inl rfl

end Run

/--
In every run, a target that some adapter of the list blocks is parked; and it goes back to
managed code only from states in which no adapter blocks it, and in which whoever has a request
pending holds its monitor inside `block_unchecked`.
-/
theorem blocked_target_parked [DecidableEq ρ] {as : List (BlockAdapter ι)} {s : State ι ρ}
    (h : (machine as).Reachable s) :
    (∀ i, .flags i ∈ as → s.thread.isBlockedFor i = true → Parked s ∧ s.pc.isManaged = false) ∧
    ∀ l s', step as s l = some s' → s.pc.isManaged = false → s'.pc.isManaged = true →
      ∀ i, .flags i ∈ as → s.thread.isBlockedFor i = false ∧
        (s.thread.shouldBlockFor i = true →
          ∃ r, (s.requesters r).pc.requests i = true ∧ s.monitor = some (.requester r)) := by
  have hinv := inv_of_reachable h
  refine ⟨fun i hi hbi => parked_of_mayBlock (hinv.blocked i hi hbi),
    fun l s' hs hpc hpc' i hi => ?_⟩
  have hback : (∃ b, s.pc = .leaveCas b ∧ s.thread.execStatus = .inNative) ∨
      ∃ f, s.pc = .checkUnlock f := by
    cases l with
    | call op => rw [call_managed hs hpc] at hpc'; cases hpc'
    | step => exact targetStep_managed hs hpc hpc'
    | request r op => rw [request_pc hs, hpc] at hpc'; cases hpc'
    | requesterStep r =>
      rcases requesterStep_pc hs with he | he
      · rw [he, hpc] at hpc'; cases hpc'
      · rw [he, wake_isManaged, hpc] at hpc'; cases hpc'
  have hblocked := hinv.blocked i hi
  have hpending := hinv.pending i hi
  rcases hback with ⟨b, hp, he⟩ | ⟨f, hp⟩
  · rw [hp, he] at hblocked hpending
    refine ⟨by simpa [Pc.mayBlock] using hblocked, fun hsi => ?_⟩
    obtain ⟨r, hr⟩ | hn | hn | hn := hpending hsi
    · exact ⟨r, hr, (hinv.requester r).mpr (Requester.holds_of_requests hr)⟩
    all_goals cases hn
  · have hack := hinv.acknowledged (by rw [hp]; rfl) i hi
    rw [hp] at hblocked
    exact ⟨by simpa [Pc.mayBlock] using hblocked, fun hsi => by rw [hack] at hsi; cases hsi⟩

/-- A synchronous request that waits until the target is at its next yieldpoint. -/
def yieldpointRun : List (Label Unit Unit) :=
  [.call .enableYieldpoints, .step, .request () (.blockUnchecked (.flags ()) false),
    .requesterStep (), .requesterStep (), .requesterStep (), .requesterStep (), .requesterStep (),
    .requesterStep (), .requesterStep (), .requesterStep (), .call .yieldpoint, .step, .step,
    .step, .step, .step, .step, .step, .step]

theorem blocked_target_parked_yieldpoint : ∃ s : State Unit Unit,
    (machine [.flags ()]).checkedExec (fun _ _ => True) .started yieldpointRun = some s ∧
    s.pc = .asleep .yieldpoint ∧ s.thread.isBlockedFor () = true ∧ Parked s := by
  obtain ⟨s, hs, hpc, hb⟩ : ∃ s : State Unit Unit,
      (machine [.flags ()]).checkedExec (fun _ _ => True) .started yieldpointRun = some s ∧
      s.pc = .asleep .yieldpoint ∧ s.thread.isBlockedFor () = true := ⟨_, rfl, rfl, rfl⟩
  exact ⟨s, hs, hpc, hb,
    ((blocked_target_parked (.checkedExec (.init rfl) hs)).1 () (by simp) hb).1⟩

end VmkitCore.Blocking
