import VmkitCore.Threading.Resuming

/-! # Wake-ups at yieldpoints

Every mutator that is past its request is going to be unblocked by the collection that
runs, or by one that is requested, since it is blocked before the collector starts to
unblock and stays so until its turn. Nobody is left asleep on a monitor.
-/

namespace VmkitCore.YieldpointCollection

open Blocking (Sleeps)
open SignalCollection (Blocks blocks_of_call blocks_of_targetStep)
open ThreadManager (Config)

variable {τ ι : Type*} {cfg : Config τ ι} {s s' : State τ ι} {m m' : ThreadManager.State τ ι}
  {t : τ} {c : Blocking.State ι Unit}

/-- Past its request for a collection, and not past the block that belongs to it. -/
def Pending (cfg : Config τ ι) (s : State τ ι) (t : τ) : Prop :=
  s.posted t = true ∨ Blocks cfg.gc (s.manager.threads t)

variable [DecidableEq τ] [DecidableEq ι]

structure Inv (cfg : Config τ ι) (s : State τ ι) : Prop where
  base : Base cfg s.manager
  resuming : Resuming cfg s.manager
  posted : ∀ t, s.posted t = true → (s.manager.phase t).isRegistered = true ∧
    (s.manager.threads t).pc = .managed
  covered : ∀ t, cfg.isMutator t = true → Pending cfg s t →
    s.requested = true ∨ WillUnblock s.manager t

omit [DecidableEq τ] in
/-- A mutator that is not done with its request is in the table. -/
theorem Base.registered (h : Base cfg s.manager)
    (hposted : ∀ t, s.posted t = true → (s.manager.phase t).isRegistered = true)
    (hp : Pending cfg s t) : (s.manager.phase t).isRegistered = true := by
  rcases hp with hp | hb
  · exact hposted t hp
  · apply h.fixed t
    intro hu
    rw [h.inv.fresh t hu] at hb
    simp [Blocks, ThreadManager.created, Blocking.State.started, Thread.forMutator] at hb

namespace Inv

theorem post (h : Inv cfg s) (hs : step cfg s (.post t) = some s') : Inv cfg s' := by
  simp only [step] at hs
  split at hs
  · next hpc =>
    cases hs
    refine ⟨h.base, h.resuming, fun u hu => ?_, fun _ _ _ => .inl rfl⟩
    by_cases hut : u = t
    · subst hut
      exact ⟨by rw [hpc.1]; rfl, hpc.2.1⟩
    · exact h.posted u (by simpa [hut] using hu)
  · cases hs

theorem clearRequest (h : Inv cfg s) (hs : step cfg s .clearRequest = some s') : Inv cfg s' := by
  have hclear : (∀ t, WillUnblock s.manager t) → Inv cfg { s with requested := false } :=
    fun hw => ⟨h.base, h.resuming, h.posted, fun t _ _ => .inr (hw t)⟩
  simp only [step] at hs
  split at hs
  · next hpc =>
    cases hs
    exact hclear fun t => by simp [WillUnblock, hpc]
  · split at hs <;> cases hs
    next hin => exact hclear fun t => willUnblock_of_inBlockAll hin

/-- One thread has gone on, and does not begin to block itself without a request. -/
theorem thread (h : Inv cfg s) {posted : τ → Bool} (hb : Base cfg m')
    (hf : ThreadManager.FromThread s.manager m' False) (hphase : m'.phase = s.manager.phase)
    (ht : m'.threads = Function.update s.manager.threads t c)
    (hr : c.requesters = (s.manager.threads t).requesters ∨
      c.requesters = (s.manager.threads t).notifyAll.requesters)
    (hshould : ∀ a, ((s.manager.threads t).requesters ()).pc = .unblockMark a →
      (s.manager.threads t).thread.shouldBlockFor cfg.gc = false →
      c.thread.shouldBlockFor cfg.gc = false)
    (hpost : posted t = false) (hposted : ∀ u, u ≠ t → posted u = s.posted u)
    (hblocks : Blocks cfg.gc c → Pending cfg s t) :
    Inv cfg { s with manager := m', posted := posted } := by
  obtain ⟨hres, hwill⟩ := h.resuming.thread hf hphase ht hr hshould
  refine ⟨hb, hres, fun u hu => ?_, fun u hmut hp => ?_⟩
  · have hut : u ≠ t := by
      rintro rfl
      cases hpost.symm.trans hu
    obtain ⟨hreg, hpc⟩ := h.posted u (hposted u hut ▸ hu)
    dsimp only
    rw [hphase, ht, Function.update_of_ne hut]
    exact ⟨hreg, hpc⟩
  · refine (h.covered u hmut ?_).imp_right (hwill u).mpr
    by_cases hut : u = t
    · subst hut
      refine hblocks (hp.elim (fun hp => ?_) fun hb => ?_)
      · exact absurd (hpost.symm.trans hp) (by simp)
      · simpa [ht] using hb
    · simpa [Pending, ht, hposted u hut, hut] using hp

theorem call (h : Inv cfg s) {op : Blocking.Op ι}
    (hs : YieldpointCollection.call cfg s t op = some s') : Inv cfg s' := by
  unfold YieldpointCollection.call at hs
  split at hs
  · next hop =>
    obtain ⟨m, hm, rfl⟩ := Option.map_eq_some_iff.mp hs
    have hb := h.base.step (l := .call t op) nofun hm
    have hf := ThreadManager.FromThread.call hm
    obtain ⟨-, c, hc, rfl⟩ := ThreadManager.call_eq_some.mp hm
    refine h.thread hb hf rfl rfl (.inl (Blocking.call_requesters hc)) (fun _ _ hn => ?_)
      (by simp) (fun u hu => by simp [hu]) fun hbl => ?_
    · rwa [(Blocking.call_agrees hc).shouldBlockFor]
    · exact (blocks_of_call hc hbl).elim .inr fun he => .inl (hop.mpr he)
  · cases hs

theorem threadStep (h : Inv cfg s) (hs : step cfg s (.step t) = some s') : Inv cfg s' := by
  obtain ⟨m, hm, rfl⟩ := Option.map_eq_some_iff.mp hs
  obtain ⟨hrun, c, hc, hphase, -, ht⟩ := ThreadManager.threadStep_threads hm
  refine h.thread (h.base.step (l := .step t) nofun hm) (.threadStep hm) hphase ht
    (Blocking.targetStep_requesters hc) (fun a ha hn => ?_) ?_ (fun _ _ => rfl)
    fun hb => .inr (blocks_of_targetStep hc hb)
  · refine shouldBlockFor_of_targetStep (h.base.inv.threads t ?_) hc ?_ hn
    · rw [hrun]
      exact nofun
    · rw [Blocking.Requester.holds, ha]
  · by_contra hp
    simp [Blocking.targetStep, (h.posted t (by simpa using hp)).2] at hc

theorem collectorStep (h : Inv cfg s) (hs : step cfg s .collector = some s') : Inv cfg s' := by
  simp only [step] at hs
  split at hs
  · cases hs
  obtain ⟨m, hm, rfl⟩ := Option.map_eq_some_iff.mp hs
  obtain ⟨hres, hcov⟩ := Goes.collectorStep h.base h.resuming hm
  have hb := h.base.step (l := .collector) nofun hm
  have hmoves := ThreadManager.Moves.collectorStep hm
  have hposted : ∀ u, s.posted u = true → (m.phase u).isRegistered = true ∧
      (m.threads u).pc = .managed := fun u hu => by
    obtain ⟨hreg, hpc⟩ := h.posted u hu
    rw [hmoves.phase]
    refine ⟨hreg, ?_⟩
    rcases hmoves.wakes u with he | he <;> rw [he, hpc]
    rfl
  refine ⟨hb, hres, hposted, fun u hmut hp => ?_⟩
  have hreg := Base.registered (s := { s with manager := m }) hb (fun u hu => (hposted u hu).1) hp
  rw [show m.phase = _ from hmoves.phase] at hreg
  rcases hcov u hreg hmut with hw | ⟨hw, hblocks⟩ | ⟨hblocks, hpc⟩
  · exact .inr hw
  · exact .inl ((h.covered u hmut (hp.imp_right hblocks)).resolve_right hw)
  · rcases hp with hp | hp
    · exact absurd (hposted u hp).2 hpc
    · exact absurd hp hblocks

theorem step (h : Inv cfg s) {l : Label τ ι} (hs : YieldpointCollection.step cfg s l = some s') :
    Inv cfg s' := by
  cases l with
  | post t => exact h.post hs
  | call t op => exact h.call hs
  | step t => exact h.threadStep hs
  | clearRequest => exact h.clearRequest hs
  | collector => exact h.collectorStep hs

end Inv

/-- Starting threads leaves the collector alone, and nobody blocks or sleeps. -/
theorem calm_of_starts (h : (ThreadManager.machine cfg).ReachableUnder Starts m) :
    m.collector = .idle ∧ ∀ t, Sleeps cfg.adapters (m.threads t) ∧
      ¬ Blocks cfg.gc (m.threads t) := by
  refine h.invariant (I := fun m => m.collector = .idle ∧
    ∀ t, Sleeps cfg.adapters (m.threads t) ∧ ¬ Blocks cfg.gc (m.threads t)) ?_
    fun m l m' ⟨hidle, hcalm⟩ hc hs => ?_
  · rintro m rfl
    exact ⟨rfl, fun t => ⟨⟨nofun, nofun⟩, by
      simp [Blocks, ThreadManager.State.new, Blocking.State.started, Thread.forMutator]⟩⟩
  · cases l with
    | startup t =>
      refine ⟨(ThreadManager.FromThread.startup hs).collector.trans hidle, ?_⟩
      refine ThreadManager.startup_keeps
        (P := fun c => Sleeps cfg.adapters c ∧ ¬ Blocks cfg.gc c) ?_ ?_ ?_ hs hcalm
      · rintro c ⟨hsl, hbl⟩
        refine ⟨⟨fun f hf => ?_, fun a ha => ?_⟩, hbl⟩
        · rcases hsl.target f hf with hb | hn
          · exact .inl (Thread.isBlocked_mono (t := c.thread) (fun _ => id) hb)
          · exact .inr hn
        · exact (hsl.requester a ha).imp_left fun hw => hw.of_eq (fun _ => id) rfl rfl
      · rintro c c' op ⟨hsl, hbl⟩ hc hop
        exact ⟨hsl.call hc, fun hb => (blocks_of_call hc hb).elim hbl (hop _)⟩
      · rintro c c' ⟨hsl, hbl⟩ hc
        exact ⟨hsl.targetStep hc, fun hb => hbl (blocks_of_targetStep hc hb)⟩
    | call | step | collector => cases hc

theorem Inv.init (h : (machine cfg).init s) : Inv cfg s := by
  obtain ⟨hr, hphase, hposted, hreq⟩ := h
  obtain ⟨hidle, hcalm⟩ := calm_of_starts hr
  obtain ⟨hi, ht⟩ := ThreadManager.tableInv_of_reachable hr
  refine ⟨⟨hi, ht, .of_none (by rw [hidle]; rfl), fun t ht => ?_,
    ThreadManager.nodup_of_reachable hr, fun t => (hcalm t).1⟩,
    ⟨fun _ => ?_, ?_, fun _ t _ _ hw => ?_⟩, fun t ht => ?_, fun t _ hp => ?_⟩
  · rw [(hphase t).resolve_left ht]
    rfl
  · rw [hidle]
    exact .nil
  · rw [hidle]
    trivial
  · simp [WillUnblock, hidle] at hw
  · cases (hposted t).symm.trans ht
  · exact absurd (hp.resolve_left (by simp [hposted])) (hcalm t).2

theorem inv_of_reachable (h : (machine cfg).Reachable s) : Inv cfg s :=
  h.invariant (fun _ => .init) fun _ _ _ hi _ hs => hi.step hs

/--
While no collection is running or requested, no mutator has a flag set. A mutator asleep in
`check_block` is blocked, or the collector has its monitor and is about to notify it. A collector
asleep in a synchronous `block_unchecked` has to wait, or the mutator has the monitor and is about
to notify it.
-/
theorem no_lost_wakeup (h : (machine cfg).Reachable s) :
    (s.manager.collector = .idle → s.requested = false → ∀ t, cfg.isMutator t = true →
      (s.manager.threads t).thread.isBlockedFor cfg.gc = false ∧
      (s.manager.threads t).thread.shouldBlockFor cfg.gc = false) ∧
    (∀ t f, (s.manager.threads t).pc = .asleep f →
      (s.manager.threads t).thread.isBlocked cfg.adapters = true ∨
      (s.manager.threads t).monitor = some (.requester ()) ∧
        ((s.manager.threads t).requesters ()).pc = .unblockNotify) ∧
    ∀ t a, ((s.manager.threads t).requesters ()).pc = .asleep a →
      Blocking.Awaits a (s.manager.threads t).thread ∨
      (s.manager.threads t).monitor = some .target ∧
        (s.manager.threads t).pc.notifies = true := by
  have hi := inv_of_reachable h
  refine ⟨fun hidle hreq t hmut => ?_, fun t f hf => ?_, fun t a ha => ?_⟩
  · have hnot : ¬ Pending cfg s t := fun hp => by
      rcases hi.covered t hmut hp with hr | hw
      · cases hreq.symm.trans hr
      · simp [WillUnblock, hidle] at hw
    simp only [Pending, Blocks, not_or, Bool.not_eq_true] at hnot
    exact ⟨hnot.2.2.2.2, hnot.2.2.2.1⟩
  · refine ((hi.base.sleeps t).target f hf).imp_right fun hn => ⟨?_, hn⟩
    have hstarted : s.manager.phase t ≠ .unstarted := fun hu => by
      rw [hi.base.inv.fresh t hu] at hf
      cases hf
    exact ((hi.base.inv.threads t hstarted).requester ()).mpr (by rw [Blocking.Requester.holds, hn])
  · refine ((hi.base.sleeps t).requester a ha).imp_right fun hn => ⟨?_, hn⟩
    have hstarted : s.manager.phase t ≠ .unstarted := fun hu => by
      rw [hi.base.inv.fresh t hu] at ha
      cases ha
    exact (hi.base.inv.threads t hstarted).target.mpr (Blocking.Pc.holds_of_notifies hn)

/-- A mutator requests a collection and sleeps, and the collector takes this many more steps. -/
def blockRun (k : ℕ) : List (Label Bool Unit) :=
  [.post true, .call true (.blockSelf (.flags ()))] ++ List.replicate 7 (.step true) ++
    List.replicate 10 .collector ++ .clearRequest :: List.replicate k .collector

theorem no_lost_wakeup_blocked : ∃ m s, (machine .mutators).init ⟨m, fun _ => false, false⟩ ∧
    (machine .mutators).checkedExec (fun _ _ => True) ⟨m, fun _ => false, false⟩ (blockRun 14) =
      some s ∧
    s.manager.collector = .idle ∧ (s.manager.threads true).pc = .woken .blockSelf ∧
    (s.manager.threads true).thread.isBlockedFor () = false := by
  obtain ⟨m, hm, hphase, s, hs, hidle, hreq, hpc⟩ : ∃ m : ThreadManager.State Bool Unit,
      (ThreadManager.machine .mutators).checkedExec Starts .new
        (List.replicate 13 (.startup true)) = some m ∧
      (∀ t, m.phase t = .unstarted ∨ m.phase t = .running) ∧
      ∃ s, (machine .mutators).checkedExec (fun _ _ => True) ⟨m, fun _ => false, false⟩
          (blockRun 14) = some s ∧
        s.manager.collector = .idle ∧ s.requested = false ∧
        (s.manager.threads true).pc = .woken .blockSelf :=
    ⟨_, rfl, fun t => by cases t <;> decide, _, rfl, rfl, rfl, rfl⟩
  have hinit : (machine .mutators).init ⟨m, fun _ => false, false⟩ :=
    ⟨.checkedExec (.init rfl) hm, hphase, fun _ => rfl, rfl⟩
  exact ⟨m, s, hinit, hs, hidle, hpc,
    ((no_lost_wakeup (.checkedExec (.init hinit) hs)).1 hidle hreq true rfl).1⟩

/-- The collector waits for the other mutator, which has acknowledged and not yet notified it. -/
def collectRun : List (Label Bool Unit) :=
  .post true :: List.replicate 40 .collector ++
    .call false .yieldpoint :: List.replicate 6 (.step false)

/--
Between the two steps of `unblock` the mutator sleeps with no reason to, not yet notified, and so
does the collector between the two steps of an acknowledgement.
-/
theorem asleep_before_notify :
    (∃ m s, (machine .mutators).init ⟨m, fun _ => false, false⟩ ∧
      (machine .mutators).exec ⟨m, fun _ => false, false⟩ (blockRun 9) = some s ∧
      (s.manager.threads true).pc = .asleep .blockSelf ∧
      (s.manager.threads true).thread.isBlocked Config.mutators.adapters = false) ∧
    ∃ m s, (machine .mutators).init ⟨m, fun _ => false, false⟩ ∧
      (machine .mutators).exec ⟨m, fun _ => false, false⟩ collectRun = some s ∧
      ((s.manager.threads false).requesters ()).pc = .asleep (.flags ()) ∧
      ¬ Blocking.Awaits (.flags ()) (s.manager.threads false).thread := by
  have hstart : ∀ {l : List (ThreadManager.Label Bool Unit)} {m : ThreadManager.State Bool Unit},
      (ThreadManager.machine .mutators).checkedExec Starts .new l = some m →
      (∀ t, m.phase t = .unstarted ∨ m.phase t = .running) →
      (machine .mutators).init ⟨m, fun _ => false, false⟩ := fun hm hphase =>
    ⟨.checkedExec (.init rfl) hm, hphase, fun _ => rfl, rfl⟩
  constructor
  · obtain ⟨m, hm, hphase, s, hs, hpc, hb⟩ : ∃ m : ThreadManager.State Bool Unit,
        (ThreadManager.machine .mutators).checkedExec Starts .new
          (List.replicate 13 (.startup true)) = some m ∧
        (∀ t, m.phase t = .unstarted ∨ m.phase t = .running) ∧
        ∃ s, (machine .mutators).exec ⟨m, fun _ => false, false⟩ (blockRun 9) = some s ∧
          (s.manager.threads true).pc = .asleep .blockSelf ∧
          (s.manager.threads true).thread.isBlocked Config.mutators.adapters = false :=
      ⟨_, rfl, fun t => by cases t <;> decide, _, rfl, rfl, rfl⟩
    exact ⟨m, s, hstart hm hphase, hs, hpc, hb⟩
  · obtain ⟨m, hm, hphase, s, hs, hpc, hr⟩ : ∃ m : ThreadManager.State Bool Unit,
        (ThreadManager.machine .mutators).checkedExec Starts .new
          (List.replicate 13 (.startup true) ++ List.replicate 13 (.startup false)) = some m ∧
        (∀ t, m.phase t = .unstarted ∨ m.phase t = .running) ∧
        ∃ s, (machine .mutators).exec ⟨m, fun _ => false, false⟩ collectRun = some s ∧
          ((s.manager.threads false).requesters ()).pc = .asleep (.flags ()) ∧
          (s.manager.threads false).thread.shouldBlockFor () = false :=
      ⟨_, rfl, fun t => by cases t <;> exact .inr rfl, _, rfl, rfl, rfl⟩
    refine ⟨m, s, hstart hm hphase, hs, hpc, fun hw => ?_⟩
    exact Bool.false_ne_true (hr.symm.trans hw.request)

end VmkitCore.YieldpointCollection
