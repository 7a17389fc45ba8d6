import Mathlib.Data.List.Nodup
import VmkitCore.Threading.Moves
import VmkitCore.Threading.Sleeping
import VmkitCore.Threading.Wakeup
import VmkitCore.Threading.YieldpointCollection

/-! # Resuming the mutators

While the collector unblocks one mutator after the other, those whose turn has not come
are blocked or about to terminate. So none of them is on its way to block itself when
its flag is taken back.
-/

namespace VmkitCore.YieldpointCollection

open Blocking (Sleeps)
open SignalCollection (Blocks unblocks)
open ThreadManager (Config CollectorPc NoRegistration Stopped Stopping TableInv)

variable {τ ι : Type*} {cfg : Config τ ι} {s s' : State τ ι} {m m' : ThreadManager.State τ ι}
  {t : τ} {gc : ι} {c c' : Blocking.State ι Unit}

/-- The steps of `unblock` that the collector takes. -/
def Unblocking (gc : ι) (c : Blocking.State ι Unit) : Blocking.RequesterPc ι → Prop
  | .unblockLock a | .unblockClear a => a = .flags gc
  | .unblockMark a => a = .flags gc ∧ c.thread.shouldBlockFor gc = false
  | .idle | .unblockNotify | .unblockUnlock => True
  | _ => False

/-- The collector runs, and has yet to take the blocked flag of the mutator back. -/
def WillUnblock (m : ThreadManager.State τ ι) (t : τ) : Prop :=
  match m.collector with
  | .idle => False
  | .unblock todo | .unblockUnlock _ todo => t ∈ todo
  | .unblockLock u todo | .unblockCall u todo => t = u ∨ t ∈ todo
  | .unblockRun u todo => t ∈ todo ∨ t = u ∧ unblocks ((m.threads u).requesters ()).pc = true
  | _ => True

/-- Where the collector is in the methods of a thread that it unblocks. -/
def Expects (gc : ι) (m : ThreadManager.State τ ι) : CollectorPc τ → Prop
  | .unblockLock t _ => ((m.threads t).requesters ()).pc = .lock
  | .unblockRun t _ => Unblocking gc (m.threads t) ((m.threads t).requesters ()).pc
  | _ => True

/-- Not on the way to a block, and not about to be. -/
def Released (gc : ι) (c : Blocking.State ι Unit) : Prop := ¬ Blocks gc c ∧ c.pc ≠ .managed

section Thread

variable [DecidableEq ι] {as : List (BlockAdapter ι)}

theorem lock_of_request (hs : Blocking.request c () .lock = some c') :
    (c'.requesters ()).pc = .lock := by
  obtain ⟨-, -, rfl⟩ := Blocking.request_eq_some.mp hs
  simp [Blocking.State.goto, Blocking.State.setRequester]

theorem unblockLock_of_request {a : BlockAdapter ι}
    (hs : Blocking.request c () (.unblock a) = some c') :
    (c'.requesters ()).pc = .unblockLock a := by
  obtain ⟨-, rfl⟩ := Blocking.request_eq_some.mp hs
  simp [Blocking.State.goto, Blocking.State.setRequester]

/-- A thread that is blocked or about to terminate does not block itself now. -/
theorem released_of_stopped (hi : Blocking.Inv as c) (hgc : .flags gc ∈ as)
    (hst : c.thread.isBlockedFor gc = true ∨ c.thread.isAboutToTerminate = true) :
    c.pc ≠ .managed ∧ c.pc ≠ .blockLock (.flags gc) ∧ c.pc ≠ .blockRequest (.flags gc) := by
  rcases hst with hb | hd
  · have hm := hi.blocked gc hgc hb
    refine ⟨fun he => ?_, fun he => ?_, fun he => ?_⟩ <;> rw [he] at hm <;> cases hm
  · have hm := hi.dying.symm.trans hd
    refine ⟨fun he => ?_, fun he => ?_, fun he => ?_⟩ <;> rw [he] at hm <;> cases hm

omit [DecidableEq ι] in
/-- A step of the thread that the collector unblocks keeps the collector where it is. -/
theorem Unblocking.keeps (h : Unblocking gc c (c.requesters ()).pc)
    (hr : c'.requesters = c.requesters ∨ c'.requesters = c.notifyAll.requesters)
    (hshould : ∀ a, (c.requesters ()).pc = .unblockMark a → c.thread.shouldBlockFor gc = false →
      c'.thread.shouldBlockFor gc = false) :
    (c'.requesters ()).pc = (c.requesters ()).pc ∧ Unblocking gc c' (c.requesters ()).pc := by
  have hpc := Blocking.requester_pc_eq hr fun a ha => by
    rw [ha] at h
    exact h
  refine ⟨hpc, ?_⟩
  cases hp : (c.requesters ()).pc
  all_goals rw [hp] at h
  case unblockMark a => exact ⟨h.1, hshould a hp h.2⟩
  all_goals exact h

/-- The target cannot request a block of itself while the collector has its monitor. -/
theorem shouldBlockFor_of_targetStep (hi : Blocking.Inv as c)
    (hs : Blocking.targetStep as c = some c') (hr : (c.requesters ()).holds = true)
    (h : c.thread.shouldBlockFor gc = false) : c'.thread.shouldBlockFor gc = false := by
  by_contra hn
  rcases (Blocking.targetSets_of_targetStep hs).should (by simpa using hn) with hs | hp
  · rw [h] at hs
    cases hs
  · have ht := hi.target_out hr
    rw [hp] at ht
    cases ht

/-- What a step inside of `unblock` leaves of the flags. -/
structure UnblockStep (gc : ι) (c c' : Blocking.State ι Unit) : Prop where
  unblocking : Unblocking gc c' (c'.requesters ()).pc
  blocks : Blocks gc c' → Blocks gc c
  same : unblocks (c'.requesters ()).pc = true → unblocks (c.requesters ()).pc = true ∧
    c'.thread.isBlockedFor gc = c.thread.isBlockedFor gc ∧
    c'.thread.isAboutToTerminate = c.thread.isAboutToTerminate
  cleared : unblocks (c.requesters ()).pc = true → unblocks (c'.requesters ()).pc = true ∨
    c'.pc = c.pc ∧ c'.thread.shouldBlockFor gc = false ∧ c'.thread.isBlockedFor gc = false

theorem unblockStep_of_requesterStep (hs : Blocking.requesterStep c () = some c')
    (h : Unblocking gc c (c.requesters ()).pc) : UnblockStep gc c c' := by
  have hlock := fun a hpc => Blocking.unblockLock_result (a := a) hpc hs
  unfold Blocking.requesterStep at hs
  cases hpc : (c.requesters ()).pc
  all_goals
    rw [hpc] at h
    simp only [hpc] at hs
  case unblockLock a =>
    obtain ⟨ht, hp, hr⟩ := hlock a hpc
    refine ⟨by rw [hr]; exact h, ?_, fun _ => ⟨by rw [hpc]; rfl, by rw [ht], by rw [ht]⟩,
      fun _ => .inl (by rw [hr]; rfl)⟩
    rw [Blocks, Blocks, ht, hp]
    exact id
  case unblockClear a =>
    cases h
    cases hs
    refine ⟨?_, fun hb => ?_, fun _ => ⟨by rw [hpc]; rfl, rfl, rfl⟩, fun _ => .inl ?_⟩
    · simp [Unblocking, Blocking.State.goto, Blocking.State.setRequester,
        BlockAdapter.clearBlockRequest]
    · rcases hb with hb | hb | hb | hb
      · exact .inl hb
      · exact .inr (.inl hb)
      · simp [Blocking.State.goto, Blocking.State.setRequester,
          BlockAdapter.clearBlockRequest] at hb
      · exact .inr (.inr (.inr hb))
    · simp [unblocks, Blocking.State.goto, Blocking.State.setRequester]
  case unblockMark a =>
    obtain ⟨rfl, hr⟩ := h
    cases hs
    refine ⟨?_, fun hb => ?_, fun hu => ?_, fun _ => .inr ⟨rfl, hr, ?_⟩⟩
    · simp [Unblocking, Blocking.State.goto, Blocking.State.setRequester]
    · rcases hb with hb | hb | hb | hb
      · exact .inl hb
      · exact .inr (.inl hb)
      · exact absurd (hr.symm.trans hb) (by simp)
      · simp [Blocking.State.goto, Blocking.State.setRequester, BlockAdapter.setBlocked] at hb
    · simp [unblocks, Blocking.State.goto, Blocking.State.setRequester] at hu
    · simp [Blocking.State.goto, Blocking.State.setRequester, BlockAdapter.setBlocked]
  case unblockNotify =>
    cases hs
    refine ⟨?_, fun hb => ?_, fun hu => ?_, fun hu => ?_⟩
    · simp [Unblocking, Blocking.State.goto, Blocking.State.setRequester]
    · exact SignalCollection.blocks_of_notifyAll (c := c) hb
    · simp [unblocks, Blocking.State.goto, Blocking.State.setRequester] at hu
    · rw [hpc] at hu
      cases hu
  case unblockUnlock =>
    cases hs
    refine ⟨?_, id, fun hu => ?_, fun hu => ?_⟩
    · simp [Unblocking, Blocking.State.finish, Blocking.State.goto, Blocking.State.setRequester]
    · simp [unblocks, Blocking.State.finish, Blocking.State.goto,
        Blocking.State.setRequester] at hu
    · rw [hpc] at hu
      cases hu
  case idle => cases hs
  all_goals cases h

end Thread

variable [DecidableEq τ] [DecidableEq ι]

/-- What is known of the thread manager, with all mutators registered. -/
structure Base (cfg : Config τ ι) (m : ThreadManager.State τ ι) : Prop where
  inv : ThreadManager.Inv cfg m
  table : TableInv m
  stopping : Stopping cfg m
  fixed : ∀ t, m.phase t ≠ .unstarted → (m.phase t).isRegistered = true
  nodup : m.inner.threads.Nodup
  sleeps : ∀ t, Sleeps cfg.adapters (m.threads t)

/-- While the collector resumes the mutators, those it still has to unblock are stopped. -/
structure Resuming (cfg : Config τ ι) (m : ThreadManager.State τ ι) : Prop where
  nodup : m.collector.inBlockAll = false → m.collector.listed.Nodup
  expects : Expects cfg.gc m m.collector
  stopped : m.collector.inBlockAll = false → ∀ t, (m.phase t).isRegistered = true →
    cfg.isMutator t = true → WillUnblock m t → Stopped cfg m t

theorem Base.step (h : Base cfg m) {l : ThreadManager.Label τ ι} (hl : ∀ t, l ≠ .startup t)
    (hs : ThreadManager.step cfg m l = some m') : Base cfg m' := by
  obtain ⟨b, hmoves⟩ : ∃ b, ThreadManager.Moves cfg b m m' := by
    cases l with
    | startup t => exact absurd rfl (hl t)
    | call t op => exact ⟨_, .call hs⟩
    | step t => exact ⟨_, .threadStep hs⟩
    | collector => exact ⟨_, .collectorStep hs⟩
  have hn : NoRegistration m l := by
    cases l with
    | startup t => exact absurd rfl (hl t)
    | call | step | collector => trivial
  refine ⟨h.inv.step hs, h.table.step h.inv hs, h.stopping.step h.inv hn hs, fun t ht => ?_,
    ?_, fun t => ?_⟩
  · rw [hmoves.phase] at ht ⊢
    exact h.fixed t ht
  · rw [hmoves.threads_eq h.table h.inv]
    exact h.nodup
  · rcases hmoves.threads t with he | ⟨l, -, hl⟩
    · rw [he]
      exact h.sleeps t
    · exact (h.sleeps t).step hl

namespace Resuming

omit [DecidableEq ι] in
/-- A step of a thread changes nothing for the collector. -/
theorem thread (h : Resuming cfg m) (hf : ThreadManager.FromThread m m' False)
    (hphase : m'.phase = m.phase) (ht : m'.threads = Function.update m.threads t c)
    (hr : c.requesters = (m.threads t).requesters ∨
      c.requesters = (m.threads t).notifyAll.requesters)
    (hshould : ∀ a, ((m.threads t).requesters ()).pc = .unblockMark a →
      (m.threads t).thread.shouldBlockFor cfg.gc = false →
      c.thread.shouldBlockFor cfg.gc = false) :
    Resuming cfg m' ∧ ∀ u, WillUnblock m' u ↔ WillUnblock m u := by
  have hrun : ∀ u todo, m.collector = .unblockRun u todo →
      ((m'.threads u).requesters ()).pc = ((m.threads u).requesters ()).pc ∧
      Unblocking cfg.gc (m'.threads u) ((m.threads u).requesters ()).pc := by
    intro u todo hpc
    have he := h.expects
    rw [hpc] at he
    by_cases hut : u = t
    · subst hut
      rw [ht, Function.update_self]
      exact he.keeps hr hshould
    · rw [ht, Function.update_of_ne hut]
      exact ⟨rfl, he⟩
  have hwill : ∀ u, WillUnblock m' u ↔ WillUnblock m u := by
    intro u
    unfold WillUnblock
    rw [hf.collector]
    cases hpc : m.collector
    case unblockRun v todo => simp only [(hrun v todo hpc).1]
    all_goals rfl
  refine ⟨⟨?_, ?_, fun hin u hu hmut hw => ?_⟩, hwill⟩
  · rw [hf.collector]
    exact h.nodup
  · rw [hf.collector]
    cases hpc : m.collector
    case unblockRun u todo =>
      obtain ⟨hp, hu⟩ := hrun u todo hpc
      rwa [Expects, hp]
    case unblockLock u todo =>
      have he := h.expects
      rw [hpc] at he
      by_cases hut : u = t
      · subst hut
        rw [Expects] at he
        rw [Expects, ht, Function.update_self,
          Blocking.requester_pc_eq hr fun a ha => by rw [he] at ha; cases ha]
        exact he
      · rw [Expects, ht, Function.update_of_ne hut]
        exact he
    all_goals trivial
  · rw [hf.collector] at hin
    rw [hphase] at hu
    exact (h.stopped hin u hu hmut ((hwill u).mp hw)).evolves (hf.evolves u)

end Resuming

omit [DecidableEq τ] [DecidableEq ι] in
theorem willUnblock_of_inBlockAll (h : m.collector.inBlockAll = true) : WillUnblock m t := by
  unfold WillUnblock
  cases hpc : m.collector <;> rw [hpc] at h <;> trivial

/-- What a step of the collector does to a mutator that may be past its request. -/
structure Goes (cfg : Config τ ι) (m m' : ThreadManager.State τ ι) : Prop where
  resuming : Resuming cfg m'
  covers : ∀ t, (m.phase t).isRegistered = true → cfg.isMutator t = true → WillUnblock m' t ∨
    ¬ WillUnblock m t ∧ (Blocks cfg.gc (m'.threads t) → Blocks cfg.gc (m.threads t)) ∨
    Released cfg.gc (m'.threads t)

namespace Goes

omit [DecidableEq τ] [DecidableEq ι] in
theorem of_inBlockAll (h : m'.collector.inBlockAll = true) : Goes cfg m m' := by
  have hin : m'.collector.inBlockAll ≠ false := by simp [h]
  refine ⟨⟨fun hn => absurd hn hin, ?_, fun hn => absurd hn hin⟩,
    fun _ _ _ => .inl (willUnblock_of_inBlockAll h)⟩
  unfold Expects
  cases hpc : m'.collector <;> rw [hpc] at h <;> trivial

omit [DecidableEq τ] [DecidableEq ι] in
/-- The collector goes on, and leaves the cells of the threads as they are. -/
theorem of_same (hphase : m'.phase = m.phase)
    (hthreads : ∀ u, (m'.threads u).thread = (m.threads u).thread ∧
      (m'.threads u).pc = (m.threads u).pc)
    (hn : m'.collector.listed.Nodup) (he : Expects cfg.gc m' m'.collector)
    (hstop : ∀ u, (m.phase u).isRegistered = true → cfg.isMutator u = true →
      WillUnblock m' u → Stopped cfg m u)
    (hcov : ∀ u, (m.phase u).isRegistered = true → cfg.isMutator u = true →
      WillUnblock m u → WillUnblock m' u) : Goes cfg m m' := by
  refine ⟨⟨fun _ => hn, he, fun _ u hu hmut hw => ?_⟩, fun u hu hmut => ?_⟩
  · have hst := hstop u (hphase ▸ hu) hmut hw
    rwa [Stopped, ThreadManager.Blocked, (hthreads u).1]
  · by_cases hw : WillUnblock m u
    · exact .inl (hcov u hu hmut hw)
    · refine .inr (.inl ⟨hw, ?_⟩)
      rw [Blocks, Blocks, (hthreads u).1, (hthreads u).2]
      exact id

variable {pc : CollectorPc τ}

theorem request (h : Resuming cfg m) {op : Blocking.RequesterOp ι}
    (hs : m.onThread t (Blocking.request (m.threads t) () op) pc = some m')
    (hin : m.collector.inBlockAll = false) (hn : pc.listed.Nodup)
    (he : ∀ c, Blocking.request (m.threads t) () op = some c →
      Expects cfg.gc { m.setThread t c with collector := pc } pc)
    (hw : ∀ c, Blocking.request (m.threads t) () op = some c → ∀ u,
      WillUnblock { m.setThread t c with collector := pc } u ↔ WillUnblock m u) :
    Goes cfg m m' := by
  obtain ⟨c, hc, rfl⟩ := Option.map_eq_some_iff.mp hs
  refine of_same rfl (fun u => ?_) hn (he c hc) (fun u hu hmut hwu => ?_)
    fun u _ _ => (hw c hc u).mpr
  · by_cases hut : u = t
    · subst hut
      simpa using ⟨(Blocking.request_result hc).1, Blocking.request_pc hc⟩
    · simp [hut]
  · exact h.stopped hin u hu hmut ((hw c hc u).mp hwu)

/-- The collector has got the monitor of the thread that it is going to unblock. -/
theorem unblockLock (h : Resuming cfg m) {todo : List τ}
    (hpc : m.collector = .unblockLock t todo)
    (hs : m.onThread t (Blocking.requesterStep (m.threads t) ()) (.unblockCall t todo) =
      some m') : Goes cfg m m' := by
  obtain ⟨c, hc, rfl⟩ := Option.map_eq_some_iff.mp hs
  have hlock := h.expects
  rw [hpc, Expects] at hlock
  simp only [Blocking.requesterStep, hlock] at hc
  have hin : m.collector.inBlockAll = false := by rw [hpc]; rfl
  have hn := h.nodup hin
  rw [hpc] at hn
  have hw : ∀ u, WillUnblock { m.setThread t c with collector := .unblockCall t todo } u ↔
      WillUnblock m u := fun u => by simp only [WillUnblock, hpc]
  refine of_same rfl (fun u => ?_) hn trivial (fun u hu hmut hwu => ?_) fun u _ _ => (hw u).mpr
  · by_cases hut : u = t
    · subst hut
      simpa using ⟨(Blocking.acquireFor_result hc).1, Blocking.acquireFor_pc hc⟩
    · simp [hut]
  · exact h.stopped hin u hu hmut ((hw u).mp hwu)

/-- A round of `unblock`; a mutator that loses its flag here was stopped until now. -/
theorem unblockRun (hb : Base cfg m) (h : Resuming cfg m) {todo : List τ}
    (hpc : m.collector = .unblockRun t todo)
    (hs : m.runMethod t (.unblockUnlock t todo) = some m') : Goes cfg m m' := by
  have he := h.expects
  rw [hpc, Expects] at he
  have hin : m.collector.inBlockAll = false := by rw [hpc]; rfl
  have hn := h.nodup hin
  rw [hpc] at hn
  unfold ThreadManager.State.runMethod at hs
  split at hs
  · next hidle =>
    obtain rfl := Option.some.inj hs
    have hw : ∀ u, WillUnblock { m with collector := .unblockUnlock t todo } u ↔
        WillUnblock m u := fun u => by
      simp only [WillUnblock, hpc, hidle, unblocks, Bool.false_eq_true, and_false, or_false]
    exact of_same rfl (fun _ => ⟨rfl, rfl⟩) hn trivial
      (fun u hu hmut hwu => h.stopped hin u hu hmut ((hw u).mp hwu)) fun u _ _ => (hw u).mpr
  · obtain ⟨c, hc, rfl⟩ := Option.map_eq_some_iff.mp hs
    have hstep := unblockStep_of_requesterStep hc he
    have htodo : t ∉ todo := (List.nodup_cons.mp hn).1
    have hw : ∀ u, WillUnblock { m.setThread t c with collector := m.collector } u ↔
        u ∈ todo ∨ u = t ∧ unblocks (c.requesters ()).pc = true := fun u => by
      simp only [WillUnblock, hpc, ThreadManager.State.setThread_self]
    have hw' : ∀ u, WillUnblock m u ↔
        u ∈ todo ∨ u = t ∧ unblocks ((m.threads t).requesters ()).pc = true := fun u => by
      simp only [WillUnblock, hpc]
    have hstopped := fun u hu hmut => h.stopped hin u hu hmut
    simp only [hw'] at hstopped
    refine ⟨⟨fun _ => by rw [hpc]; exact hn, ?_, fun _ u hu hmut hwu => ?_⟩, fun u hu hmut => ?_⟩
    · dsimp only
      rw [hpc, Expects]
      simpa using hstep.unblocking
    · rcases (hw u).mp hwu with hut | ⟨rfl, hun⟩
      · have hne : u ≠ t := ne_of_mem_of_not_mem hut htodo
        have hst := hstopped u hu hmut (.inl hut)
        simpa [Stopped, ThreadManager.Blocked, hne] using hst
      · obtain ⟨hun', hblocked, hdying⟩ := hstep.same hun
        have hst := hstopped u hu hmut (.inr ⟨rfl, hun'⟩)
        simpa [Stopped, ThreadManager.Blocked, hblocked, hdying] using hst
    · rw [hw, hw']
      by_cases hut : u = t
      · subst hut
        by_cases hun : unblocks ((m.threads u).requesters ()).pc = true
        · rcases hstep.cleared hun with hun' | ⟨hp, hshould, hblocked⟩
          · exact .inl (.inr ⟨rfl, hun'⟩)
          · -- the flag is gone, and the mutator was stopped until now
            have hst := hstopped u hu hmut (.inr ⟨rfl, hun⟩)
            obtain ⟨hman, hlock, hreq⟩ := released_of_stopped
              (hb.inv.threads u (ThreadManager.Phase.started_of_isRegistered hu)) cfg.gc_mem hst
            refine .inr (.inr ⟨?_, ?_⟩)
            · simpa [Blocks, hp, hshould, hblocked] using ⟨hlock, hreq⟩
            · simpa [hp] using hman
        · exact .inr (.inl ⟨by simp [htodo, hun], by simpa using hstep.blocks⟩)
      · by_cases hm : u ∈ todo
        · exact .inl (.inl hm)
        · exact .inr (.inl ⟨by simp [hm, hut], by simp [hut]⟩)

omit [DecidableEq τ] in
/-- The collector leaves `block_all_mutators_for_gc` when every mutator is stopped. -/
theorem returned (hb : Base cfg m) {acc : List τ} (hpc : m.collector = .collect [] acc) :
    Goes cfg m { m with innerLocked := false, collector := .returned acc } := by
  refine of_same rfl (fun _ => ⟨rfl, rfl⟩) .nil trivial (fun u hu hmut _ => ?_)
    fun _ _ _ _ => trivial
  exact (hb.stopping.remaining [] (by rw [hpc]; rfl) u (hb.table.mem_threads hu) hmut).resolve_left
    nofun

omit [DecidableEq τ] in
/-- The collector looks up whom to unblock; every mutator is in the table. -/
theorem unblockScan (hb : Base cfg m) (h : Resuming cfg m) (hpc : m.collector = .unblockScan) :
    Goes cfg m { m with
      innerLocked := true
      collector := .unblock
        ((m.inner.threads.filterMap id).filter fun t => !cfg.isCollectorThread t).reverse } := by
  have hall : ∀ u, WillUnblock m u := fun u => by simp [WillUnblock, hpc]
  refine of_same rfl (fun _ => ⟨rfl, rfl⟩) ?_ trivial (fun u hu hmut _ => ?_) fun u hu hmut _ => ?_
  · exact List.nodup_reverse.mpr
      (List.Nodup.filter _ (ThreadManager.Inner.nodup_filterMap hb.nodup))
  · exact h.stopped (by rw [hpc]; rfl) u hu hmut (hall u)
  · have hmem := hb.table.mem_threads hu
    simp only [Config.isMutator, Bool.and_eq_true, Bool.not_eq_true'] at hmut
    simpa [WillUnblock, hmut.1] using hmem

theorem collectorStep (hb : Base cfg m) (h : Resuming cfg m)
    (hs : ThreadManager.collectorStep cfg m = some m') : Goes cfg m m' := by
  by_cases hin : m.collector = .idle ∨ m.collector.inBlockAll = true
  · rcases ThreadManager.collectorStep_inBlockAll hs hin with hin' | ⟨acc, hpc⟩
    · exact of_inBlockAll hin'
    · simp only [ThreadManager.collectorStep, hpc] at hs
      cases hs
      exact returned hb hpc
  obtain ⟨hidle, hin⟩ := not_or.mp hin
  have hin := Bool.eq_false_iff.mpr hin
  have hn := h.nodup hin
  have hstop := h.stopped hin
  unfold ThreadManager.collectorStep at hs
  cases hpc : m.collector
  case returned acc =>
    simp only [hpc] at hs
    cases hs
    exact of_same rfl (fun _ => ⟨rfl, rfl⟩) .nil trivial
      (fun u hu hmut _ => hstop u hu hmut (by simp [WillUnblock, hpc])) fun _ _ _ _ => trivial
  case unblockScan =>
    simp only [hpc] at hs
    split at hs
    · cases hs
    · cases hs
      exact unblockScan hb h hpc
  case unblock todo =>
    rw [hpc] at hn
    cases todo with
    | nil =>
      simp only [hpc] at hs
      cases hs
      exact of_same rfl (fun _ => ⟨rfl, rfl⟩) .nil trivial (fun _ _ _ hw => False.elim hw)
        fun u _ _ hw => by simp [WillUnblock, hpc] at hw
    | cons t todo =>
      simp only [hpc] at hs
      refine request h hs hin hn (fun c hc => ?_) fun c _ u => by simp [WillUnblock, hpc]
      simpa [Expects] using lock_of_request hc
  case unblockLock t todo =>
    simp only [hpc] at hs
    exact unblockLock h hpc hs
  case unblockCall t todo =>
    rw [hpc] at hn
    simp only [hpc] at hs
    refine request h hs hin hn (fun c hc => ?_) fun c hc u => ?_
    · simp [Expects, unblockLock_of_request hc, Unblocking]
    · simp [WillUnblock, hpc, unblockLock_of_request hc, unblocks, or_comm]
  case unblockRun t todo =>
    simp only [hpc] at hs
    exact unblockRun hb h hpc hs
  case unblockUnlock t todo =>
    rw [hpc] at hn
    simp only [hpc] at hs
    exact request h hs hin (List.nodup_cons.mp hn).2 (fun _ _ => trivial) fun c _ u => by
      simp [WillUnblock, hpc]
  case idle => exact absurd hpc hidle
  all_goals
    rw [hpc] at hin
    cases hin

end Goes

end VmkitCore.YieldpointCollection
