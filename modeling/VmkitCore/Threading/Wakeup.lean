import VmkitCore.Threading.SignalCollection
import VmkitCore.Threading.Sleeping

/-! # Missed wake-ups

Only the collector wakes a mutator that has blocked itself for a collection, and it
looks at every mutator once. So a mutator that is between its request and its block
at that time has to have another request to rely on.
-/

namespace VmkitCore.SignalCollection

variable {τ ι : Type*} {cfg : Config τ ι} {s s' : State τ ι} {t : τ}
  {c c' : Blocking.State ι Unit}

/-- In the loop of `check_block_no_save_context`, or before it. -/
def checks : Blocking.Pc ι → Bool
  | .checkLock _ | .checkBlocking _ | .checkAcknowledge _ | .checkNotify _ | .checkBlocked _
  | .asleep _ | .woken _ => true
  | _ => false

/-- Between acknowledging the requests and testing for a block. -/
def tests : Blocking.Pc ι → Bool
  | .checkNotify _ | .checkBlocked _ => true
  | _ => false

/-- The flags of a mutator, where it is, and who unblocks it. -/
structure FlagsOk (gc : ι) (c : Blocking.State ι Unit) : Prop where
  inside : c.thread.isBlockedFor gc = true ∨ c.thread.shouldBlockFor gc = true →
    checks c.pc = true
  tested : tests c.pc = true → c.thread.shouldBlockFor gc = false

/-- Between the call of `block_for_gc` and its end. -/
def Blocks (gc : ι) (c : Blocking.State ι Unit) : Prop :=
  c.pc = .blockLock (.flags gc) ∨ c.pc = .blockRequest (.flags gc) ∨
    c.thread.shouldBlockFor gc = true ∨ c.thread.isBlockedFor gc = true

variable [DecidableEq ι]

/-- Acknowledging wakes who waits on the monitor, or nobody. -/
theorem acknowledgeBlockRequests_pc (cfg : Config τ ι) (c : Blocking.State ι Unit) :
    ((acknowledgeBlockRequests cfg c).pc = c.pc ∨
      (acknowledgeBlockRequests cfg c).pc = c.pc.wake) ∧
    ((acknowledgeBlockRequests cfg c).requesters = c.requesters ∨
      (acknowledgeBlockRequests cfg c).requesters = c.notifyAll.requesters) := by
  unfold acknowledgeBlockRequests
  dsimp only
  split
  · exact ⟨.inr rfl, .inr rfl⟩
  · exact ⟨.inl rfl, .inl rfl⟩

variable {gc : ι} {as : List (BlockAdapter ι)}

omit [DecidableEq ι] in
theorem blocks_of_call {op : Blocking.Op ι} (hs : Blocking.call c op = some c')
    (hb : Blocks gc c') : Blocks gc c ∨ op = .blockSelf (.flags gc) := by
  unfold Blocking.call at hs
  split at hs <;> cases hs <;> rcases hb with hb | hb | hb | hb
  all_goals first
  | exact .inl (.inr (.inr (.inl hb)))
  | exact .inl (.inr (.inr (.inr hb)))
  | cases hb <;> exact .inr rfl

omit [DecidableEq ι] in
/-- Notifying brings nobody to where a block begins. -/
theorem blocks_of_notifyAll (hb : Blocks gc c.notifyAll) : Blocks gc c := by
  rcases hb with hb | hb | hb
  · exact .inl (Blocking.Pc.eq_of_wake hb (by simp))
  · exact .inr (.inl (Blocking.Pc.eq_of_wake hb (by simp)))
  · exact .inr (.inr hb)

theorem blocks_of_targetStep (hs : Blocking.targetStep as c = some c') (hb : Blocks gc c') :
    Blocks gc c := by
  obtain ⟨hshould, hblocked, hlocks, hrequests⟩ := Blocking.targetSets_of_targetStep (i := gc) hs
  rcases hb with hb | hb | hb | hb
  · exact absurd hb (hlocks _)
  · exact .inl (hrequests _ hb)
  · rcases hshould hb with hr | hp
    · exact .inr (.inr (.inl hr))
    · exact .inr (.inl hp)
  · rcases hblocked hb with hb | hr
    · exact .inr (.inr (.inr hb))
    · exact .inr (.inr (.inl hr))

/-- What a step leaves of the flags, and of the block. -/
structure Keeps (gc : ι) (c c' : Blocking.State ι Unit) : Prop where
  flags : FlagsOk gc c'
  blocks : Blocks gc c' → Blocks gc c
  blocked : c.thread.isBlockedFor gc = true → c'.thread.isBlockedFor gc = true
  should : c.thread.isBlockedFor gc = true → c.thread.shouldBlockFor gc = false →
    c'.thread.shouldBlockFor gc = false

theorem flags_of_acknowledge
    (ht : c'.thread = (c.thread.acknowledgeBlockRequests cfg.adapters).1) :
    c'.thread.isBlockedFor cfg.gc =
      (c.thread.isBlockedFor cfg.gc || c.thread.shouldBlockFor cfg.gc) ∧
    c'.thread.shouldBlockFor cfg.gc = false := by
  constructor <;> simp [ht, Thread.acknowledgeBlockRequests_fst, cfg.gc_mem]

namespace FlagsOk

omit [DecidableEq ι] in
theorem same (h : FlagsOk gc c) (hb : c'.thread.isBlockedFor = c.thread.isBlockedFor)
    (hr : c'.thread.shouldBlockFor = c.thread.shouldBlockFor)
    (hc : checks c.pc = true → checks c'.pc = true) (ht : tests c'.pc = false)
    (hl : Blocks gc c' → Blocks gc c) : Keeps gc c c' := by
  refine ⟨⟨?_, fun hf => absurd (ht.symm.trans hf) Bool.false_ne_true⟩, hl, fun hb' => hb ▸ hb',
    fun _ hr' => hr ▸ hr'⟩
  rw [hb, hr]
  exact fun hf => hc (h.inside hf)

/-- Acknowledging moves a request to the blocked flag. -/
theorem acknowledge (h : FlagsOk cfg.gc c)
    (ht : c'.thread = (c.thread.acknowledgeBlockRequests cfg.adapters).1)
    (hc : checks c.pc = true → checks c'.pc = true) (hl : Blocks cfg.gc c' → Blocks cfg.gc c) :
    Keeps cfg.gc c c' := by
  obtain ⟨hb, hr⟩ := flags_of_acknowledge ht
  refine ⟨⟨fun hf => hc (h.inside ?_), fun _ => hr⟩, hl, fun hf => by simp [hb, hf],
    fun _ _ => hr⟩
  simpa [hb, hr] using hf

theorem acknowledgeBlockRequests (h : FlagsOk cfg.gc c) :
    Keeps cfg.gc c (acknowledgeBlockRequests cfg c) := by
  have hthread : (SignalCollection.acknowledgeBlockRequests cfg c).thread =
      (c.thread.acknowledgeBlockRequests cfg.adapters).1 := by
    unfold SignalCollection.acknowledgeBlockRequests
    dsimp only
    split <;> rfl
  have hpc := (acknowledgeBlockRequests_pc cfg c).1
  refine h.acknowledge hthread (fun hin => ?_) fun hp => ?_
  · rcases hpc with hpc | hpc
    · rwa [hpc]
    · rw [hpc]
      cases hp : c.pc <;> rw [hp] at hin <;> first | rfl | cases hin
  · -- where a block begins, nobody is woken
    have hsame : ∀ pc, (pc = .blockLock (.flags cfg.gc) ∨ pc = .blockRequest (.flags cfg.gc)) →
        (SignalCollection.acknowledgeBlockRequests cfg c).pc = pc → c.pc = pc := by
      intro pc hl he
      rcases hpc with hpc | hpc
      · exact hpc.symm.trans he
      · apply Blocking.Pc.eq_of_wake (hpc.symm.trans he)
        intro f hf
        rcases hl with rfl | rfl <;> cases hf
    obtain ⟨hb, hr⟩ := flags_of_acknowledge hthread
    rcases hp with hp | hp | hp | hp
    · exact .inl (hsame _ (.inl rfl) hp)
    · exact .inr (.inl (hsame _ (.inr rfl) hp))
    · cases hr.symm.trans hp
    · exact .inr (.inr ((Bool.or_eq_true_iff.mp (hb.symm.trans hp)).symm))

omit [DecidableEq ι] in
theorem acquire (h : FlagsOk gc c) {pc : Blocking.Pc ι} (hs : c.acquire pc = some c')
    (hc : checks c.pc = true → checks pc = true) (ht : tests pc = false)
    (hl : Blocks gc c' → Blocks gc c) : Keeps gc c c' := by
  unfold Blocking.State.acquire at hs
  split at hs <;> cases hs
  exact h.same rfl rfl hc ht hl

theorem targetStep (h : FlagsOk cfg.gc c)
    (hs : Blocking.targetStep cfg.adapters c = some c') : Keeps cfg.gc c c' := by
  have hl : Blocks cfg.gc c' → Blocks cfg.gc c := blocks_of_targetStep hs
  unfold Blocking.targetStep at hs
  cases hpc : c.pc
  all_goals simp only [hpc] at hs
  case managed | native | asleep | terminated => cases hs
  case yieldpointLock | enterBlockedLock | woken | terminateLock | blockLock =>
    exact h.acquire hs (by simp [hpc, checks]) rfl hl
  case checkLock f =>
    cases f with
    | leaveNative => exact h.acquire hs (by simp [hpc, checks]) rfl hl
    | yieldpoint | blockSelf =>
      cases hs
      exact h.same rfl rfl (by simp [checks]) rfl hl
  case blockRequest a =>
    cases hs
    have hno : ¬ (c.thread.isBlockedFor cfg.gc = true ∨ c.thread.shouldBlockFor cfg.gc = true) :=
      fun hf => by simpa [hpc, checks] using h.inside hf
    exact ⟨⟨fun _ => rfl, nofun⟩, hl, fun hb => absurd (.inl hb) hno,
      fun hb => absurd (.inl hb) hno⟩
  case checkAcknowledge f =>
    cases hs
    refine h.acknowledge rfl (fun _ => ?_) hl
    dsimp only [Blocking.State.setThread]
    split <;> rfl
  case enterBlockedAcknowledge =>
    cases hs
    exact h.acknowledge rfl (by simp [hpc, checks]) hl
  case checkNotify f =>
    cases hs
    exact ⟨⟨fun _ => rfl, fun _ => h.tested (by rw [hpc]; rfl)⟩, hl, id, fun _ => id⟩
  case checkBlocked f =>
    split at hs <;> cases hs
    · exact h.same rfl rfl (by simp [checks]) rfl hl
    · next hn =>
      have hb := Thread.isBlocked_eq_false cfg.gc_mem (by simpa using hn)
      have hr := h.tested (by rw [hpc]; rfl)
      refine ⟨⟨fun hf => ?_, nofun⟩, hl, fun hf => ?_, fun _ hr => hr⟩
      · simp [hb, hr] at hf
      · rw [hb] at hf; cases hf
  case yieldpointTake | enterCas | leaveCas =>
    split at hs <;> cases hs <;> exact h.same rfl rfl (by simp [hpc, checks]) rfl hl
  case yieldpointEnabled | enterLoad | enableTest =>
    cases hs
    refine h.same rfl rfl (by simp [hpc, checks]) ?_ hl
    dsimp only
    split <;> rfl
  case leaveLoad block =>
    cases hs
    refine h.same rfl rfl (by simp [hpc, checks]) ?_ hl
    dsimp only
    repeat' split
    all_goals rfl
  case checkUnlock f =>
    cases f <;> cases hs <;> exact h.same rfl rfl (by simp [hpc, checks]) rfl hl
  case checkBlocking f =>
    cases hs
    exact h.same rfl rfl (fun _ => rfl) rfl hl
  all_goals
    cases hs
    exact h.same rfl rfl (by simp [hpc, checks]) rfl hl

omit [DecidableEq ι] in
/-- A call from managed or native code finds no flag set. -/
theorem call (h : FlagsOk gc c) {op : Blocking.Op ι} (hs : Blocking.call c op = some c') :
    FlagsOk gc c' ∧ (Blocks gc c' → op = .blockSelf (.flags gc)) ∧
      c.thread.isBlockedFor gc = false := by
  have hout : checks c.pc = false := by
    unfold Blocking.call at hs
    split at hs
    all_goals first | (next hpc => rw [hpc]; rfl) | cases hs
  have hno : c.thread.isBlockedFor gc = false ∧ c.thread.shouldBlockFor gc = false := by
    have hf : ¬ (c.thread.isBlockedFor gc = true ∨ c.thread.shouldBlockFor gc = true) := by
      intro hf
      rw [h.inside hf] at hout
      cases hout
    simpa [not_or] using hf
  obtain ⟨-, -, hblocked, hshould⟩ := Blocking.call_agrees hs
  refine ⟨⟨fun hf => ?_, fun _ => by rw [hshould, hno.2]⟩, fun hp => ?_, hno.1⟩
  · rw [hblocked, hshould, hno.1, hno.2] at hf
    exact absurd hf (by simp)
  · rw [Blocks, hblocked, hshould, hno.1, hno.2] at hp
    unfold Blocking.call at hs
    split at hs <;> cases hs <;> simp [Blocking.State.setThread] at hp
    next ha => rw [hp]

end FlagsOk

/-- The collector unblocks only mutators that it has found blocked. -/
def UnblockOk (gc : ι) (c : Blocking.State ι Unit) : Blocking.RequesterPc ι → Prop
  | .unblockLock a | .unblockClear a => a = .flags gc ∧ c.thread.isBlockedFor gc = true
  | .unblockMark a =>
    a = .flags gc ∧ c.thread.isBlockedFor gc = true ∧ c.thread.shouldBlockFor gc = false
  | .idle | .unblockNotify | .unblockUnlock => True
  | _ => False

/-- The collector is going to take the blocked flag back. -/
def unblocks : Blocking.RequesterPc ι → Bool
  | .unblockLock _ | .unblockClear _ | .unblockMark _ => true
  | _ => false

structure ThreadOk (gc : ι) (c : Blocking.State ι Unit) : Prop where
  flags : FlagsOk gc c
  unblock : UnblockOk gc c (c.requesters ()).pc

namespace ThreadOk

variable {gc : ι}

omit [DecidableEq ι] in
/-- A step of the mutator or of its handler. -/
theorem keeps (h : ThreadOk gc c) (hk : Keeps gc c c')
    (hr : c'.requesters = c.requesters ∨ c'.requesters = c.notifyAll.requesters) :
    ThreadOk gc c' ∧ (c'.requesters ()).pc = (c.requesters ()).pc := by
  have hu := h.unblock
  have hpc := Blocking.requester_pc_eq hr fun a ha => by
    rw [ha] at hu
    exact hu
  refine ⟨⟨hk.flags, ?_⟩, hpc⟩
  rw [hpc]
  cases hp : (c.requesters ()).pc
  all_goals
    rw [hp] at hu
    first
    | exact hu
    | exact hu.imp_right hk.blocked
    | exact ⟨hu.1, hk.blocked hu.2.1, hk.should hu.2.1 hu.2.2⟩

omit [DecidableEq ι] in
theorem isBlockedFor_of_unblocks (h : ThreadOk gc c)
    (hr : unblocks (c.requesters ()).pc = true) : c.thread.isBlockedFor gc = true := by
  have hu := h.unblock
  cases hpc : (c.requesters ()).pc <;> rw [hpc] at hr hu
  case unblockLock | unblockClear => exact hu.2
  case unblockMark => exact hu.2.1
  all_goals cases hr

/-- The collector, inside of `unblock`. -/
theorem requesterStep (h : ThreadOk gc c) (hs : Blocking.requesterStep c () = some c') :
    ThreadOk gc c' ∧ (Blocks gc c' → Blocks gc c) ∧
      (unblocks (c.requesters ()).pc = true →
        unblocks (c'.requesters ()).pc = true ∨ ¬ Blocks gc c') := by
  have hu := h.unblock
  have hlock := fun a hpc => Blocking.unblockLock_result (a := a) hpc hs
  unfold Blocking.requesterStep at hs
  cases hpc : (c.requesters ()).pc
  all_goals
    rw [hpc] at hu
    simp only [hpc] at hs
  case unblockLock a =>
    obtain ⟨ht, hp, hr⟩ := hlock a hpc
    refine ⟨⟨⟨?_, ?_⟩, ?_⟩, ?_, fun _ => .inl (by rw [hr]; rfl)⟩
    · rw [ht, hp]; exact h.flags.inside
    · rw [ht, hp]; exact h.flags.tested
    · rw [hr]
      simpa [UnblockOk, ht] using hu
    · simp only [Blocks, ht, hp]
      exact id
  case unblockClear a =>
    obtain ⟨rfl, hb⟩ := hu
    cases hs
    refine ⟨⟨⟨fun hf => h.flags.inside ?_, fun _ => ?_⟩, ?_⟩, fun hp => .inr (.inr (.inr hb)),
      fun _ => .inl ?_⟩
    · exact .inl hb
    · simp [Blocking.State.goto, Blocking.State.setRequester, BlockAdapter.clearBlockRequest]
    · simpa [UnblockOk, Blocking.State.goto, Blocking.State.setRequester,
        BlockAdapter.clearBlockRequest] using hb
    · simp [Blocking.State.goto, Blocking.State.setRequester, unblocks]
  case unblockMark a =>
    obtain ⟨rfl, hb, hr⟩ := hu
    have hin := h.flags.inside (.inl hb)
    cases hs
    have hno : ¬ Blocks gc (Blocking.State.goto { c with
        thread := BlockAdapter.setBlocked (.flags gc) false c.thread } () .unblockNotify) := by
      rintro (hp | hp | hp | hp)
      · rw [show c.pc = _ from hp] at hin; cases hin
      · rw [show c.pc = _ from hp] at hin; cases hin
      · exact absurd (hr.symm.trans hp) (by simp)
      · simp [Blocking.State.goto, Blocking.State.setRequester, BlockAdapter.setBlocked] at hp
    refine ⟨⟨⟨fun hf => hin, fun _ => hr⟩, ?_⟩, fun hp => absurd hp hno, fun _ => .inr hno⟩
    simp [UnblockOk, Blocking.State.goto, Blocking.State.setRequester]
  case unblockNotify =>
    cases hs
    have hwake : ∀ pc : Blocking.Pc ι, checks pc.wake = checks pc ∧ tests pc.wake = tests pc :=
      fun pc => by cases pc <;> exact ⟨rfl, rfl⟩
    refine ⟨⟨⟨fun hf => (hwake _).1.trans (h.flags.inside hf), fun hf => ?_⟩, ?_⟩,
      fun hp => ?_, by simp [unblocks]⟩
    · exact h.flags.tested ((hwake _).2.symm.trans hf)
    · simp [UnblockOk, Blocking.State.goto, Blocking.State.setRequester]
    · exact blocks_of_notifyAll (c := c) hp
  case unblockUnlock =>
    cases hs
    refine ⟨⟨⟨h.flags.inside, h.flags.tested⟩, ?_⟩, id, by simp [unblocks]⟩
    simp [UnblockOk, Blocking.State.finish, Blocking.State.goto, Blocking.State.setRequester]
  case idle => cases hs
  all_goals cases hu

end ThreadOk

/-- Past its request for a collection, and not past the block that belongs to it. -/
def Pending (cfg : Config τ ι) (s : State τ ι) (t : τ) : Prop :=
  s.posted t = true ∨ Blocks cfg.gc (s.threads t)

/-- The collector has yet to look at the mutator, or is about to take its blocked flag back. -/
def WillCheck (s : State τ ι) (t : τ) : Prop :=
  match s.collector with
  | .idle => False
  | .stop _ | .stopped => True
  | .resume todo => t ∈ todo
  | .check u todo => t = u ∨ t ∈ todo
  | .unblockRun u todo => t ∈ todo ∨ t = u ∧ unblocks ((s.threads u).requesters ()).pc = true

/-- A mutator that the collector does not find blocked is not on its way to block itself. -/
def CollectorPc.Catches (cfg : Config τ ι) (s : State τ ι) : CollectorPc τ → Prop
  | .check t _ => (s.threads t).thread.isBlockedFor cfg.gc = false → Pending cfg s t →
    s.requested = true
  | _ => True

/-- Every mutator that is caught on its way has another request to rely on. -/
def Caught (cfg : Config τ ι) (s : State τ ι) : Label τ ι → Prop
  | .collector => s.collector.Catches cfg s
  | _ => True

instance (gc : ι) (c : Blocking.State ι Unit) : Decidable (Blocks gc c) :=
  inferInstanceAs (Decidable (_ ∨ _ ∨ _ ∨ _))

instance (cfg : Config τ ι) (s : State τ ι) (t : τ) : Decidable (Pending cfg s t) :=
  inferInstanceAs (Decidable (_ ∨ _))

instance (cfg : Config τ ι) (s : State τ ι) : ∀ pc, Decidable (CollectorPc.Catches cfg s pc)
  | .check .. => inferInstanceAs (Decidable (_ → _ → _))
  | .idle | .stop _ | .stopped | .resume _ | .unblockRun .. => inferInstanceAs (Decidable True)

instance (cfg : Config τ ι) (s : State τ ι) : ∀ l, Decidable (Caught cfg s l)
  | .collector => inferInstanceAs (Decidable (CollectorPc.Catches ..))
  | .post _ | .call .. | .step _ | .handler _ | .clearRequest => inferInstanceAs (Decidable True)

structure Inv (cfg : Config τ ι) (s : State τ ι) : Prop where
  threads : ∀ t, ThreadOk cfg.gc (s.threads t)
  posted : ∀ t, s.posted t = true → (s.threads t).pc = .managed
  covered : ∀ t ∈ cfg.mutators, Pending cfg s t → s.requested = true ∨ WillCheck s t

variable [DecidableEq τ]

omit [DecidableEq ι] in
theorem State.setPosted_eq_self : (s.setThread t c).setPosted t (s.posted t) = s.setThread t c := by
  simp only [State.setPosted, State.setThread, Function.update_eq_self]

omit [DecidableEq ι] in
theorem willCheck_setThread (hr : (c.requesters ()).pc = ((s.threads t).requesters ()).pc) (u : τ) :
    WillCheck (s.setThread t c) u ↔ WillCheck s u := by
  have hpc : ∀ v, (((s.setThread t c).threads v).requesters ()).pc =
      ((s.threads v).requesters ()).pc := by
    intro v
    by_cases hv : v = t
    · subst hv; simpa [State.setThread] using hr
    · simp [State.setThread, hv]
  unfold WillCheck
  simp only [hpc]
  rfl

namespace Inv

omit [DecidableEq ι] in
/-- A step of a mutator that does not post a request. -/
theorem setThread (h : Inv cfg s) {b : Bool} (hc : ThreadOk cfg.gc c)
    (hr : (c.requesters ()).pc = ((s.threads t).requesters ()).pc)
    (hb : b = true → c.pc = .managed)
    (hpend : b = true ∨ Blocks cfg.gc c → Pending cfg s t) :
    Inv cfg ((s.setThread t c).setPosted t b) := by
  refine ⟨fun u => ?_, fun u hu => ?_, fun u hu hp => ?_⟩
  · by_cases hut : u = t
    · subst hut; simpa [State.setThread, State.setPosted] using hc
    · simpa [State.setThread, State.setPosted, hut] using h.threads u
  · by_cases hut : u = t
    · subst hut
      simpa [State.setThread, State.setPosted] using hb (by simpa [State.setPosted] using hu)
    · simpa [State.setThread, State.setPosted, hut] using
        h.posted u (by simpa [State.setThread, State.setPosted, hut] using hu)
  · have hp' : Pending cfg s u := by
      by_cases hut : u = t
      · subst hut
        exact hpend (by simpa [Pending, State.setThread, State.setPosted] using hp)
      · simpa [Pending, State.setThread, State.setPosted, hut] using hp
    exact (h.covered u hu hp').imp_right (willCheck_setThread hr u).mpr

theorem post (h : Inv cfg s) (hs : step cfg s (.post t) = some s') : Inv cfg s' := by
  simp only [step] at hs
  split at hs
  · next hpc =>
    cases hs
    refine ⟨h.threads, fun u hu => ?_, fun _ _ _ => .inl rfl⟩
    by_cases hut : u = t
    · subst hut; exact hpc.2
    · exact h.posted u (by simpa [State.setPosted, hut] using hu)
  · cases hs

theorem call (h : Inv cfg s) {op : Blocking.Op ι}
    (hs : SignalCollection.call cfg s t op = some s') : Inv cfg s' := by
  unfold SignalCollection.call at hs
  split at hs
  · next hrun =>
    obtain ⟨c, hc, rfl⟩ := Option.map_eq_some_iff.mp hs
    obtain ⟨hflags, hblocks, hb⟩ := (h.threads t).flags.call hc
    have hreq := Blocking.call_requesters hc
    have hunblock := (h.threads t).unblock
    refine h.setThread ⟨hflags, ?_⟩ (by rw [hreq]) nofun fun hp => ?_
    · rw [hreq]
      cases hpc : ((s.threads t).requesters ()).pc
      all_goals
        rw [hpc] at hunblock
        first
        | exact hunblock
        | exact absurd (hb.symm.trans hunblock.2) (by simp)
        | exact absurd (hb.symm.trans hunblock.2.1) (by simp)
    · exact .inl (hrun.2.mpr (hblocks (hp.resolve_left (by simp))))
  · cases hs

theorem threadStep (h : Inv cfg s) (hs : step cfg s (.step t) = some s') : Inv cfg s' := by
  simp only [step] at hs
  split at hs
  · obtain ⟨c, hc, rfl⟩ := Option.map_eq_some_iff.mp hs
    have hk := (h.threads t).flags.targetStep hc
    obtain ⟨hok, hr⟩ := (h.threads t).keeps hk (Blocking.targetStep_requesters hc)
    have hnot : s.posted t ≠ true := by
      intro hp
      simp [Blocking.targetStep, h.posted t hp] at hc
    have hi := h.setThread (b := s.posted t) hok hr (fun hp => absurd hp hnot)
      fun hp => .inr (hk.blocks (hp.resolve_left hnot))
    rwa [State.setPosted_eq_self] at hi
  · cases hs

theorem handler (h : Inv cfg s) (hs : handlerStep cfg s t = some s') : Inv cfg s' := by
  unfold handlerStep at hs
  split at hs
  · obtain rfl := Option.some.inj hs
    have hk := (h.threads t).flags.acknowledgeBlockRequests
    obtain ⟨hpc, hreq⟩ := acknowledgeBlockRequests_pc cfg (s.threads t)
    obtain ⟨hok, hr⟩ := (h.threads t).keeps hk hreq
    have hi := h.setThread (b := s.posted t) hok hr (fun hp => ?_) fun hp =>
      hp.imp_right hk.blocks
    · rw [State.setPosted_eq_self] at hi
      exact ⟨hi.threads, hi.posted, hi.covered⟩
    · have hm := h.posted t hp
      rcases hpc with hpc | hpc <;> rw [hpc, hm]
      rfl
  · cases hs

omit [DecidableEq ι] [DecidableEq τ] in
/-- The collector goes on to its next step. -/
theorem goto (h : Inv cfg s) {pc : CollectorPc τ}
    (hcovered : ∀ u ∈ cfg.mutators, WillCheck s u → Pending cfg s u →
      s.requested = true ∨ WillCheck (s.goto pc) u) : Inv cfg (s.goto pc) :=
  ⟨h.threads, h.posted, fun u hu hp => (h.covered u hu hp).elim .inl fun hw => hcovered u hu hw hp⟩

omit [DecidableEq ι] in
theorem setSuspension (h : Inv cfg s) (x : Suspension) : Inv cfg (s.setSuspension t x) :=
  ⟨h.threads, h.posted, h.covered⟩

theorem check (h : Inv cfg s) {todo : List τ} (hpc : s.collector = .check t todo)
    (hc : s.collector.Catches cfg s) (hs : collectorStep cfg s = some s') : Inv cfg s' := by
  have hwill : ∀ u, WillCheck s u → u = t ∨ u ∈ todo := fun u hw => by
    simpa only [WillCheck, hpc] using hw
  simp only [collectorStep, hpc] at hs
  rw [hpc] at hc
  split at hs
  · next hb =>
    obtain ⟨c, hreq, rfl⟩ := Option.map_eq_some_iff.mp hs
    obtain ⟨-, rfl⟩ := Blocking.request_eq_some.mp hreq
    have hthread : ∀ u, ((s.setThread t ((s.threads t).goto () (.unblockLock (.flags cfg.gc)))).goto
        (.unblockRun t todo)).threads u = if u = t then
          (s.threads t).goto () (.unblockLock (.flags cfg.gc)) else s.threads u := fun u => by
      by_cases hu : u = t <;> simp [State.setThread, State.goto, hu]
    refine ⟨fun u => ?_, fun u hu => ?_, fun u hu hp => ?_⟩
    · rw [hthread]
      split
      · refine ⟨⟨(h.threads t).flags.inside, (h.threads t).flags.tested⟩, ?_⟩
        simpa [UnblockOk, Blocking.State.goto, Blocking.State.setRequester] using hb
      · exact h.threads u
    · rw [hthread]
      split
      · next hut => exact h.posted t (hut ▸ hu)
      · exact h.posted u hu
    · have hp' : Pending cfg s u := by
        rw [Pending, hthread] at hp
        split at hp
        · next hut => subst hut; exact hp
        · exact hp
      refine (h.covered u hu hp').imp_right fun hw => (hwill u hw).elim (fun hut => .inr ?_) .inl
      rw [hthread, if_pos rfl]
      simp [hut, Blocking.State.goto, Blocking.State.setRequester, unblocks]
  · next hb =>
    obtain rfl := Option.some.inj hs
    apply h.goto
    intro u _ hw hp
    rcases hwill u hw with rfl | hu
    · exact .inl (hc (by simpa using hb) hp)
    · exact .inr hu

theorem unblockRun (h : Inv cfg s) {todo : List τ} (hpc : s.collector = .unblockRun t todo)
    (hs : collectorStep cfg s = some s') : Inv cfg s' := by
  simp only [collectorStep, hpc] at hs
  split at hs
  · next hidle =>
    obtain rfl := Option.some.inj hs
    apply h.goto
    intro u _ hw _
    simp only [WillCheck, hpc, hidle, unblocks, Bool.false_eq_true, and_false, or_false] at hw
    exact .inr hw
  · obtain ⟨c, hc, rfl⟩ := Option.map_eq_some_iff.mp hs
    obtain ⟨hok, hblocks, hun⟩ := (h.threads t).requesterStep hc
    have hpc' : ∀ u, s.posted u = true → ((s.setThread t c).threads u).pc = .managed := by
      intro u hu
      by_cases hut : u = t
      · subst hut
        have hm := h.posted u hu
        simp only [State.setThread, Function.update_self]
        rcases Blocking.requesterStep_pc hc with he | he <;> rw [he, hm]
        rfl
      · simpa [State.setThread, hut] using h.posted u hu
    refine ⟨fun u => ?_, hpc', fun u hu hp => ?_⟩
    · by_cases hut : u = t
      · subst hut; simpa [State.setThread] using hok
      · simpa [State.setThread, hut] using h.threads u
    · have hp' : Pending cfg s u := by
        by_cases hut : u = t
        · subst hut
          exact hp.imp_right fun hb => hblocks (by simpa [State.setThread] using hb)
        · simpa [Pending, State.setThread, hut] using hp
      apply (h.covered u hu hp').imp_right
      intro hw
      simp only [WillCheck, hpc] at hw
      simp only [WillCheck, State.setThread, hpc]
      apply hw.imp_right
      rintro ⟨rfl, hw⟩
      refine ⟨rfl, ?_⟩
      rw [Function.update_self]
      apply (hun hw).resolve_right
      intro hn
      -- a mutator whose flag is taken back has not posted another request
      have hposted := hp.resolve_right (by simpa [State.setThread] using hn)
      have hin := (h.threads u).flags.inside (.inl ((h.threads u).isBlockedFor_of_unblocks hw))
      rw [h.posted u hposted] at hin
      cases hin

theorem collectorStep (h : Inv cfg s) (hc : s.collector.Catches cfg s)
    (hs : SignalCollection.collectorStep cfg s = some s') : Inv cfg s' := by
  cases hpc : s.collector with
  | check t todo => exact h.check hpc hc hs
  | unblockRun t todo => exact h.unblockRun hpc hs
  | idle =>
    simp only [SignalCollection.collectorStep, hpc] at hs
    split at hs <;> cases hs
    exact h.goto fun _ _ _ _ => .inr trivial
  | stop todo =>
    cases todo with
    | nil =>
      simp only [SignalCollection.collectorStep, hpc] at hs
      cases hs
      exact h.goto fun _ _ _ _ => .inr trivial
    | cons t todo =>
      simp only [SignalCollection.collectorStep, hpc] at hs
      split at hs <;> cases hs
      · exact h.goto fun _ _ _ _ => .inr trivial
      · exact (h.setSuspension .acknowledging).goto fun _ _ _ _ => .inr trivial
  | stopped =>
    simp only [SignalCollection.collectorStep, hpc] at hs
    cases hs
    exact h.goto fun _ hu _ _ => .inr hu
  | resume todo =>
    cases todo with
    | nil =>
      simp only [SignalCollection.collectorStep, hpc] at hs
      cases hs
      exact h.goto fun u _ hw _ => by simp [WillCheck, hpc] at hw
    | cons t todo =>
      have hnext : ∀ u, WillCheck s u → u = t ∨ u ∈ todo := fun u hw => by
        simpa [WillCheck, hpc] using hw
      simp only [SignalCollection.collectorStep, hpc] at hs
      split at hs
      · cases hs
        exact h.goto fun u _ hw _ => .inr (hnext u hw)
      · cases hs
      · cases hs
        exact (h.setSuspension .running).goto fun u _ hw _ => .inr (hnext u hw)

theorem step (h : Inv cfg s) {l : Label τ ι} (hc : Caught cfg s l)
    (hs : SignalCollection.step cfg s l = some s') : Inv cfg s' := by
  cases l with
  | post t => exact h.post hs
  | call t op => exact h.call hs
  | step t => exact h.threadStep hs
  | handler t => exact h.handler hs
  | clearRequest =>
    simp only [SignalCollection.step] at hs
    split at hs <;> cases hs
    all_goals
      next hpc => exact ⟨h.threads, h.posted, fun _ _ _ => .inr (by simp [WillCheck, hpc])⟩
  | collector => exact h.collectorStep hc hs

omit [DecidableEq ι] [DecidableEq τ] in
theorem new : Inv cfg (State.new : State τ ι) where
  threads _ := ⟨⟨by simp [State.new, Blocking.State.started, Thread.forMutator], nofun⟩, trivial⟩
  posted _ := nofun
  covered _ _ hp := by
    simp [Pending, Blocks, State.new, Blocking.State.started, Thread.forMutator] at hp

end Inv

theorem inv_of_reachable (h : (machine cfg).ReachableUnder (Caught cfg) s) : Inv cfg s := by
  refine h.invariant ?_ fun _ _ _ hi hc hs => hi.step hc hs
  rintro s rfl
  exact Inv.new

/-- Asleep in `check_block_no_save_context`, with a flag that only the collector takes back. -/
def WaitsForGc (cfg : Config τ ι) (s : State τ ι) (t : τ) : Prop :=
  (∃ f, (s.threads t).pc = .asleep f) ∧ ((s.threads t).thread.isBlockedFor cfg.gc = true ∨
    (s.threads t).thread.shouldBlockFor cfg.gc = true)

/--
In every run in which each mutator that the collector catches between its request and its block
has another request to rely on, no mutator waits while no collection is running or requested.
-/
theorem no_missed_wakeup (h : (machine cfg).ReachableUnder (Caught cfg) s)
    (hidle : s.collector = .idle) (hreq : s.requested = false) :
    ∀ t ∈ cfg.mutators, ¬ WaitsForGc cfg s t := by
  rintro t ht ⟨-, hflags⟩
  have hi := inv_of_reachable h
  have hp : Pending cfg s t := .inr (.inr (.inr hflags.symm))
  rcases hi.covered t ht hp with hr | hw
  · rw [hr] at hreq; cases hreq
  · simp [WillCheck, hidle] at hw

/-- One mutator, and the adapter for collections. -/
def Config.single (t : τ) (gc : ι) : Config τ ι := ⟨[.flags gc], gc, by simp, [t], by simp⟩

def Config.mutator : Config Unit Unit := .single () ()

/-- The mutator is asleep in its block when the collection begins. -/
def blockedRun : List (Label Unit Unit) :=
  [.post (), .call () (.blockSelf (.flags ()))] ++ List.replicate 7 (.step ()) ++
    [.collector, .clearRequest, .collector, .handler ()] ++ List.replicate 11 .collector

theorem no_missed_wakeup_blocked : ∃ s : State Unit Unit,
    (machine .mutator).checkedExec (Caught .mutator) .new blockedRun = some s ∧
    s.collector = .idle ∧ s.requested = false ∧ (s.threads ()).pc = .woken .blockSelf ∧
    ¬ WaitsForGc .mutator s () := by
  obtain ⟨s, hs, hidle, hreq, hpc⟩ : ∃ s : State Unit Unit,
      (machine .mutator).checkedExec (Caught .mutator) .new blockedRun = some s ∧
      s.collector = .idle ∧ s.requested = false ∧ (s.threads ()).pc = .woken .blockSelf :=
    ⟨_, rfl, rfl, rfl, rfl⟩
  exact ⟨s, hs, hidle, hreq, hpc,
    no_missed_wakeup (.checkedExec (.init rfl) hs) hidle hreq () (List.mem_singleton.mpr rfl)⟩

/-- The whole collection runs between the request of the mutator and its block. -/
theorem wakeup_missed : ∃ s : State Unit Unit,
    (machine .mutator).exec .new ([.post (), .collector, .clearRequest, .collector, .handler ()] ++
      List.replicate 5 .collector ++ .call () (.blockSelf (.flags ())) ::
      List.replicate 7 (.step ())) = some s ∧
    s.collector = .idle ∧ s.requested = false ∧ () ∈ Config.mutator.mutators ∧
    WaitsForGc .mutator s () :=
  ⟨_, rfl, rfl, rfl, List.mem_singleton.mpr rfl, ⟨.blockSelf, rfl⟩, .inl rfl⟩

end VmkitCore.SignalCollection
