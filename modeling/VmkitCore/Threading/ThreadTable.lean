import Mathlib.Data.List.Nodup
import Mathlib.Data.List.Perm.Subperm
import VmkitCore.Threading.ThreadManagerInvariant

/-! # The thread table

No thread ever gets the state `terminated`, so `process_about_to_terminate` frees
no slot: the table has no holes, every registered thread is at its index, and a
thread that is not registered yet is where `startoff` left it.
-/

namespace VmkitCore.Blocking

variable {ι ρ : Type*} {s s' : State ι ρ}

theorem ne_terminated_of_call {op : Op ι} (hs : call s op = some s') : s.pc ≠ .terminated := by
  intro hpc
  simp [call, hpc] at hs

variable [DecidableEq ι]

theorem ne_terminated_of_targetStep {as : List (BlockAdapter ι)}
    (hs : targetStep as s = some s') : s.pc ≠ .terminated := by
  intro hpc
  simp [targetStep, hpc] at hs

theorem requesterStep_terminated [DecidableEq ρ] {r : ρ} (hs : requesterStep s r = some s')
    (hpc : s.pc = .terminated) : s'.pc = .terminated := by
  rcases requesterStep_pc hs with he | he
  · exact he.trans hpc
  · rw [he, hpc]; rfl

end VmkitCore.Blocking

namespace VmkitCore.ThreadManager

variable {τ ι : Type*}

/-- The collector has the monitor of the manager at this step. -/
def CollectorPc.locksInner : CollectorPc τ → Bool
  | .idle | .scan | .process | .collectLock | .returned _ | .unblockScan => false
  | _ => true

/-- Where a thread is before it puts itself into the table. -/
def Phase.Starts : Phase → Blocking.State ι Unit → Prop
  | .unstarted, c => c = created
  | .spawned, c | .processing, c => c.pc = .managed ∧ c.thread.execStatus = .inManaged
  | .enabling, c =>
    (c.pc = .managed ∨ c.pc = .enableTest ∨ c.pc = .enableTake ∨ c.pc = .enableClear) ∧
      c.thread.execStatus = .inManaged
  | .parking, c =>
    (c.pc = .enterLoad ∨ c.pc = .enterCas) ∧ c.thread.execStatus = .inManaged ∨
      c.pc = .native ∧ c.thread.execStatus = .inNative
  | .parked scope, c => scope = true ∧ c.pc = .native ∧ c.thread.execStatus = .inNative
  | .leaving, _ | .running, _ => True

structure TableInv (s : State τ ι) : Prop where
  filled : none ∉ s.inner.threads
  free : s.inner.freeThreadIndices = []
  index : ∀ t, (s.phase t).isRegistered = true →
    s.inner.threads[s.indexInManager t]? = some (some t)
  ending : ∀ t ∈ s.inner.aboutToTerminate, (s.phase t).isRegistered = true ∧
    (s.threads t).pc = .terminated
  nodup : s.inner.aboutToTerminate.Nodup
  starts : ∀ t, (s.phase t).Starts (s.threads t)
  locked : s.innerLocked = s.collector.locksInner

namespace Inner

variable {m m' : Inner τ} {status : τ → ThreadState} {index : τ → ℕ} {t : τ}

theorem findTerminated_eq_none {threads : List (Option τ)}
    (h : ∀ o ∈ threads, ∃ t, o = some t ∧ status t ≠ .terminated) {i n : ℕ}
    (hn : i + n ≤ threads.length) : findTerminated status threads i n = some none := by
  induction n generalizing i with
  | zero => rfl
  | succ n ih =>
    have hi : i < threads.length := by omega
    obtain ⟨t, ht, hs⟩ := h _ (List.getElem_mem hi)
    rw [findTerminated, List.getElem?_eq_getElem hi, ht]
    simp only [hs, if_false]
    exact ih (by omega)

/-- Without a terminated thread in a full table there is nothing to process. -/
theorem process_eq_self (h : ∀ o ∈ m.threads, ∃ t, o = some t ∧ status t ≠ .terminated)
    (hn : m.aboutToTerminate.length ≤ m.threads.length) :
    m.processAboutToTerminate status index = some (m, false) := by
  rw [processAboutToTerminate, findTerminated_eq_none h (by omega)]
  rfl

theorem addThread_of_free (h : m.freeThreadIndices = []) :
    m.addThread t = ({ m with threads := m.threads ++ [some t] }, m.threads.length) := by
  simp [addThread, h]

theorem nodup_filterMap (h : m.threads.Nodup) : (m.threads.filterMap id).Nodup := by
  refine h.filterMap fun a b t ha hb => ?_
  obtain rfl : a = some t := ha
  obtain rfl : b = some t := hb
  rfl

/-- There are no more ending threads than slots. -/
theorem length_aboutToTerminate_le (hn : m.aboutToTerminate.Nodup)
    (hsub : ∀ t ∈ m.aboutToTerminate, some t ∈ m.threads) :
    m.aboutToTerminate.length ≤ m.threads.length := by
  have hmem : m.aboutToTerminate ⊆ m.threads.filterMap id :=
    fun t ht => List.mem_filterMap.mpr ⟨some t, hsub t ht, rfl⟩
  exact Nat.le_trans (List.subperm_of_subset hn hmem).length_le (List.length_filterMap_le ..)

end Inner

theorem Phase.starts_of_isRegistered {p : Phase} (h : p.isRegistered = true)
    (c : Blocking.State ι Unit) : p.Starts c := by
  cases p <;> trivial

variable [DecidableEq ι] {cfg : Config τ ι} {s s' : State τ ι} {t : τ}
  {c : Blocking.State ι Unit} {p : Phase} {pc : CollectorPc τ}

theorem Inv.status_ne_terminated (h : Inv cfg s) (ht : some t ∈ s.inner.threads) :
    s.status t ≠ .terminated := by
  have hr := Blocking.Pc.running_of_allows
    (h.threads t (Phase.started_of_isRegistered (h.members t ht))).status
  intro he
  rw [show (s.threads t).thread.execStatus = .terminated from he] at hr
  cases hr

namespace TableInv

omit [DecidableEq ι] in
theorem mem_threads (h : TableInv s) (hr : (s.phase t).isRegistered = true) :
    some t ∈ s.inner.threads := List.mem_of_getElem? (h.index t hr)

/-- `process_about_to_terminate` never panics, and never frees a slot. -/
theorem process (h : TableInv s) (hi : Inv cfg s) :
    s.inner.processAboutToTerminate s.status s.indexInManager = some (s.inner, false) := by
  refine Inner.process_eq_self (fun o ho => ?_) ?_
  · cases o with
    | none => exact absurd ho h.filled
    | some t => exact ⟨t, rfl, hi.status_ne_terminated ho⟩
  · exact Inner.length_aboutToTerminate_le h.nodup fun t ht => h.mem_threads (h.ending t ht).1

omit [DecidableEq ι] in
theorem setCollector (h : TableInv s) {b : Bool} (hb : b = pc.locksInner) :
    TableInv { s with innerLocked := b, collector := pc } :=
  ⟨h.filled, h.free, h.index, h.ending, h.nodup, h.starts, hb⟩

variable [DecidableEq τ]

omit [DecidableEq ι] in
/-- One thread goes on, and stays inside or outside of the table. -/
theorem update (h : TableInv s) (hr : p.isRegistered = (s.phase t).isRegistered)
    (hend : p.isRegistered = true → (s.threads t).pc = .terminated → c.pc = .terminated)
    (hst : p.Starts c) :
    TableInv { s with
      threads := Function.update s.threads t c
      phase := Function.update s.phase t p } := by
  have hphase : ∀ u, (Function.update s.phase t p u).isRegistered = (s.phase u).isRegistered := by
    intro u
    by_cases hu : u = t
    · subst hu; simpa using hr
    · simp [hu]
  refine ⟨h.filled, h.free, fun u hu => h.index u (hphase u ▸ hu), fun u hu => ?_, h.nodup,
    fun u => ?_, h.locked⟩
  · obtain ⟨hur, hupc⟩ := h.ending u hu
    refine ⟨(hphase u).trans hur, ?_⟩
    by_cases hut : u = t
    · subst hut
      simpa using hend (hr.trans hur) hupc
    · simpa [hut] using hupc
  · by_cases hut : u = t
    · subst hut; simpa using hst
    · simpa [hut] using h.starts u

omit [DecidableEq ι] in
/-- A step of a thread of the table. -/
theorem setThread (h : TableInv s) (hr : (s.phase t).isRegistered = true)
    (hend : (s.threads t).pc = .terminated → c.pc = .terminated) : TableInv (s.setThread t c) := by
  have hu := h.update (p := s.phase t) rfl (fun _ => hend) (Phase.starts_of_isRegistered hr c)
  rwa [Function.update_eq_self] at hu

omit [DecidableEq ι] in
theorem setPhase (h : TableInv s) (hr : p.isRegistered = (s.phase t).isRegistered)
    (hst : p.Starts (s.threads t)) : TableInv (s.setPhase t p) := by
  have hu := h.update (c := s.threads t) hr (fun _ => id) hst
  rwa [Function.update_eq_self] at hu

omit [DecidableEq ι] in
/-- `add_thread` puts the thread at the end of the table. -/
theorem addThread (h : TableInv s) (hr : (s.phase t).isRegistered = false)
    (hp : p.isRegistered = true) :
    TableInv ({ s with
      inner := (s.inner.addThread t).1
      indexInManager := Function.update s.indexInManager t (s.inner.addThread t).2 }.setPhase
        t p) := by
  rw [Inner.addThread_of_free h.free]
  refine ⟨?_, h.free, fun u hu => ?_, fun u hu => ?_, h.nodup, fun u => ?_, h.locked⟩
  · simpa using h.filled
  all_goals by_cases hut : u = t
  · subst hut; simp
  · have hu' := h.index u (by simpa [hut] using hu)
    have hlt := (List.getElem?_eq_some_iff.mp hu').1
    simpa [hut, List.getElem?_append_left hlt] using hu'
  · subst hut
    rw [(h.ending _ hu).1] at hr
    cases hr
  · simpa [hut] using h.ending u hu
  · subst hut; simpa using Phase.starts_of_isRegistered hp _
  · simpa [hut] using h.starts u

omit [DecidableEq ι] in
/-- The current thread of `add_about_to_terminate` is at its index. -/
theorem addAboutToTerminateCurrent (h : TableInv s) (hr : (s.phase t).isRegistered = true)
    (hpc : (s.threads t).pc = .terminateManager) (hc : c.pc = .terminated) {m : Inner τ}
    (hm : s.inner.addAboutToTerminateCurrent (s.indexInManager t) = some m) :
    TableInv { s.setThread t c with inner := m } := by
  simp only [Inner.addAboutToTerminateCurrent, h.index t hr] at hm
  obtain rfl := Option.some.inj hm
  have hs := h.setThread hr fun _ => hc
  have hnew : t ∉ s.inner.aboutToTerminate := by
    intro ht
    cases hpc.symm.trans (h.ending t ht).2
  refine ⟨h.filled, h.free, h.index, fun u hu => ?_, ?_, hs.starts, h.locked⟩
  · rcases List.mem_append.mp hu with hu | hu
    · exact hs.ending u hu
    · obtain rfl := List.mem_singleton.mp hu
      exact ⟨hr, by simpa using hc⟩
  · have hne : ∀ u ∈ s.inner.aboutToTerminate, u ≠ t := fun u hu => ne_of_mem_of_not_mem hu hnew
    exact List.nodup_append.mpr ⟨h.nodup, by simp, by simpa using hne⟩

theorem startup (h : TableInv s) (hi : Inv cfg s)
    (hs : ThreadManager.startup cfg s t = some s') : TableInv s' := by
  have hstart := h.starts t
  unfold ThreadManager.startup at hs
  cases hp : s.phase t
  all_goals simp only [hp, Phase.Starts] at hs hstart
  case unstarted =>
    obtain rfl := Option.some.inj hs
    exact h.update (by simp [hp, Phase.isRegistered]) (by rintro ⟨⟩)
      (by simp [hstart, Phase.Starts, created, Blocking.State.started])
  case spawned =>
    split at hs
    · obtain ⟨c, hc, rfl⟩ := Option.map_eq_some_iff.mp hs
      simp only [Blocking.call, hstart.1] at hc
      cases hc
      exact h.update (by simp [hp, Phase.isRegistered]) (by rintro ⟨⟩)
        (by simp [Phase.Starts, hstart, Blocking.State.setThread])
    · obtain rfl := Option.some.inj hs
      exact h.setPhase (by simp [hp, Phase.isRegistered]) hstart
  case enabling =>
    obtain ⟨hpc, hst⟩ := hstart
    split at hs
    · next hm =>
      obtain rfl := Option.some.inj hs
      exact h.setPhase (by simp [hp, Phase.isRegistered]) ⟨hm, hst⟩
    · obtain ⟨c, hc, rfl⟩ := Option.map_eq_some_iff.mp hs
      have hst' : Phase.enabling.Starts c := by
        rcases hpc with hpc | hpc | hpc | hpc
        · contradiction
        all_goals
          simp only [Blocking.targetStep, hpc] at hc
          obtain rfl := Option.some.inj hc
        · exact ⟨by dsimp only; split <;> simp, hst⟩
        · exact ⟨by simp [Blocking.State.setThread], hst⟩
        · exact ⟨by simp [Blocking.State.setThread], hst⟩
      have hu := h.update (p := .enabling) (by rw [hp]) (by rintro ⟨⟩) hst'
      rwa [← hp, Function.update_eq_self] at hu
  case processing =>
    split at hs
    · cases hs
    rw [h.process hi] at hs
    simp only [Option.bind_some, Bool.false_eq_true, if_false, hstart.2, reduceCtorEq, or_self,
      Blocking.call, hstart.1, Option.map_some] at hs
    obtain rfl := Option.some.inj hs
    exact h.update (by simp [hp, Phase.isRegistered]) (by rintro ⟨⟩) (.inl ⟨.inl rfl, hstart.2⟩)
  case parking =>
    split at hs
    · next hn =>
      obtain rfl := Option.some.inj hs
      refine h.setPhase (by simp [hp, Phase.isRegistered]) ⟨rfl, hn, ?_⟩
      rcases hstart with ⟨he | he, -⟩ | ⟨-, hst⟩
      · cases hn.symm.trans he
      · cases hn.symm.trans he
      · exact hst
    · next hn =>
      obtain ⟨c, hc, rfl⟩ := Option.map_eq_some_iff.mp hs
      have hst' : Phase.parking.Starts c := by
        rcases hstart with ⟨hpc | hpc, hst⟩ | ⟨hpc, -⟩
        · simp only [Blocking.targetStep, hpc, hst, if_true] at hc
          obtain rfl := Option.some.inj hc
          exact .inl ⟨.inr rfl, hst⟩
        · simp only [Blocking.targetStep, hpc, hst, if_true] at hc
          obtain rfl := Option.some.inj hc
          exact .inr ⟨rfl, rfl⟩
        · exact absurd hpc hn
      have hu := h.update (p := .parking) (by rw [hp]) (by rintro ⟨⟩) hst'
      rwa [← hp, Function.update_eq_self] at hu
  case parked scope =>
    split at hs
    · cases hs
    obtain rfl := Option.some.inj hs
    exact h.addThread (by simp [hp, Phase.isRegistered]) (by cases scope <;> rfl)
  case leaving =>
    have hr : (s.phase t).isRegistered = true := by rw [hp]; rfl
    split at hs
    · obtain rfl := Option.some.inj hs
      exact h.setPhase (by rw [hp]; rfl) trivial
    split at hs
    · obtain ⟨c, hc, rfl⟩ := Option.map_eq_some_iff.mp hs
      exact h.setThread hr fun he => absurd he (Blocking.ne_terminated_of_call hc)
    · obtain ⟨c, hc, rfl⟩ := Option.map_eq_some_iff.mp hs
      exact h.setThread hr fun he => absurd he (Blocking.ne_terminated_of_targetStep hc)
  case running => cases hs

omit [DecidableEq ι] in
theorem call (h : TableInv s) {op : Blocking.Op ι} (hs : ThreadManager.call s t op = some s') :
    TableInv s' := by
  obtain ⟨hp, c, hc, rfl⟩ := call_eq_some.mp hs
  exact h.setThread (by rw [hp]; rfl) fun he => absurd he (Blocking.ne_terminated_of_call hc)

theorem threadStep (h : TableInv s) (hs : ThreadManager.threadStep cfg s t = some s') :
    TableInv s' := by
  obtain ⟨hp, c, hc, hs⟩ := threadStep_cases hs
  have hr : (s.phase t).isRegistered = true := by rw [hp]; rfl
  rcases hs with ⟨-, rfl⟩ | ⟨hpc, -, m, hm, rfl⟩
  · exact h.setThread hr fun he => absurd he (Blocking.ne_terminated_of_targetStep hc)
  · simp only [Blocking.targetStep, hpc] at hc
    obtain rfl := Option.some.inj hc
    exact h.addAboutToTerminateCurrent hr hpc rfl hm

omit [DecidableEq ι] in
/-- The collector takes a step on a thread of the table. -/
theorem onThread (h : TableInv s) {o : Option (Blocking.State ι Unit)}
    (hs : s.onThread t o pc = some s') (hr : (s.phase t).isRegistered = true)
    (hend : ∀ c, o = some c → (s.threads t).pc = .terminated → c.pc = .terminated)
    (hl : s.collector.locksInner = pc.locksInner) : TableInv s' := by
  obtain ⟨c, hc, rfl⟩ := Option.map_eq_some_iff.mp hs
  exact (h.setThread hr (hend c hc)).setCollector (h.locked.trans hl)

theorem request (h : TableInv s) {op : Blocking.RequesterOp ι}
    (hs : s.onThread t (Blocking.request (s.threads t) () op) pc = some s')
    (hr : (s.phase t).isRegistered = true)
    (hl : s.collector.locksInner = pc.locksInner) : TableInv s' :=
  h.onThread hs hr (fun _ hc he => (Blocking.request_pc hc).trans he) hl

theorem requesterStep (h : TableInv s)
    (hs : s.onThread t (Blocking.requesterStep (s.threads t) ()) pc = some s')
    (hr : (s.phase t).isRegistered = true)
    (hl : s.collector.locksInner = pc.locksInner) : TableInv s' :=
  h.onThread hs hr (fun _ hc => Blocking.requesterStep_terminated hc) hl

theorem runMethod (h : TableInv s) (hs : s.runMethod t pc = some s')
    (hr : (s.phase t).isRegistered = true)
    (hl : s.collector.locksInner = pc.locksInner) : TableInv s' := by
  rcases State.runMethod_eq_some.mp hs with ⟨-, rfl⟩ | ⟨-, hs⟩
  · exact h.setCollector (h.locked.trans hl)
  · exact h.requesterStep hs hr rfl

theorem collectorStep (h : TableInv s) (hi : Inv cfg s)
    (hs : ThreadManager.collectorStep cfg s = some s') : TableInv s' := by
  have hl := hi.listed
  have hlock := h.locked
  unfold ThreadManager.collectorStep at hs
  cases hpc : s.collector
  all_goals
    simp only [hpc, CollectorPc.listed, CollectorPc.locksInner, List.mem_cons,
      List.mem_append] at hs hl hlock
  case retain todo kept =>
    cases todo with
    | nil =>
      cases kept <;> cases hs <;> exact h.setCollector (by simp [hlock, CollectorPc.locksInner])
    | cons t todo => exact h.request hs (hl t (.inl List.mem_cons_self)) (by rw [hpc]; rfl)
  case sync todo | unblock todo =>
    cases todo with
    | nil => cases hs; exact h.setCollector rfl
    | cons t todo => exact h.request hs (hl t List.mem_cons_self) (by rw [hpc]; rfl)
  case retainTest t todo kept =>
    split at hs
    · cases hs; exact h.setCollector (by simp [hlock, CollectorPc.locksInner])
    · exact h.request hs (hl t (.inl rfl)) (by rw [hpc]; rfl)
  case process =>
    split at hs
    · cases hs
    rw [h.process hi] at hs
    cases hs
    exact h.setCollector (hlock.trans rfl)
  case collect rest acc =>
    rcases rest with _ | ⟨_ | t, rest⟩ <;> cases hs <;>
      exact h.setCollector (by simp [hlock, CollectorPc.locksInner])
  case idle | returned => cases hs; exact h.setCollector (hlock.trans rfl)
  case scan | collectLock | unblockScan =>
    split at hs
    · cases hs
    · cases hs; exact h.setCollector rfl
  case retainLock t todo kept | syncLock t todo | unblockLock t todo =>
    exact h.requesterStep hs (hl t (.inl rfl)) (by rw [hpc]; rfl)
  case retainBlock t todo kept | syncBlock t todo | unblockRun t todo =>
    exact h.runMethod hs (hl t (.inl rfl)) (by rw [hpc]; rfl)
  case retainUnlock t todo kept | syncCall t todo | syncUnlock t todo | unblockCall t todo |
      unblockUnlock t todo =>
    exact h.request hs (hl t (.inl rfl)) (by rw [hpc]; rfl)

theorem step (h : TableInv s) (hi : Inv cfg s) {l : Label τ ι}
    (hs : ThreadManager.step cfg s l = some s') : TableInv s' := by
  cases l with
  | startup t => exact h.startup hi hs
  | call t op => exact h.call hs
  | step t => exact h.threadStep hs
  | collector => exact h.collectorStep hi hs

omit [DecidableEq ι] [DecidableEq τ] in
theorem new : TableInv (State.new : State τ ι) :=
  ⟨nofun, rfl, nofun, nofun, .nil, fun _ => rfl, rfl⟩

end TableInv

theorem tableInv_of_reachable [DecidableEq τ] {C : State τ ι → Label τ ι → Prop}
    (h : (machine cfg).ReachableUnder C s) : Inv cfg s ∧ TableInv s := by
  refine h.invariant (I := fun s => Inv cfg s ∧ TableInv s) ?_ fun _ _ _ ⟨hi, ht⟩ _ hs =>
    ⟨hi.step hs, ht.step hi hs⟩
  rintro s rfl
  exact ⟨Inv.new cfg, .new⟩

end VmkitCore.ThreadManager
