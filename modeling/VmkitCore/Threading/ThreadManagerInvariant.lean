import VmkitCore.Threading.Evolution
import VmkitCore.Threading.ThreadManager

/-! # The thread manager invariant

Every started thread keeps the blocking invariant, and the collector only deals
with threads that are in the table.
-/

namespace VmkitCore.ThreadManager

variable {τ ι : Type*}

/-- The thread has put itself into the table. -/
def Phase.isRegistered : Phase → Bool
  | .leaving | .running => true
  | _ => false

/-- The threads that the collector still has to deal with. -/
def CollectorPc.listed : CollectorPc τ → List τ
  | .retain todo kept => todo ++ kept
  | .retainLock t todo kept | .retainTest t todo kept | .retainBlock t todo kept
  | .retainUnlock t todo kept => t :: (todo ++ kept)
  | .sync todo | .unblock todo => todo
  | .syncLock t todo | .syncCall t todo | .syncBlock t todo | .syncUnlock t todo
  | .unblockLock t todo | .unblockCall t todo | .unblockRun t todo | .unblockUnlock t todo =>
    t :: todo
  | _ => []

/-- A thread that has been created but not started. -/
def created : Blocking.State ι Unit :=
  { Blocking.State.started with thread := Thread.forMutator }

structure Inv [DecidableEq ι] (cfg : Config τ ι) (s : State τ ι) : Prop where
  fresh : ∀ t, s.phase t = .unstarted → s.threads t = created
  threads : ∀ t, s.phase t ≠ .unstarted → Blocking.Inv cfg.adapters (s.threads t)
  result : ∀ t, ((s.threads t).requesters ()).result.notRunning = true →
    (s.threads t).thread.isAboutToTerminate = true
  members : ∀ t, some t ∈ s.inner.threads → (s.phase t).isRegistered = true
  listed : ∀ t ∈ s.collector.listed, (s.phase t).isRegistered = true
  unblocks : ∀ t, ((s.threads t).requesters ()).pc.isUnblock = true →
    ∃ todo, s.collector = .unblockRun t todo

theorem Phase.started_of_isRegistered {p : Phase} (h : p.isRegistered = true) :
    p ≠ .unstarted := by
  rintro rfl
  cases h

section Startup

variable [DecidableEq τ] [DecidableEq ι] {cfg : Config τ ι} {s s' : State τ ι} {t : τ}

/-- What a step from `Thread::start` to the end of `add_thread` can do. -/
inductive StartupStep (cfg : Config τ ι) (s : State τ ι) (t : τ) : State τ ι → Prop
  | start (hp : s.phase t = .unstarted) :
    StartupStep cfg s t ((s.setThread t { s.threads t with
      thread := { (s.threads t).thread with execStatus := .inManaged } }).setPhase t .spawned)
  | enter {p : Phase} (hne : s.phase t ≠ .unstarted) (hrun : s.phase t ≠ .running)
    (hp : p ≠ .unstarted) (hr : p.isRegistered = (s.phase t).isRegistered) :
    StartupStep cfg s t (s.setPhase t p)
  | call {p : Phase} {c : Blocking.State ι Unit} {op : Blocking.Op ι}
    (hne : s.phase t ≠ .unstarted) (hp : p ≠ .unstarted)
    (hr : p.isRegistered = (s.phase t).isRegistered)
    (hc : Blocking.call (s.threads t) op = some c) (hop : op ≠ .terminate)
    (hblock : ∀ a, op ≠ .blockSelf a) :
    StartupStep cfg s t ((s.setThread t c).setPhase t p)
  | target {c : Blocking.State ι Unit} (hne : s.phase t ≠ .unstarted)
    (hc : Blocking.targetStep cfg.adapters (s.threads t) = some c) :
    StartupStep cfg s t (s.setThread t c)
  | again {m : Inner τ} (hp : s.phase t = .processing) (hlock : s.innerLocked = false)
    (hm : s.inner.processAboutToTerminate s.status s.indexInManager = some (m, true)) :
    StartupStep cfg s t { s with inner := m }
  /-- A thread that is not in managed code stays as it is in `parked_scope`. -/
  | park {m : Inner τ} (hp : s.phase t = .processing) (hlock : s.innerLocked = false)
    (hm : s.inner.processAboutToTerminate s.status s.indexInManager = some (m, false)) :
    StartupStep cfg s t ({ s with inner := m }.setPhase t (.parked false))
  | enterNative {m : Inner τ} {c : Blocking.State ι Unit} (hp : s.phase t = .processing)
    (hlock : s.innerLocked = false)
    (hm : s.inner.processAboutToTerminate s.status s.indexInManager = some (m, false))
    (hc : Blocking.call (s.threads t) .enterNative = some c) :
    StartupStep cfg s t (({ s with inner := m }.setThread t c).setPhase t .parking)
  | add {scope : Bool} (hp : s.phase t = .parked scope) (hlock : s.innerLocked = false) :
    StartupStep cfg s t ({ s with
      inner := (s.inner.addThread t).1
      indexInManager := Function.update s.indexInManager t (s.inner.addThread t).2 }.setPhase t
        (if scope then .leaving else .running))

theorem startup_cases (hs : startup cfg s t = some s') : StartupStep cfg s t s' := by
  unfold startup at hs
  cases hp : s.phase t
  all_goals simp only [hp] at hs
  case unstarted =>
    cases hs
    exact .start hp
  case spawned =>
    split at hs
    · obtain ⟨c, hc, rfl⟩ := Option.map_eq_some_iff.mp hs
      exact .call (by simp [hp]) nofun (by rw [hp]; rfl) hc nofun nofun
    · cases hs
      exact .enter (by simp [hp]) (by simp [hp]) nofun (by rw [hp]; rfl)
  case enabling | parking =>
    split at hs
    · cases hs
      exact .enter (by simp [hp]) (by simp [hp]) nofun (by rw [hp]; rfl)
    · obtain ⟨c, hc, rfl⟩ := Option.map_eq_some_iff.mp hs
      exact .target (by simp [hp]) hc
  case processing =>
    split at hs
    · cases hs
    next hlock =>
    have hlock : s.innerLocked = false := by simpa using hlock
    obtain ⟨⟨m, again⟩, hm, hs⟩ := Option.bind_eq_some_iff.mp hs
    cases again with
    | true =>
      cases hs
      exact .again hp hlock hm
    | false =>
      simp only [Bool.false_eq_true, if_false] at hs
      split at hs
      · cases hs
        exact .park hp hlock hm
      · obtain ⟨c, hc, rfl⟩ := Option.map_eq_some_iff.mp hs
        exact .enterNative hp hlock hm hc
  case parked scope =>
    split at hs
    · cases hs
    next hlock =>
    cases hs
    exact .add hp (by simpa using hlock)
  case leaving =>
    split at hs
    · cases hs
      exact .enter (by simp [hp]) (by simp [hp]) nofun (by rw [hp]; rfl)
    split at hs
    · obtain ⟨c, hc, rfl⟩ := Option.map_eq_some_iff.mp hs
      have he : (s.setThread t c).setPhase t (s.phase t) = s.setThread t c := by
        rw [State.setPhase, State.setThread, Function.update_eq_self]
      rw [← he]
      exact .call (by simp [hp]) (by simp [hp]) rfl hc nofun nofun
    · obtain ⟨c, hc, rfl⟩ := Option.map_eq_some_iff.mp hs
      exact .target (by simp [hp]) hc
  case running => cases hs

end Startup

namespace Inner

variable {m m' : Inner τ} {status : τ → ThreadState} {index : τ → ℕ} {again : Bool} {t u : τ}

/-- Processing the ending threads removes entries of the table and adds none. -/
theorem mem_of_process (h : m.processAboutToTerminate status index = some (m', again))
    (ht : some t ∈ m'.threads) : some t ∈ m.threads := by
  unfold processAboutToTerminate at h
  obtain ⟨o, -, ho⟩ := Option.bind_eq_some_iff.mp h
  split at ho
  · cases ho
    exact ht
  · split at ho <;> cases ho
    exact (List.mem_or_eq_of_mem_set ht).resolve_right nofun

theorem mem_addThread (h : some t ∈ (m.addThread u).1.threads) :
    some t ∈ m.threads ∨ t = u := by
  unfold addThread at h
  dsimp only at h
  split at h
  · rcases List.mem_append.mp h with h | h
    · exact .inl h
    · exact .inr (Option.some.inj (List.mem_singleton.mp h))
  · rcases List.mem_or_eq_of_mem_set h with h | h
    · exact .inl h
    · exact .inr (Option.some.inj h)

theorem threads_addAboutToTerminateCurrent {i : ℕ}
    (h : m.addAboutToTerminateCurrent i = some m') : m'.threads = m.threads := by
  unfold addAboutToTerminateCurrent at h
  split at h <;> cases h
  rfl

end Inner

variable [DecidableEq ι]

namespace Inv

variable {cfg : Config τ ι} {s s' : State τ ι} {t : τ} {c : Blocking.State ι Unit}

theorem setInner (h : Inv cfg s) {m : Inner τ} (index : τ → ℕ)
    (hm : ∀ t, some t ∈ m.threads → (s.phase t).isRegistered = true) :
    Inv cfg { s with inner := m, indexInManager := index } :=
  ⟨h.fresh, h.threads, h.result, hm, h.listed, h.unblocks⟩

/-- The collector goes on without a step of a thread. -/
theorem setCollector (h : Inv cfg s) {pc : CollectorPc τ} {b : Bool}
    (hl : ∀ t ∈ pc.listed, (s.phase t).isRegistered = true)
    (hn : ∀ t, ((s.threads t).requesters ()).pc.isUnblock = false) :
    Inv cfg { s with innerLocked := b, collector := pc } :=
  ⟨h.fresh, h.threads, h.result, h.members, hl, fun t ht => by rw [hn t] at ht; cases ht⟩

/-- Nobody unblocks, unless the collector runs `unblock` just now. -/
theorem not_unblock (h : Inv cfg s) (hpc : ∀ todo, s.collector ≠ .unblockRun t todo) :
    ((s.threads t).requesters ()).pc.isUnblock = false := by
  by_contra hu
  obtain ⟨todo, he⟩ := h.unblocks t (by simpa using hu)
  exact hpc todo he

variable [DecidableEq τ]

/-- A step of a started thread. -/
theorem setThread (h : Inv cfg s) (hp : s.phase t ≠ .unstarted)
    (hc : Blocking.Inv cfg.adapters c) (he : Blocking.Evolves (s.threads t) c) :
    Inv cfg (s.setThread t c) := by
  refine ⟨fun u hu => ?_, fun u hu => ?_, fun u hu => ?_, h.members, h.listed, fun u hu => ?_⟩
  all_goals
    by_cases hut : u = t
    · subst hut
      simp only [State.setThread, Function.update_self] at hu ⊢
      first
      | exact absurd hu hp
      | exact hc
      | exact (he.result () hu).elim (fun hr => he.aboutToTerminate (h.result u hr)) id
      | exact h.unblocks u (he.unblocks () hu)
    · simp only [State.setThread, Function.update_of_ne hut] at hu ⊢
      first
      | exact h.fresh u hu
      | exact h.threads u hu
      | exact h.result u hu
      | exact h.unblocks u hu

theorem setPhase (h : Inv cfg s) {p : Phase} (hp : s.phase t ≠ .unstarted) (hp' : p ≠ .unstarted)
    (hr : (s.phase t).isRegistered = true → p.isRegistered = true) :
    Inv cfg (s.setPhase t p) := by
  have hphase : ∀ u, (Function.update s.phase t p u = s.phase u) ∨
      u = t ∧ Function.update s.phase t p u = p := by
    intro u
    by_cases hu : u = t
    · subst hu; exact .inr ⟨rfl, by simp⟩
    · exact .inl (by simp [hu])
  have hreg : ∀ u, (s.phase u).isRegistered = true →
      (Function.update s.phase t p u).isRegistered = true := by
    intro u hu
    rcases hphase u with he | ⟨rfl, he⟩
    · rwa [he]
    · rw [he]; exact hr hu
  refine ⟨fun u hu => ?_, fun u hu => ?_, h.result, fun u hu => hreg u (h.members u hu),
    fun u hu => hreg u (h.listed u hu), h.unblocks⟩
  · rcases hphase u with he | ⟨rfl, he⟩
    · exact h.fresh u (he ▸ hu)
    · exact absurd (he.symm.trans hu) hp'
  · rcases hphase u with he | ⟨rfl, -⟩
    · exact h.threads u (he ▸ hu)
    · exact h.threads u hp

/-- A thread enters its start-up. -/
theorem spawn (h : Inv cfg s) (hp : s.phase t = .unstarted) (hc : Blocking.Inv cfg.adapters c)
    (hres : (c.requesters ()).result.notRunning = false)
    (hun : (c.requesters ()).pc.isUnblock = false) :
    Inv cfg ((s.setThread t c).setPhase t .spawned) := by
  have hreg : ∀ u, (s.phase u).isRegistered = true → u ≠ t := by
    rintro u hu rfl
    rw [hp] at hu
    cases hu
  refine ⟨fun u hu => ?_, fun u hu => ?_, fun u hu => ?_, fun u hu => ?_, fun u hu => ?_,
    fun u hu => ?_⟩
  · by_cases hut : u = t
    · subst hut; simp at hu
    · simpa [hut] using h.fresh u (by simpa [hut] using hu)
  · by_cases hut : u = t
    · subst hut; simpa using hc
    · simpa [hut] using h.threads u (by simpa [hut] using hu)
  · by_cases hut : u = t
    · subst hut; simp [hres] at hu
    · simpa [hut] using h.result u (by simpa [hut] using hu)
  · simpa [hreg u (h.members u hu)] using h.members u hu
  · simpa [hreg u (h.listed u hu)] using h.listed u hu
  · by_cases hut : u = t
    · subst hut; simp [hun] at hu
    · exact h.unblocks u (by simpa [hut] using hu)

theorem targetStep (h : Inv cfg s) (hp : s.phase t ≠ .unstarted)
    (hc : Blocking.targetStep cfg.adapters (s.threads t) = some c) : Inv cfg (s.setThread t c) :=
  h.setThread hp ((h.threads t hp).targetStep hc) (.targetStep hc)

theorem callThread (h : Inv cfg s) (hp : s.phase t ≠ .unstarted) {op : Blocking.Op ι}
    (hc : Blocking.call (s.threads t) op = some c) : Inv cfg (s.setThread t c) :=
  h.setThread hp ((h.threads t hp).call hc) (.call hc)

theorem startup (h : Inv cfg s) (hs : ThreadManager.startup cfg s t = some s') : Inv cfg s' := by
  have hprocess : ∀ {m again}, s.inner.processAboutToTerminate s.status s.indexInManager =
      some (m, again) → Inv cfg { s with inner := m } := fun hm =>
    h.setInner s.indexInManager fun u hu => h.members u (Inner.mem_of_process hm hu)
  cases startup_cases hs with
  | start hp =>
    rw [h.fresh t hp]
    exact h.spawn hp (.started cfg.adapters) rfl rfl
  | enter hne _ hp hr => exact h.setPhase hne hp hr.trans
  | call hne hp hr hc => exact (h.callThread hne hc).setPhase hne hp hr.trans
  | target hne hc => exact h.targetStep hne hc
  | again hp hlock hm => exact hprocess hm
  | park hp hlock hm =>
    exact (hprocess hm).setPhase (by simp [hp]) nofun (by simp [hp, Phase.isRegistered])
  | enterNative hp hlock hm hc =>
    have hne : s.phase t ≠ .unstarted := by simp [hp]
    exact ((hprocess hm).callThread hne hc).setPhase hne nofun (by simp [hp, Phase.isRegistered])
  | @add scope hp hlock =>
    have hne : s.phase t ≠ .unstarted := by simp [hp]
    have hr : (if scope then Phase.leaving else .running).isRegistered = true := by
      cases scope <;> rfl
    refine (h.setPhase hne (Phase.started_of_isRegistered hr) fun _ => hr).setInner _ fun u hu => ?_
    by_cases hut : u = t
    · subst hut; simpa using hr
    · simpa [hut] using h.members u ((Inner.mem_addThread hu).resolve_right hut)

theorem call (h : Inv cfg s) {op : Blocking.Op ι} (hs : ThreadManager.call s t op = some s') :
    Inv cfg s' := by
  obtain ⟨hp, c, hc, rfl⟩ := call_eq_some.mp hs
  exact h.callThread (by rw [hp]; exact nofun) hc

theorem threadStep (h : Inv cfg s) (hs : ThreadManager.threadStep cfg s t = some s') :
    Inv cfg s' := by
  obtain ⟨hp, c, hc, hs⟩ := threadStep_cases hs
  have hne : s.phase t ≠ .unstarted := by
    rw [hp]
    exact nofun
  rcases hs with ⟨-, rfl⟩ | ⟨-, -, m, hm, rfl⟩
  · exact h.targetStep hne hc
  · refine (h.targetStep hne hc).setInner s.indexInManager fun u hu => h.members u ?_
    rwa [← Inner.threads_addAboutToTerminateCurrent hm]

/-- The collector takes a step on a thread of the table. -/
theorem onThread (h : Inv cfg s) {pc : CollectorPc τ} (hp : (s.phase t).isRegistered = true)
    (hc : Blocking.Inv cfg.adapters c)
    (hres : (c.requesters ()).result.notRunning = true → c.thread.isAboutToTerminate = true)
    (hl : ∀ u ∈ pc.listed, (s.phase u).isRegistered = true)
    (hcur : ∀ u, u ≠ t → ∀ todo, s.collector ≠ .unblockRun u todo)
    (hun : (c.requesters ()).pc.isUnblock = true → ∃ todo, pc = .unblockRun t todo) :
    Inv cfg { s.setThread t c with collector := pc } := by
  have hne := Phase.started_of_isRegistered hp
  refine ⟨fun u hu => ?_, fun u hu => ?_, fun u hu => ?_, h.members, hl, fun u hu => ?_⟩
  all_goals
    by_cases hut : u = t
    · subst hut
      simp only [State.setThread, Function.update_self] at hu ⊢
      first
      | exact absurd hu hne
      | exact hc
      | exact hres hu
      | exact hun hu
    · simp only [State.setThread, Function.update_of_ne hut] at hu ⊢
      first
      | exact h.fresh u hu
      | exact h.threads u hu
      | exact h.result u hu
      | (rw [h.not_unblock (hcur u hut)] at hu; cases hu)

/-- A step on a thread that does not unblock it. -/
theorem onThread_evolves (h : Inv cfg s) {pc : CollectorPc τ}
    (hp : (s.phase t).isRegistered = true) (hc : Blocking.Inv cfg.adapters c)
    (he : Blocking.Evolves (s.threads t) c) (hl : ∀ u ∈ pc.listed, (s.phase u).isRegistered = true)
    (hcur : ∀ u todo, s.collector ≠ .unblockRun u todo) :
    Inv cfg { s.setThread t c with collector := pc } := by
  refine h.onThread hp hc (fun hr => ?_) hl (fun u _ => hcur u) (fun hu => ?_)
  · exact (he.result () hr).elim (fun hr => he.aboutToTerminate (h.result t hr)) id
  · have hu := he.unblocks () hu
    rw [h.not_unblock (hcur t)] at hu
    cases hu

theorem request (h : Inv cfg s) {pc : CollectorPc τ} {op : Blocking.RequesterOp ι}
    (hs : s.onThread t (Blocking.request (s.threads t) () op) pc = some s')
    (hp : (s.phase t).isRegistered = true) (hop : ∀ a, op ≠ .unblock a)
    (hl : ∀ u ∈ pc.listed, (s.phase u).isRegistered = true)
    (hcur : ∀ u todo, s.collector ≠ .unblockRun u todo) : Inv cfg s' := by
  obtain ⟨c, hc, rfl⟩ := Option.map_eq_some_iff.mp hs
  have hi := h.threads t (Phase.started_of_isRegistered hp)
  exact h.onThread_evolves hp (hi.request hc) (.request hc hop) hl hcur

theorem requesterStep (h : Inv cfg s) {pc : CollectorPc τ}
    (hs : s.onThread t (Blocking.requesterStep (s.threads t) ()) pc = some s')
    (hp : (s.phase t).isRegistered = true)
    (hl : ∀ u ∈ pc.listed, (s.phase u).isRegistered = true)
    (hcur : ∀ u todo, s.collector ≠ .unblockRun u todo) : Inv cfg s' := by
  obtain ⟨c, hc, rfl⟩ := Option.map_eq_some_iff.mp hs
  have hi := h.threads t (Phase.started_of_isRegistered hp)
  exact h.onThread_evolves hp (hi.requesterStep hc)
    (.requesterStep hi hc (h.not_unblock (hcur t))) hl hcur

/-- A round of a method of a thread, `unblock` included. -/
theorem runMethod (h : Inv cfg s) {pc : CollectorPc τ} (hs : s.runMethod t pc = some s')
    (hp : (s.phase t).isRegistered = true)
    (hl : ∀ u ∈ pc.listed, (s.phase u).isRegistered = true)
    (hcur : ∀ u, u ≠ t → ∀ todo, s.collector ≠ .unblockRun u todo) : Inv cfg s' := by
  rcases State.runMethod_eq_some.mp hs with ⟨hidle, rfl⟩ | ⟨-, hs⟩
  · refine h.setCollector hl fun u => ?_
    by_cases hut : u = t
    · rw [hut, hidle]; rfl
    · exact h.not_unblock (hcur u hut)
  · obtain ⟨c, hc, rfl⟩ := Option.map_eq_some_iff.mp hs
    have hi := h.threads t (Phase.started_of_isRegistered hp)
    cases hu : ((s.threads t).requesters ()).pc.isUnblock with
    | false =>
      have he := Blocking.Evolves.requesterStep hi hc hu
      refine h.onThread hp (hi.requesterStep hc) (fun hr => ?_) h.listed hcur (fun hu' => ?_)
      · exact (he.result () hr).elim (fun hr => he.aboutToTerminate (h.result t hr)) id
      · rw [he.unblocks () hu'] at hu
        cases hu
    | true =>
      obtain ⟨ha, hr⟩ := Blocking.unblockStep_result hc hu
      exact h.onThread hp (hi.requesterStep hc) (by rw [ha, hr]; exact h.result t) h.listed hcur
        fun _ => h.unblocks t hu

/-- The call of `unblock` on the current thread. -/
theorem unblockCall (h : Inv cfg s) {todo : List τ} {a : BlockAdapter ι}
    (hs : s.onThread t (Blocking.request (s.threads t) () (.unblock a)) (.unblockRun t todo) =
      some s') (hl : ∀ u ∈ t :: todo, (s.phase u).isRegistered = true)
    (hcur : ∀ u todo, s.collector ≠ .unblockRun u todo) : Inv cfg s' := by
  obtain ⟨c, hc, rfl⟩ := Option.map_eq_some_iff.mp hs
  have hp := hl t List.mem_cons_self
  obtain ⟨ht, -, hr⟩ := Blocking.request_result hc
  refine h.onThread hp ((h.threads t (Phase.started_of_isRegistered hp)).request hc) ?_ hl
    (fun u _ => hcur u) fun _ => ⟨todo, rfl⟩
  rw [ht, hr]
  exact h.result t

theorem collectorStep (h : Inv cfg s) (hs : ThreadManager.collectorStep cfg s = some s') :
    Inv cfg s' := by
  have hl := h.listed
  have htable : ∀ u ∈ s.inner.threads.filterMap id, (s.phase u).isRegistered = true := by
    intro u hu
    obtain ⟨x, hx, rfl⟩ := List.mem_filterMap.mp hu
    exact h.members u hx
  -- the collector goes on, and is not in the middle of `unblock`
  have hgo : ∀ {pc : CollectorPc τ} {b : Bool}, (∀ u todo, s.collector ≠ .unblockRun u todo) →
      (∀ u ∈ pc.listed, (s.phase u).isRegistered = true) →
      Inv cfg { s with innerLocked := b, collector := pc } :=
    fun hcur hl => h.setCollector hl fun u => h.not_unblock (hcur u)
  unfold ThreadManager.collectorStep at hs
  cases hpc : s.collector
  all_goals
    simp only [hpc, CollectorPc.listed, List.mem_cons, List.mem_append] at hs hl
  case idle => cases hs; exact hgo (by simp [hpc]) nofun
  case scan =>
    split at hs <;> cases hs
    refine hgo (by simp [hpc]) fun u hu => htable u ?_
    exact (List.mem_filter.mp (by simpa [CollectorPc.listed] using hu)).1
  case retain todo kept =>
    cases todo with
    | nil =>
      cases kept <;> cases hs
      · exact hgo (by simp [hpc]) nofun
      · exact hgo (by simp [hpc]) fun u hu => hl u (.inr hu)
    | cons t todo =>
      exact h.request hs (hl t (.inl List.mem_cons_self)) nofun (fun u hu => hl u (by
        simpa [CollectorPc.listed, or_assoc] using hu)) (by simp [hpc])
  case retainLock t todo kept =>
    exact h.requesterStep hs (hl t (.inl rfl)) (by simpa [CollectorPc.listed] using hl)
      (by simp [hpc])
  case retainTest t todo kept =>
    split at hs
    · cases hs
      exact hgo (by simp [hpc]) (by simpa [CollectorPc.listed] using hl)
    · exact h.request hs (hl t (.inl rfl)) nofun (by simpa [CollectorPc.listed] using hl)
        (by simp [hpc])
  case retainBlock t todo kept =>
    refine h.runMethod hs (hl t (.inl rfl)) (fun u hu => hl u ?_) (by simp [hpc])
    simp only [CollectorPc.listed, List.mem_cons, List.mem_append] at hu
    split at hu
    · exact hu
    · rcases hu with hu | hu | hu
      · exact .inl hu
      · exact .inr (.inl hu)
      · exact (List.mem_cons.mp hu).imp_right .inr
  case retainUnlock t todo kept =>
    exact h.request hs (hl t (.inl rfl)) nofun (fun u hu => hl u (.inr (by
      simpa [CollectorPc.listed] using hu))) (by simp [hpc])
  case sync todo =>
    cases todo with
    | nil => cases hs; exact hgo (by simp [hpc]) nofun
    | cons t todo => exact h.request hs (hl t List.mem_cons_self) nofun hl (by simp [hpc])
  case syncLock t todo | unblockLock t todo =>
    exact h.requesterStep hs (hl t (.inl rfl)) (by simpa [CollectorPc.listed] using hl)
      (by simp [hpc])
  case syncCall t todo =>
    exact h.request hs (hl t (.inl rfl)) nofun (by simpa [CollectorPc.listed] using hl)
      (by simp [hpc])
  case syncBlock t todo =>
    exact h.runMethod hs (hl t (.inl rfl)) (by simpa [CollectorPc.listed] using hl) (by simp [hpc])
  case syncUnlock t todo | unblockUnlock t todo =>
    exact h.request hs (hl t (.inl rfl)) nofun (fun u hu => hl u (.inr hu)) (by simp [hpc])
  case process =>
    split at hs
    · cases hs
    obtain ⟨⟨m, again⟩, hm, rfl⟩ := Option.map_eq_some_iff.mp hs
    have hi := h.setInner s.indexInManager fun u hu => h.members u (Inner.mem_of_process hm hu)
    refine hi.setCollector (fun u hu => ?_) fun u => hi.not_unblock (by simp [hpc])
    cases again <;> cases hu
  case collectLock =>
    split at hs <;> cases hs
    exact hgo (by simp [hpc]) nofun
  case collect rest acc =>
    rcases rest with _ | ⟨_ | t, rest⟩ <;> cases hs <;> exact hgo (by simp [hpc]) nofun
  case returned acc => cases hs; exact hgo (by simp [hpc]) nofun
  case unblockScan =>
    split at hs <;> cases hs
    refine hgo (by simp [hpc]) fun u hu => htable u ?_
    exact (List.mem_filter.mp (List.mem_reverse.mp hu)).1
  case unblock todo =>
    cases todo with
    | nil => cases hs; exact hgo (by simp [hpc]) nofun
    | cons t todo => exact h.request hs (hl t List.mem_cons_self) nofun hl (by simp [hpc])
  case unblockCall t todo =>
    exact h.unblockCall hs (by simpa using hl) (by simp [hpc])
  case unblockRun t todo =>
    exact h.runMethod hs (hl t (.inl rfl)) (by simpa [CollectorPc.listed] using hl)
      (by simp [hpc, eq_comm])

theorem step (h : Inv cfg s) {l : Label τ ι} (hs : ThreadManager.step cfg s l = some s') :
    Inv cfg s' := by
  cases l with
  | startup t => exact h.startup hs
  | call t op => exact h.call hs
  | step t => exact h.threadStep hs
  | collector => exact h.collectorStep hs

end Inv

theorem Inv.new (cfg : Config τ ι) : Inv cfg (State.new : State τ ι) where
  fresh _ _ := rfl
  threads _ h := absurd rfl h
  result _ := nofun
  members _ := nofun
  listed _ := nofun
  unblocks _ := nofun

theorem inv_of_reachable [DecidableEq τ] {cfg : Config τ ι}
    {C : State τ ι → Label τ ι → Prop} {s : State τ ι}
    (h : (machine cfg).ReachableUnder C s) : Inv cfg s :=
  h.invariant (fun _ hs => by rw [show _ = State.new from hs]; exact Inv.new cfg)
    fun _ _ _ hi _ hs => hi.step hs

end VmkitCore.ThreadManager
