import VmkitCore.Threading.SoftHandshake

/-! # Whose threads a call drains

A call drains as many threads from the front of the vector as it has pushed to its
back. It signals all of its own ones exactly when calls drain in the order of their
snapshots, no thread ends before, and no call waits while there are threads left.
-/

namespace VmkitCore.SoftHandshake

variable {ι τ ρ : Type*}

/-- The entries that a call pushes. -/
def Call.entries (c : Call τ ρ) (r : ρ) : List (ρ × τ) := c.snapshot.map (r, ·)

/-- The call is at a thread, and has yet to ask its visitor about it. -/
def Pc.visiting : Pc τ → Option τ
  | .threadLock t | .threadTest t | .checkAndSignal t => some t
  | _ => none

/-- The visitor was interested in the thread, and may be told that it is stuck. -/
def Pc.signalled : Pc τ → Option τ
  | .blockedStatus t | .isInManaged t | .notifyStuck t => some t
  | _ => none

/-- What a call has signalled and has still to signal is what its visitor accepted. -/
structure Call.Exact (c : Call τ ρ) (r : ρ) : Prop where
  loop : c.pc.inLoop = true → c.processed ++ c.current.toList ++ c.slice = c.entries r
  returned : c.pc = .idle → c.processed = c.entries r
  stuck : ∀ t, c.pc = .notifyStuck t → c.processed.getLast? = some (r, t)

/-- Every call gets its own threads, and none is left over when a call sleeps for good. -/
structure Exact (s : State ι τ ρ) : Prop where
  calls : ∀ r, (s.calls r).Exact r
  asleep : ∀ r g, (s.calls r).pc = .asleep g →
    (s.calls r).slice = [] ∧ ∀ q n, (s.calls q).pc = .drainLock n → n = 0

/--
A call with threads to drain begins only when no earlier one still has to, finds no thread about to
terminate, and does not wait while it, or a call that has yet to drain, has threads left.
-/
structure InTurn.Step (s : State ι τ ρ) (r : ρ) : Prop where
  drain : ∀ n, (s.calls r).pc = .drainLock n → 0 < n → s.undrained.head? = some r
  alive : ∀ t, (s.calls r).pc = .threadTest t → (s.threads t).thread.isAboutToTerminate = false
  wait : ∀ g, (s.calls r).pc = .waitTest g → 0 < s.softHandshakeLeft →
    (s.calls r).slice = [] ∧ s.undrained = []

def InTurn (s : State ι τ ρ) : Label ι τ ρ → Prop
  | .step r => InTurn.Step s r
  | _ => True

/-- One call is waiting to drain what it has pushed, or has taken its own entries. -/
structure Call.Ok (c : Call τ ρ) (r : ρ) : Prop extends c.Exact r where
  waiting : ∀ n, c.pc = .drainLock n → n = c.snapshot.length ∧ c.processed = [] ∧ c.current = none
  visiting : c.pc.inLoop = true → c.current.map Prod.snd = c.pc.visiting
  signalled : ∀ t, c.pc.signalled = some t → c.processed.getLast? = some (r, t)

/-- The vector is what the calls have pushed that have not begun to drain, in their order. -/
structure Queued (s : State ι τ ρ) : Prop where
  vector : s.handshakeThreads = s.undrained.flatMap fun r => (s.calls r).entries r
  nodup : s.undrained.Nodup
  mem : ∀ r, r ∈ s.undrained ↔ (∃ n, (s.calls r).pc = .drainLock n) ∧ (s.calls r).snapshot ≠ []
  ok : ∀ r, (s.calls r).Ok r
  lock : ∀ r, (s.calls r).pc.inLoop = true → s.handshakeLock = some r
  asleep : ∀ r g, (s.calls r).pc = .asleep g → (s.calls r).slice = [] ∧ s.undrained = []

variable [DecidableEq ι] [DecidableEq τ] [DecidableEq ρ] {s s' : State ι τ ρ} {r : ρ}
  {as : List (BlockAdapter ι)} {a : Label ι τ ρ}

/-- The lists of a state, with the calls that they belong to. -/
structure SameLists (s s' : State ι τ ρ) : Prop where
  vector : s'.handshakeThreads = s.handshakeThreads
  lock : s'.handshakeLock = s.handshakeLock
  undrained : s'.undrained = s.undrained
  calls : s'.calls = s.calls

omit [DecidableEq ι] [DecidableEq τ] in
theorem SameLists.goto (h : SameLists s s') (pc : Pc τ) :
    SameLists (s.goto r pc) (s'.goto r pc) :=
  ⟨h.vector, h.lock, h.undrained, by simp only [State.goto, State.setCall, h.calls]⟩

omit [DecidableEq ι] [DecidableEq τ] [DecidableEq ρ] in
theorem lockData_lists (hs : s.lockData r = some s') : SameLists s s' := by
  rw [State.lockData, Option.ite_none_right_eq_some] at hs
  cases hs.2
  exact ⟨rfl, rfl, rfl, rfl⟩

omit [DecidableEq ι] in
theorem lockThread_lists {t : τ} (hs : s.lockThread r t = some s') : SameLists s s' := by
  rw [State.lockThread] at hs
  split at hs
  · cases hs
    exact ⟨rfl, rfl, rfl, rfl⟩
  · obtain ⟨c, -, rfl⟩ := Option.map_eq_some_iff.mp hs
    exact ⟨rfl, rfl, rfl, rfl⟩

/-- A call in its loop goes on with the same thread, and sleeps only if it has to. -/
structure Pc.Follows (s : State ι τ ρ) (r : ρ) (pc : Pc τ) : Prop where
  inLoop : (s.calls r).pc.inLoop = true
  inLoop' : pc.inLoop = true
  visiting : pc.visiting = (s.calls r).pc.visiting
  signalled : ∀ t, pc.signalled = some t → (s.calls r).pc.signalled = some t
  asleep : ∀ g, pc = .asleep g → (s.calls r).pc = .waitTest g ∧ 0 < s.softHandshakeLeft

/-- What a step of a call does to the lists. -/
inductive Moves (s : State ι τ ρ) (r : ρ) (s' : State ι τ ρ) : Prop
  | goto (pc : Pc τ) (hpc : pc.Follows s r) (hs : SameLists (s.goto r pc) s')
  | visit (e : ρ × τ) (slice : List (ρ × τ)) (hpc : (s.calls r).pc = .loop)
    (hslice : (s.calls r).slice = e :: slice)
    (hs : SameLists (s.setCall r { s.calls r with
      pc := .threadLock e.2, slice, current := some e }) s')
  | skip (t : τ) (hpc : (s.calls r).pc = .threadTest t)
    (hdying : (s.threads t).thread.isAboutToTerminate = true)
    (hs : SameLists (s.setCall r { s.calls r with
      pc := .waitLock (some t), current := none }) s')
  | finish (hpc : (s.calls r).pc = .loop) (hslice : (s.calls r).slice = [])
    (hs : SameLists ({ s with handshakeLock := none }.goto r .idle) s')
  | drain (n : ℕ) (hpc : (s.calls r).pc = .drainLock n) (hfree : s.handshakeLock = none)
    (hs : SameLists ({ s with
      handshakeLock := some r
      handshakeThreads := s.handshakeThreads.drop n
      undrained := s.undrained.erase r }.setCall r
        { s.calls r with pc := .loop, slice := s.handshakeThreads.take n }) s')

omit [DecidableEq ι] in
theorem callStep_moves (hs : callStep s r = some s') : Moves s r s' := by
  unfold callStep at hs
  cases hpc : (s.calls r).pc
  all_goals simp only [hpc, reduceCtorEq] at hs
  case drainLock n =>
    rw [Option.ite_none_right_eq_some] at hs
    cases hs.2
    exact .drain n hpc hs.1.1 ⟨rfl, rfl, rfl, rfl⟩
  case loop =>
    split at hs <;> cases hs
    · next h => exact .finish hpc h ⟨rfl, rfl, rfl, rfl⟩
    · next e slice h => exact .visit e slice hpc h ⟨rfl, rfl, rfl, rfl⟩
  case threadLock t =>
    obtain ⟨s₁, h, rfl⟩ := Option.map_eq_some_iff.mp hs
    exact .goto _ (by constructor <;> simp [hpc, Pc.inLoop, Pc.visiting, Pc.signalled])
      ((lockThread_lists h).goto (.threadTest t))
  case threadTest t =>
    cases hs
    split
    · next h => exact .skip t hpc h ⟨rfl, rfl, rfl, rfl⟩
    · exact .goto (.checkAndSignal t)
        (by constructor <;> simp [hpc, Pc.inLoop, Pc.visiting, Pc.signalled]) ⟨rfl, rfl, rfl, rfl⟩
  case countLock =>
    obtain ⟨s₁, h, rfl⟩ := Option.map_eq_some_iff.mp hs
    exact .goto _ (by constructor <;> simp [hpc, Pc.inLoop, Pc.visiting, Pc.signalled])
      ((lockData_lists h).goto .count)
  case waitLock g =>
    obtain ⟨s₁, h, rfl⟩ := Option.map_eq_some_iff.mp hs
    exact .goto _ (by constructor <;> simp [hpc, Pc.inLoop, Pc.visiting, Pc.signalled])
      ((lockData_lists h).goto (.waitTest g))
  case isInManaged =>
    cases hs
    refine .goto _ ?_ ⟨rfl, rfl, rfl, rfl⟩
    split <;> constructor <;> simp [hpc, Pc.inLoop, Pc.visiting, Pc.signalled]
  case threadUnlock t wait =>
    cases hs
    refine .goto _ ?_ ⟨rfl, rfl, rfl, rfl⟩
    cases wait <;> constructor <;> simp [hpc, Pc.inLoop, Pc.visiting, Pc.signalled]
  case waitTest g =>
    cases hs
    split
    · next hpos =>
      refine .goto (.asleep g) ?_ ⟨rfl, rfl, rfl, rfl⟩
      constructor <;> simp [hpc, hpos, Pc.inLoop, Pc.visiting, Pc.signalled]
    · exact .goto (.waitUnlock g)
        (by constructor <;> simp [hpc, Pc.inLoop, Pc.visiting, Pc.signalled]) ⟨rfl, rfl, rfl, rfl⟩
  case waitUnlock g =>
    cases hs
    refine .goto _ ?_ ⟨rfl, rfl, rfl, rfl⟩
    cases g <;> constructor <;> simp [hpc, Pc.inLoop, Pc.visiting, Pc.signalled]
  all_goals
    cases hs
    refine .goto _ ?_ ⟨rfl, rfl, rfl, rfl⟩
    constructor <;> simp [hpc, Pc.inLoop, Pc.visiting, Pc.signalled]

namespace Queued

omit [DecidableEq ι] [DecidableEq τ] [DecidableEq ρ] in
theorem of_same (h : Queued s) (hs : SameLists s s') : Queued s' := by
  obtain ⟨hv, hl, hu, hc⟩ := hs
  exact ⟨by rw [hv, hu, hc]; exact h.vector, hu ▸ h.nodup, by rw [hu, hc]; exact h.mem,
    by rw [hc]; exact h.ok, by rw [hc, hl]; exact h.lock, by rw [hc, hu]; exact h.asleep⟩

omit [DecidableEq ι] [DecidableEq τ] in
theorem ok_update (h : Queued s) {c : Call τ ρ} (hc : c.Ok r) (q : ρ) :
    (Function.update s.calls r c q).Ok q := by
  rcases eq_or_ne q r with rfl | hq
  · rwa [Function.update_self]
  · rw [Function.update_of_ne hq]
    exact h.ok q

omit [DecidableEq ι] [DecidableEq τ] in
/-- The entries of the other calls stay when a call changes. -/
theorem flatMap_update {l : List ρ} (hr : r ∉ l) (c : Call τ ρ) :
    (l.flatMap fun q => (Function.update s.calls r c q).entries q) =
      l.flatMap fun q => (s.calls q).entries q := by
  apply List.flatMap_congr
  intro q hq
  rw [Function.update_of_ne (ne_of_mem_of_not_mem hq hr)]

omit [DecidableEq ι] [DecidableEq τ] in
/-- A call in its loop goes on, or returns and unlocks. -/
theorem setCall (h : Queued s) {c : Call τ ρ} {lock : Option ρ}
    (hpc : (s.calls r).pc.inLoop = true) (hc : c.Ok r)
    (hlock : c.pc.inLoop = true ∧ lock = s.handshakeLock ∨ c.pc = .idle)
    (hsleep : ∀ g, c.pc = .asleep g → c.slice = [] ∧ s.undrained = []) :
    Queued ({ s with handshakeLock := lock }.setCall r c) := by
  have hdrain : ∀ n, (s.calls r).pc ≠ .drainLock n := by
    intro n he
    rw [he] at hpc
    cases hpc
  have hdrain' : ∀ n, c.pc ≠ .drainLock n := by
    intro n he
    rcases hlock with ⟨hin, -⟩ | hidle
    · rw [he] at hin
      cases hin
    · cases he.symm.trans hidle
  have hr : r ∉ s.undrained := fun hm =>
    have ⟨⟨n, hn⟩, _⟩ := (h.mem r).mp hm
    hdrain n hn
  have hown := h.lock r hpc
  refine ⟨h.vector.trans (flatMap_update hr c).symm, h.nodup, fun q => ?_, h.ok_update hc,
    fun q hq => ?_, fun q g hq => ?_⟩
  · rcases eq_or_ne q r with rfl | hne
    · simp [State.setCall, hr, hdrain']
    · simpa [State.setCall, hne] using h.mem q
  · simp only [State.setCall] at hq ⊢
    rcases eq_or_ne q r with rfl | hne
    · rw [Function.update_self] at hq
      rcases hlock with ⟨-, rfl⟩ | hidle
      · exact hown
      · rw [hidle] at hq
        cases hq
    · rw [Function.update_of_ne hne] at hq
      exact absurd (Option.some.inj ((h.lock q hq).symm.trans hown)) hne
  · simp only [State.setCall] at hq ⊢
    rcases eq_or_ne q r with rfl | hne
    · rw [Function.update_self] at hq ⊢
      exact hsleep g hq
    · rw [Function.update_of_ne hne] at hq ⊢
      exact h.asleep q g hq

omit [DecidableEq ι] [DecidableEq τ] [DecidableEq ρ] in
/-- While the vector is not locked, no call is in its loop. -/
theorem not_inLoop (h : Queued s) (hfree : s.handshakeLock = none) (q : ρ) :
    (s.calls q).pc.inLoop = false := by
  by_contra hq
  cases hfree.symm.trans (h.lock q (by simpa using hq))

omit [DecidableEq ι] in
theorem snapshot (h : Queued s) {accepted : List τ}
    (hs : SoftHandshake.snapshot s r accepted = some s') : Queued s' := by
  rw [SoftHandshake.snapshot, Option.ite_none_right_eq_some] at hs
  obtain ⟨⟨hidle, hfree⟩, hs⟩ := hs
  cases hs
  have hout := h.not_inLoop hfree
  have hr : r ∉ s.undrained := fun hm =>
    have ⟨⟨n, hn⟩, _⟩ := (h.mem r).mp hm
    by cases hidle.symm.trans hn
  have hnew : ∀ q, (Function.update s.calls r
      ⟨.drainLock accepted.length, accepted, [], none, []⟩ q).pc.inLoop = false := by
    intro q
    rcases eq_or_ne q r with rfl | hne
    · rw [Function.update_self]
      rfl
    · rw [Function.update_of_ne hne]
      exact hout q
  refine ⟨?_, ?_, fun q => ?_, h.ok_update ⟨⟨nofun, nofun, nofun⟩, fun n hn => ?_, nofun, nofun⟩,
    fun q hq => ?_, fun q g hq => ?_⟩
  · simp only [State.setCall]
    split
    · next hnil => rw [flatMap_update hr, hnil, List.map_nil, List.append_nil, h.vector]
    · rw [List.flatMap_append, flatMap_update hr, List.flatMap_singleton, Function.update_self,
        h.vector]
      rfl
  · simp only [State.setCall]
    split
    · exact h.nodup
    · exact List.nodup_append.mpr ⟨h.nodup, List.nodup_singleton r, fun a ha b hb =>
        List.mem_singleton.mp hb ▸ ne_of_mem_of_not_mem ha hr⟩
  · have hq := h.mem q
    simp only [State.setCall]
    rcases eq_or_ne q r with rfl | hne
    · rw [Function.update_self]
      split <;> simp_all
    · rw [Function.update_of_ne hne, ← hq]
      split <;> simp [hne]
  · cases hn
    exact ⟨rfl, rfl, rfl⟩
  · exact absurd (hnew q).symm (by simpa [State.setCall] using hq.symm)
  · have hq' := hnew q
    rw [show (Function.update s.calls r _ q).pc = _ from hq] at hq'
    cases hq'

omit [DecidableEq ι] [DecidableEq τ] in
/-- In its turn, a call finds its own entries at the front of the vector. -/
theorem front (h : Queued s) {n : ℕ} (hpc : (s.calls r).pc = .drainLock n)
    (hturn : 0 < n → s.undrained.head? = some r) :
    s.handshakeThreads = (s.calls r).entries r ++
      (s.undrained.erase r).flatMap fun q => (s.calls q).entries q := by
  obtain ⟨hn, -, -⟩ := (h.ok r).waiting n hpc
  rcases Nat.eq_zero_or_pos n with h0 | hpos
  · have hnil : (s.calls r).snapshot = [] := List.length_eq_zero_iff.mp (hn ▸ h0)
    have hr : r ∉ s.undrained := fun hm => ((h.mem r).mp hm).2 hnil
    rw [List.erase_of_not_mem hr, Call.entries, hnil]
    exact h.vector
  · obtain ⟨tail, htail⟩ := List.head?_eq_some_iff.mp (hturn hpos)
    rw [htail, List.erase_cons_head, h.vector, htail, List.flatMap_cons]

omit [DecidableEq ι] [DecidableEq τ] in
theorem drain (h : Queued s) {n : ℕ} (hpc : (s.calls r).pc = .drainLock n)
    (hfree : s.handshakeLock = none) (hturn : 0 < n → s.undrained.head? = some r) :
    Queued ({ s with
      handshakeLock := some r
      handshakeThreads := s.handshakeThreads.drop n
      undrained := s.undrained.erase r }.setCall r
        { s.calls r with pc := .loop, slice := s.handshakeThreads.take n }) := by
  obtain ⟨hn, hproc, hcurrent⟩ := (h.ok r).waiting n hpc
  have hfront := h.front hpc hturn
  have hlen : n = ((s.calls r).entries r).length := by rw [hn, Call.entries, List.length_map]
  have hr : r ∉ s.undrained.erase r := h.nodup.not_mem_erase
  have hout := h.not_inLoop hfree
  refine ⟨?_, h.nodup.erase r, fun q => ?_, h.ok_update
    ⟨⟨fun _ => ?_, nofun, nofun⟩, nofun, fun _ => by rw [hcurrent]; rfl, nofun⟩,
    fun q hq => ?_, fun q g hq => ?_⟩
  · simp only [State.setCall]
    rw [flatMap_update hr, hfront, List.drop_left' hlen.symm]
  · simp only [State.setCall]
    rcases eq_or_ne q r with rfl | hne
    · simp [hr]
    · rw [Function.update_of_ne hne, List.mem_erase_of_ne hne]
      exact h.mem q
  · simp only [hproc, hcurrent, Option.toList_none, List.nil_append]
    rw [hfront, List.take_left' hlen.symm]
    rfl
  · simp only [State.setCall] at hq ⊢
    rcases eq_or_ne q r with rfl | hne
    · rfl
    · rw [Function.update_of_ne hne, hout q] at hq
      cases hq
  · simp only [State.setCall] at hq
    rcases eq_or_ne q r with rfl | hne
    · rw [Function.update_self] at hq
      cases hq
    · rw [Function.update_of_ne hne] at hq
      have hin := hout q
      rw [hq] at hin
      cases hin

omit [DecidableEq ι] in
theorem callStep (h : Queued s) (hturn : InTurn.Step s r)
    (hs : SoftHandshake.callStep s r = some s') : Queued s' := by
  have hok := h.ok r
  cases callStep_moves hs with
  | goto pc hpc hs =>
    have hok' : Call.Ok { s.calls r with pc } r := by
      refine ⟨⟨fun _ => hok.loop hpc.inLoop, ?_, ?_⟩, ?_, fun _ => ?_, fun t ht => ?_⟩
      · rintro rfl
        cases hpc.inLoop'
      · rintro t rfl
        exact hok.signalled t (hpc.signalled t rfl)
      · rintro n rfl
        cases hpc.inLoop'
      · exact (hok.visiting hpc.inLoop).trans hpc.visiting.symm
      · exact hok.signalled t (hpc.signalled t ht)
    refine (h.setCall hpc.inLoop hok' (.inl ⟨hpc.inLoop', rfl⟩) fun g hg => ?_).of_same hs
    obtain ⟨hw, hpos⟩ := hpc.asleep g hg
    exact hturn.wait g hw hpos
  | visit e slice hpc hslice hs =>
    have hin : (s.calls r).pc.inLoop = true := by rw [hpc]; rfl
    have hloop := hok.loop hin
    have hcurrent : (s.calls r).current = none := by
      have hv := hok.visiting hin
      rw [hpc] at hv
      exact Option.map_eq_none_iff.mp hv
    rw [hslice, hcurrent] at hloop
    have hok' : Call.Ok { s.calls r with pc := .threadLock e.2, slice, current := some e } r :=
      ⟨⟨fun _ => by simpa [Call.entries] using hloop, nofun, nofun⟩, nofun, fun _ => rfl, nofun⟩
    exact (h.setCall hin hok' (.inl ⟨rfl, rfl⟩) nofun).of_same hs
  | skip t hpc hdying => cases (hturn.alive t hpc).symm.trans hdying
  | finish hpc hslice hs =>
    have hin : (s.calls r).pc.inLoop = true := by rw [hpc]; rfl
    have hloop := hok.loop hin
    have hcurrent : (s.calls r).current = none := by
      have hv := hok.visiting hin
      rw [hpc] at hv
      exact Option.map_eq_none_iff.mp hv
    rw [hslice, hcurrent, Option.toList_none, List.append_nil, List.append_nil] at hloop
    have hok' : Call.Ok { s.calls r with pc := .idle } r :=
      ⟨⟨nofun, fun _ => hloop, nofun⟩, nofun, nofun, nofun⟩
    exact (h.setCall hin hok' (.inr rfl) nofun).of_same hs
  | drain n hpc hfree hs => exact (h.drain hpc hfree (hturn.drain n hpc)).of_same hs

omit [DecidableEq ι] [DecidableEq τ] in
/-- The visitor answers, and the thread counts as processed. -/
theorem checkAndSignal (h : Queued s) {t : τ} (hpc : (s.calls r).pc = .checkAndSignal t)
    (signalled : Bool) :
    Queued (s.setCall r { s.calls r with
      pc := if signalled then .blockedStatus t else .waitLock (some t)
      current := none
      processed := (s.calls r).processed ++ (s.calls r).current.toList }) := by
  have hok := h.ok r
  have hin : (s.calls r).pc.inLoop = true := by rw [hpc]; rfl
  have hloop := hok.loop hin
  have hvisiting := hok.visiting hin
  rw [hpc] at hvisiting
  obtain ⟨e, he, het⟩ := Option.map_eq_some_iff.mp hvisiting
  have howner : e = (r, t) := by
    have hmem : e ∈ (s.calls r).entries r := by
      rw [← hloop, he]
      simp
    obtain ⟨x, -, rfl⟩ := List.mem_map.mp hmem
    exact congrArg (r, ·) het
  have hlast : ((s.calls r).processed ++ (s.calls r).current.toList).getLast? = some (r, t) := by
    simp [he, howner]
  have hloop' : (s.calls r).processed ++ (s.calls r).current.toList ++ (none : Option _).toList ++
      (s.calls r).slice = (s.calls r).entries r := by
    rw [Option.toList_none, List.append_nil]
    exact hloop
  cases signalled with
  | true =>
    have hok' : Call.Ok { s.calls r with
        pc := .blockedStatus t
        current := none
        processed := (s.calls r).processed ++ (s.calls r).current.toList } r := by
      refine ⟨⟨fun _ => hloop', nofun, nofun⟩, nofun, fun _ => rfl, fun u hu => ?_⟩
      cases hu
      exact hlast
    exact h.setCall hin hok' (.inl ⟨rfl, rfl⟩) nofun
  | false =>
    have hok' : Call.Ok { s.calls r with
        pc := .waitLock (some t)
        current := none
        processed := (s.calls r).processed ++ (s.calls r).current.toList } r :=
      ⟨⟨fun _ => hloop', nofun, nofun⟩, nofun, fun _ => rfl, nofun⟩
    exact h.setCall hin hok' (.inl ⟨rfl, rfl⟩) nofun

theorem step (h : Queued s) (ha : InTurn s a) (hs : SoftHandshake.step as s a = some s') :
    Queued s' := by
  cases a with
  | thread t l =>
    rw [SoftHandshake.step, threadStep, Option.ite_none_right_eq_some] at hs
    obtain ⟨-, hs⟩ := hs
    obtain ⟨c, -, rfl⟩ := Option.map_eq_some_iff.mp hs
    exact h.of_same ⟨rfl, rfl, rfl, rfl⟩
  | snapshot r threads isCollectorThread includeThread => exact h.snapshot hs
  | checkAndSignal r signalled =>
    rw [SoftHandshake.step] at hs
    split at hs
    · next t hpc =>
      cases hs
      exact h.checkAndSignal hpc signalled
    · cases hs
  | step r => exact h.callStep ha hs

omit [DecidableEq ι] [DecidableEq τ] [DecidableEq ρ] in
/-- The calls that wait to drain nothing are not among those with threads to drain. -/
theorem undrained_eq_nil (h : Queued s) :
    s.undrained = [] ↔ ∀ q n, (s.calls q).pc = .drainLock n → n = 0 := by
  rw [List.eq_nil_iff_forall_not_mem]
  constructor
  · intro hnil q n hq
    obtain ⟨rfl, -⟩ := (h.ok q).waiting n hq
    by_contra hne
    exact hnil q ((h.mem q).mpr ⟨⟨_, hq⟩, fun he => hne (by rw [he]; rfl)⟩)
  · intro hzero q hm
    obtain ⟨⟨n, hn⟩, hne⟩ := (h.mem q).mp hm
    obtain ⟨hlen, -⟩ := (h.ok q).waiting n hn
    exact hne (List.length_eq_zero_iff.mp (hlen.symm.trans (hzero q n hn)))

omit [DecidableEq ι] [DecidableEq τ] [DecidableEq ρ] in
theorem exact (h : Queued s) : Exact s where
  calls r := (h.ok r).toExact
  asleep r g hg := (h.asleep r g hg).imp_right h.undrained_eq_nil.mp

omit [DecidableEq ι] in
/-- Passing over a thread that is about to terminate leaves an entry out. -/
theorem alive (h : Queued s) {t : τ} (hpc : (s.calls r).pc = .threadTest t)
    (hs : SoftHandshake.callStep s r = some s') (he : Exact s') :
    (s.threads t).thread.isAboutToTerminate = false := by
  by_contra hdying
  rw [Bool.not_eq_false] at hdying
  have hin : (s.calls r).pc.inLoop = true := by rw [hpc]; rfl
  have hloop := (h.ok r).loop hin
  have hvisiting := (h.ok r).visiting hin
  rw [hpc] at hvisiting
  obtain ⟨e, hcurrent, -⟩ := Option.map_eq_some_iff.mp hvisiting
  simp only [SoftHandshake.callStep, hpc, hdying, if_true] at hs
  cases hs
  have hloop' := (he.calls r).loop (by simp [State.setCall, Pc.inLoop])
  simp only [State.setCall, Function.update_self] at hloop'
  rw [Call.entries, show (s.calls r).snapshot.map (r, ·) = (s.calls r).entries r from rfl,
    ← hloop, hcurrent] at hloop'
  have hlen := congrArg List.length hloop'
  simp only [Option.toList_none, Option.toList_some, List.length_append, List.length_nil,
    List.length_singleton] at hlen
  omega

end Queued

end VmkitCore.SoftHandshake
