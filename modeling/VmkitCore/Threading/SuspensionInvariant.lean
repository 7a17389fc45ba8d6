import VmkitCore.Threading.Suspension

/-! # The suspension invariant

As long as no registration and no ending thread comes in between, the next step of
the collector says of every thread whether it is stopped, and how far its signal
handler is.
-/

namespace VmkitCore.Suspension

variable {τ : Type*}

/-- Between the two looks at the thread table. -/
def CollectorPc.inCollection : CollectorPc τ → Bool
  | .block .. | .suspending .. | .returned _ => true
  | _ => false

/-- The threads of the last look at the table that are not done. -/
def CollectorPc.queue : CollectorPc τ → List τ
  | .block todo _ | .unblock todo => todo
  | .suspending _ t todo _ | .resuming _ t todo => t :: todo
  | _ => []

def CollectorPc.handshakeThreads : CollectorPc τ → List τ
  | .block _ hs | .suspending _ _ _ hs | .returned hs => hs
  | _ => []

/-- The thread the collector is to suspend is not about to terminate, and gets its signal. -/
def CollectorPc.Reaches (cfg : Config τ) (threads : τ → Thread τ) : CollectorPc τ → Prop
  | .block (t :: _) _ => cfg.isMutator t = true → (threads t).isAboutToTerminate = false
  | .suspending .kill t _ _ => (threads t).exited = false
  | _ => True

/-- No mutator registers between the two looks at the table, and the collector reaches all. -/
def Undisturbed (cfg : Config τ) (s : State τ) : Label τ → Prop
  | .register t => cfg.isMutator t = true → s.collector.inCollection = false
  | .collector => s.collector.Reaches cfg s.threads
  | _ => True

instance (cfg : Config τ) (threads : τ → Thread τ) :
    ∀ pc : CollectorPc τ, Decidable (pc.Reaches cfg threads)
  | .block (_ :: _) _ => inferInstanceAs (Decidable (_ → _))
  | .suspending .kill _ _ _ => inferInstanceAs (Decidable (_ = _))
  | .suspending .load .. | .suspending .handle .. | .suspending .target .. | .suspending .wait ..
  | .suspending .test .. | .suspending .add .. | .block [] _ | .idle | .scan | .returned _
  | .unblock _ | .resuming .. => inferInstanceAs (Decidable True)

instance (cfg : Config τ) (s : State τ) : ∀ l, Decidable (Undisturbed cfg s l)
  | .register _ => inferInstanceAs (Decidable (_ → _))
  | .collector => inferInstanceAs (Decidable (s.collector.Reaches cfg s.threads))
  | .establish _ | .terminate _ | .exit _ | .deliver _ | .handler .. =>
    inferInstanceAs (Decidable True)

/-- Not suspended, and outside of the handler. -/
structure Thread.Free (c : Thread τ) : Prop where
  suspendCount : c.suspendCount = 0
  balance : c.suspends = c.resumes
  signal : c.signal = false
  handler : c.handler = .outside
  frames : c.frames = 0

/-- Stopped in the handler, and counted as suspended `n` times. -/
structure Thread.Stopped (n : ℕ) (c : Thread τ) : Prop where
  suspendCount : c.suspendCount = n
  balance : c.suspends = c.resumes + n
  signal : c.signal = false
  handler : c.handler = .parked
  frames : c.frames = 0

/-- While the collector waits for a thread to stop. -/
structure Thread.Stopping (t : τ) (semaphore : ℕ) (c : Thread τ) : Prop where
  suspendCount : c.suspendCount = 0
  balance : c.suspends = c.resumes
  frames : c.frames = 0
  handler : c.signal = true ∧ c.handler = .outside ∧ semaphore = 0 ∨ c.signal = false ∧
    ((c.handler = .entry ∨ c.handler = .save t) ∧ semaphore = 0 ∨
      (c.handler = .retry ∧ semaphore = 0 ∨ c.handler = .outside ∧ semaphore = 1) ∧
        c.stackPointer = 0 ∨
      (c.handler = .post ∧ semaphore = 0 ∨ c.handler = .parked ∧ semaphore = 1) ∧
        c.stackPointer ≠ 0)

/-- While the collector waits for a thread to go on. -/
structure Thread.Resuming (semaphore : ℕ) (c : Thread τ) : Prop where
  suspendCount : c.suspendCount = 1
  balance : c.suspends = c.resumes + 1
  handler : c.signal = true ∧ c.handler = .parked ∧ c.frames = 0 ∧ semaphore = 0 ∨
    c.signal = false ∧
      (c.handler = .entry ∧ c.frames = 1 ∧ semaphore = 0 ∨
        c.frames = 0 ∧ ((c.handler = .woken ∨ c.handler = .resumePost) ∧ semaphore = 0 ∨
          c.handler = .outside ∧ semaphore = 1))

/-- The thread that the collector suspends. -/
def SuspendPc.Ok (t : τ) (target : Option τ) (semaphore : ℕ) (c : Thread τ) : SuspendPc → Prop
  | .load | .handle | .target => c.Free ∧ semaphore = 0
  | .kill => c.Free ∧ semaphore = 0 ∧ target = some t
  | .wait => c.Stopping t semaphore ∧ target = some t
  | .test => semaphore = 0 ∧ target = some t ∧
    (c.Free ∧ c.stackPointer = 0 ∨ c.Stopped 0 ∧ c.stackPointer ≠ 0)
  | .add => c.Stopped 0 ∧ semaphore = 0

/-- The thread that the collector resumes. -/
def ResumePc.Ok (t : τ) (target : Option τ) (semaphore : ℕ) (c : Thread τ) : ResumePc → Prop
  | .load | .target => c.Stopped 1 ∧ semaphore = 0
  | .kill => c.Stopped 1 ∧ semaphore = 0 ∧ target = some t
  | .wait => c.Resuming semaphore ∧ target = some t
  | .sub => c.suspendCount = 1 ∧ c.suspends = c.resumes + 1 ∧ c.signal = false ∧
    c.handler = .outside ∧ c.frames = 0 ∧ semaphore = 0

/-- Suspended by `block_all_mutators_for_gc`, and not resumed yet. -/
def CollectorPc.Suspended (cfg : Config τ) (pc : CollectorPc τ) (t : τ) : Prop :=
  match pc with
  | .block _ hs | .suspending _ _ _ hs | .returned hs => t ∈ hs
  | .unblock todo | .resuming _ _ todo => cfg.isMutator t = true ∧ t ∈ todo
  | _ => False

/-- The thread that the collector suspends or resumes. -/
def CollectorPc.current : CollectorPc τ → Option τ
  | .suspending _ t _ _ | .resuming _ t _ => some t
  | _ => none

theorem CollectorPc.of_current {c : CollectorPc τ} {t : τ} (h : c.current = some t) :
    (∃ pc todo hs, c = .suspending pc t todo hs) ∨ ∃ pc todo, c = .resuming pc t todo := by
  cases c with
  | suspending pc u todo hs =>
    obtain rfl := Option.some.inj h
    exact .inl ⟨pc, todo, hs, rfl⟩
  | resuming pc u todo =>
    obtain rfl := Option.some.inj h
    exact .inr ⟨pc, todo, rfl⟩
  | _ => cases h

def CollectorPc.Ok (target : Option τ) (semaphore : ℕ) (threads : τ → Thread τ) :
    CollectorPc τ → Prop
  | .suspending pc t _ _ => pc.Ok t target semaphore (threads t)
  | .resuming pc t _ => pc.Ok t target semaphore (threads t)
  | _ => semaphore = 0

structure Inv (cfg : Config τ) (s : State τ) : Prop where
  table : s.table.Nodup
  queue : s.collector.queue.Nodup
  listed : ∀ t ∈ s.collector.queue, t ∈ s.table
  suspended : s.collector.inCollection = true → ∀ t, t ∈ s.collector.handshakeThreads ↔
    cfg.isMutator t = true ∧ t ∈ s.table ∧ t ∉ s.collector.queue
  mutator : ∀ t, s.collector.current = some t → cfg.isMutator t = true
  stopped : ∀ t, s.collector.current ≠ some t → s.collector.Suspended cfg t →
    (s.threads t).Stopped 1
  free : ∀ t, s.collector.current ≠ some t → ¬ s.collector.Suspended cfg t → (s.threads t).Free
  current : s.collector.Ok s.target s.semaphore s.threads
  exited : ∀ t, (s.threads t).exited = true →
    (s.threads t).handler = .outside ∧ (s.threads t).signal = false

/-- The same for the collector. -/
structure Thread.Same (c c' : Thread τ) : Prop where
  suspendCount : c'.suspendCount = c.suspendCount
  suspends : c'.suspends = c.suspends
  resumes : c'.resumes = c.resumes
  stackPointer : c'.stackPointer = c.stackPointer
  signal : c'.signal = c.signal
  handler : c'.handler = c.handler
  frames : c'.frames = c.frames

namespace Thread.Same

variable {c c' : Thread τ} {t : τ} {target : Option τ} {n : ℕ}

theorem free (h : c.Same c') (hc : c.Free) : c'.Free :=
  ⟨h.1.trans hc.1, by rw [h.2, h.3, hc.2], h.5.trans hc.3, h.6.trans hc.4, h.7.trans hc.5⟩

theorem stopped (h : c.Same c') (hc : c.Stopped n) : c'.Stopped n :=
  ⟨h.1.trans hc.1, by rw [h.2, h.3, hc.2], h.5.trans hc.3, h.6.trans hc.4, h.7.trans hc.5⟩

theorem stopping (h : c.Same c') (hc : c.Stopping t n) : c'.Stopping t n :=
  ⟨h.1.trans hc.1, by rw [h.2, h.3, hc.2], h.7.trans hc.3, by rw [h.4, h.5, h.6]; exact hc.4⟩

theorem resuming (h : c.Same c') (hc : c.Resuming n) : c'.Resuming n :=
  ⟨h.1.trans hc.1, by rw [h.2, h.3, hc.2], by rw [h.5, h.6, h.7]; exact hc.3⟩

theorem suspendPc (h : c.Same c') {pc : SuspendPc} (hc : pc.Ok t target n c) :
    pc.Ok t target n c' := by
  cases pc with
  | load | handle | target | kill => exact hc.imp_left h.free
  | wait => exact hc.imp_left h.stopping
  | test =>
    obtain ⟨hn, ht, hc⟩ := hc
    exact ⟨hn, ht, by rw [h.4]; exact hc.imp (.imp_left h.free) (.imp_left h.stopped)⟩
  | add => exact hc.imp_left h.stopped

theorem resumePc (h : c.Same c') {pc : ResumePc} (hc : pc.Ok t target n c) :
    pc.Ok t target n c' := by
  cases pc with
  | load | target | kill => exact hc.imp_left h.stopped
  | wait => exact hc.imp_left h.resuming
  | sub => simpa only [ResumePc.Ok, h.1, h.2, h.3, h.5, h.6, h.7] using hc

end Thread.Same

theorem CollectorPc.Ok.of_same {pc : CollectorPc τ} {target : Option τ} {n : ℕ}
    {threads threads' : τ → Thread τ} (h : pc.Ok target n threads)
    (hs : ∀ t, (threads t).Same (threads' t)) : pc.Ok target n threads' := by
  cases pc with
  | suspending pc t todo hs' => exact (hs t).suspendPc h
  | resuming pc t todo => exact (hs t).resumePc h
  | _ => exact h

variable [DecidableEq τ] {cfg : Config τ} {s s' : State τ} {t : τ} {c : Thread τ}

@[simp] theorem State.modify_self (f : Thread τ → Thread τ) :
    (s.modify t f).threads t = f (s.threads t) := Function.update_self ..

@[simp] theorem State.modify_of_ne {u : τ} (h : u ≠ t) (f : Thread τ → Thread τ) :
    (s.modify t f).threads u = s.threads u := Function.update_of_ne h ..

@[simp] theorem State.modify_semaphore (f : Thread τ → Thread τ) :
    (s.modify t f).semaphore = s.semaphore := rfl

omit [DecidableEq τ] in
@[simp] theorem State.post_threads : s.post.threads = s.threads := rfl

omit [DecidableEq τ] in
@[simp] theorem State.post_semaphore : s.post.semaphore = s.semaphore + 1 := rfl

omit [DecidableEq τ] in
theorem Thread.leaveHandler_outermost (h : c.frames = 0) :
    c.leaveHandler = { c with handler := .outside } := by
  rw [leaveHandler, h]

omit [DecidableEq τ] in
theorem Thread.leaveHandler_inner (h : c.frames = 1) :
    c.leaveHandler = { c with handler := .woken, frames := 0 } := by
  rw [leaveHandler, h]

namespace Inv

/-- A step of a thread that the collector does not see. -/
theorem modify_same (h : Inv cfg s) {f : Thread τ → Thread τ}
    (hf : (s.threads t).Same (f (s.threads t)))
    (he : (f (s.threads t)).exited = true → (f (s.threads t)).handler = .outside ∧
      (f (s.threads t)).signal = false) : Inv cfg (s.modify t f) := by
  have hsame : ∀ u, (s.threads u).Same ((s.modify t f).threads u) := by
    intro u
    by_cases hu : u = t
    · subst hu; simpa using hf
    · rw [State.modify_of_ne hu]; exact ⟨rfl, rfl, rfl, rfl, rfl, rfl, rfl⟩
  refine ⟨h.table, h.queue, h.listed, h.suspended, h.mutator,
    fun u hu hs => (hsame u).stopped (h.stopped u hu hs),
    fun u hu hs => (hsame u).free (h.free u hu hs), ?_, fun u hu => ?_⟩
  · exact h.current.of_same hsame
  · by_cases hut : u = t
    · subst hut; simpa using he (by simpa using hu)
    · simpa [hut] using h.exited u (by simpa [hut] using hu)

/-- A step of the thread that the collector deals with. -/
theorem modify_current (h : Inv cfg s) (hcur : s.collector.current = some t)
    (hthreads : s'.threads = Function.update s.threads t c) (htable : s'.table = s.table)
    (hpc : s'.collector.current = some t) (hqueue : s'.collector.queue = s.collector.queue)
    (hcollection : s'.collector.inCollection = s.collector.inCollection)
    (hhandshake : s'.collector.handshakeThreads = s.collector.handshakeThreads)
    (hsuspended : ∀ u, s'.collector.Suspended cfg u ↔ s.collector.Suspended cfg u)
    (hok : s'.collector.Ok s'.target s'.semaphore s'.threads)
    (he : c.exited = true → c.handler = .outside ∧ c.signal = false) : Inv cfg s' := by
  have hne : ∀ u, u ≠ t → s'.threads u = s.threads u := fun u hu => by
    rw [hthreads, Function.update_of_ne hu]
  refine ⟨htable ▸ h.table, hqueue ▸ h.queue, ?_, ?_, ?_, ?_, ?_, hok, ?_⟩
  · rw [hqueue, htable]; exact h.listed
  · rw [hcollection, hhandshake, htable, hqueue]; exact h.suspended
  · rw [hpc, ← hcur]; exact h.mutator
  · intro u hu hs
    have hut : u ≠ t := by rintro rfl; exact hu hpc
    rw [hne u hut]
    exact h.stopped u (hcur ▸ hpc ▸ hu) ((hsuspended u).mp hs)
  · intro u hu hs
    have hut : u ≠ t := by rintro rfl; exact hu hpc
    rw [hne u hut]
    exact h.free u (hcur ▸ hpc ▸ hu) fun hs' => hs ((hsuspended u).mpr hs')
  · intro u hu
    by_cases hut : u = t
    · subst hut
      rw [hthreads, Function.update_self] at hu ⊢
      exact he hu
    · rw [hne u hut] at hu ⊢
      exact h.exited u hu

theorem suspending_step (h : Inv cfg s) {pc p : SuspendPc} {todo hs : List τ}
    (hpc : s.collector = .suspending pc t todo hs)
    (hthreads : s'.threads = Function.update s.threads t c) (htable : s'.table = s.table)
    (hpc' : s'.collector = .suspending p t todo hs) (hok : p.Ok t s'.target s'.semaphore c)
    (he : c.exited = true → c.handler = .outside ∧ c.signal = false) : Inv cfg s' := by
  refine h.modify_current (by rw [hpc]; rfl) hthreads htable (by rw [hpc']; rfl)
    (by rw [hpc, hpc']; rfl) (by rw [hpc, hpc']; rfl) (by rw [hpc, hpc']; rfl)
    (by rw [hpc, hpc']; exact fun _ => .rfl) ?_ he
  rw [hpc', hthreads]
  simpa [CollectorPc.Ok] using hok

theorem resuming_step (h : Inv cfg s) {pc p : ResumePc} {todo : List τ}
    (hpc : s.collector = .resuming pc t todo)
    (hthreads : s'.threads = Function.update s.threads t c) (htable : s'.table = s.table)
    (hpc' : s'.collector = .resuming p t todo) (hok : p.Ok t s'.target s'.semaphore c)
    (he : c.exited = true → c.handler = .outside ∧ c.signal = false) : Inv cfg s' := by
  refine h.modify_current (by rw [hpc]; rfl) hthreads htable (by rw [hpc']; rfl)
    (by rw [hpc, hpc']; rfl) (by rw [hpc, hpc']; rfl) (by rw [hpc, hpc']; rfl)
    (by rw [hpc, hpc']; exact fun _ => .rfl) ?_ he
  rw [hpc', hthreads]
  simpa [CollectorPc.Ok] using hok

/-- Only the thread that the collector waits for has a signal to handle. -/
theorem waits_of_active (h : Inv cfg s)
    (hact : (s.threads t).signal = true ∨
      (s.threads t).handler ≠ .outside ∧ (s.threads t).handler ≠ .parked) :
    (∃ todo hs, s.collector = .suspending .wait t todo hs) ∨
      ∃ todo, s.collector = .resuming .wait t todo := by
  have hfree : ¬ (s.threads t).Free := by
    intro hf
    rw [hf.signal, hf.handler] at hact
    simp at hact
  have hstopped : ∀ n, ¬ (s.threads t).Stopped n := by
    intro n hs
    rw [hs.signal, hs.handler] at hact
    simp at hact
  have hcur : s.collector.current = some t := by
    by_contra hcur
    by_cases hs : s.collector.Suspended cfg t
    · exact hstopped 1 (h.stopped t hcur hs)
    · exact hfree (h.free t hcur hs)
  have hok := h.current
  rcases CollectorPc.of_current hcur with ⟨pc, todo, hs, hpc⟩ | ⟨pc, todo, hpc⟩
  · rw [hpc] at hok
    cases pc with
    | wait => exact .inl ⟨todo, hs, hpc⟩
    | load | handle | target | kill => exact absurd hok.1 hfree
    | test => exact (hok.2.2.elim (fun hc => hfree hc.1) fun hc => hstopped 0 hc.1).elim
    | add => exact absurd hok.1 (hstopped 0)
  · rw [hpc] at hok
    cases pc with
    | wait => exact .inr ⟨todo, hpc⟩
    | load | target | kill => exact absurd hok.1 (hstopped 1)
    | sub =>
      obtain ⟨-, -, hsig, hhan, -⟩ := hok
      rw [hsig, hhan] at hact
      simp at hact

theorem deliver (h : Inv cfg s) (hs : step cfg s (.deliver t) = some s') : Inv cfg s' := by
  simp only [step] at hs
  split at hs
  · cases hs
  next hsig =>
  have hsig : (s.threads t).signal = true := by simpa using hsig
  have hex : (s.threads t).exited ≠ true := fun he => by simp [(h.exited t he).2] at hsig
  have hok := h.current
  rcases h.waits_of_active (.inl hsig) with ⟨todo, hs', hpc⟩ | ⟨todo, hpc⟩
  all_goals rw [hpc] at hok
  · obtain ⟨⟨hcount, hbal, hfr, hhan⟩, htarget⟩ := hok
    obtain ⟨-, hhan, hsem⟩ := hhan.resolve_right (by simp [hsig])
    rw [hhan] at hs
    cases hs
    refine h.suspending_step (p := .wait) hpc rfl rfl hpc ⟨?_, htarget⟩ fun he => absurd he hex
    exact ⟨hcount, hbal, hfr, .inr ⟨rfl, .inl ⟨.inl rfl, hsem⟩⟩⟩
  · obtain ⟨⟨hcount, hbal, hhan⟩, htarget⟩ := hok
    obtain ⟨-, hhan, hfr, hsem⟩ := hhan.resolve_right (by simp [hsig])
    rw [hhan] at hs
    cases hs
    refine h.resuming_step (p := .wait) hpc rfl rfl hpc ⟨?_, htarget⟩ fun he => absurd he hex
    exact ⟨hcount, hbal, .inr ⟨rfl, .inl ⟨rfl, by simp [hfr], hsem⟩⟩⟩

/-- The handler of a thread that the collector suspends. -/
theorem handler_stopping (hc : (s.threads t).Stopping t s.semaphore) (ht : s.target = some t)
    {sp : ℕ} (hs : handlerStep s t sp = some s') :
    s'.table = s.table ∧ s'.collector = s.collector ∧ s'.target = s.target ∧
      ∃ c, s'.threads = Function.update s.threads t c ∧ c.exited = (s.threads t).exited ∧
        c.Stopping t s'.semaphore := by
  obtain ⟨hcount, hbal, hfr, hhan⟩ := hc
  unfold handlerStep at hs
  cases hpc : (s.threads t).handler
  all_goals
    rw [hpc] at hs hhan
    simp only [ht, Option.map_some] at hs
  case entry =>
    obtain ⟨hsig, ⟨-, hsem⟩ | hn | hn⟩ := hhan.resolve_left (by simp)
    · rw [if_neg (by simp [hcount])] at hs
      obtain rfl := Option.some.inj hs
      exact ⟨rfl, rfl, rfl, _, rfl, rfl, hcount, hbal, hfr, .inr ⟨hsig, .inl ⟨.inr rfl, hsem⟩⟩⟩
    all_goals simp at hn
  case save u =>
    obtain ⟨hsig, ⟨hu, hsem⟩ | hn | hn⟩ := hhan.resolve_left (by simp)
    · obtain rfl : u = t := by simpa using hu
      obtain rfl := Option.some.inj hs
      refine ⟨rfl, rfl, rfl, _, Function.update_idem .., by simp, ?_⟩
      by_cases hsp : sp = 0
      · refine ⟨by simpa, by simpa, by simpa, .inr ⟨by simpa, .inr (.inl ⟨.inl ⟨?_, hsem⟩, ?_⟩)⟩⟩
        all_goals simp [hsp]
      · refine ⟨by simpa, by simpa, by simpa, .inr ⟨by simpa, .inr (.inr ⟨.inl ⟨?_, hsem⟩, ?_⟩)⟩⟩
        all_goals simp [hsp]
    all_goals simp at hn
  case retry =>
    obtain ⟨hsig, hn | ⟨⟨-, hsem⟩ | hn, hsp⟩ | hn⟩ := hhan.resolve_left (by simp)
    · simp at hn
    · obtain rfl := Option.some.inj hs
      refine ⟨rfl, rfl, rfl, _, rfl, by simp [Thread.leaveHandler_outermost hfr], ?_⟩
      rw [State.post_threads, Thread.leaveHandler_outermost hfr]
      exact ⟨hcount, hbal, hfr, .inr ⟨hsig, .inr (.inl ⟨.inr ⟨rfl, by simp [hsem]⟩, hsp⟩)⟩⟩
    all_goals simp at hn
  case post =>
    obtain ⟨hsig, hn | hn | ⟨⟨-, hsem⟩ | hn, hsp⟩⟩ := hhan.resolve_left (by simp)
    · simp at hn
    · simp at hn
    · obtain rfl := Option.some.inj hs
      refine ⟨rfl, rfl, rfl, _, rfl, rfl, hcount, hbal, hfr, .inr ⟨hsig, .inr (.inr ⟨?_, hsp⟩)⟩⟩
      exact .inr ⟨rfl, by simp [hsem]⟩
    · simp at hn
  case outside | parked => cases hs
  case woken | resumePost => simp at hhan

/-- The handler of a thread that the collector resumes. -/
theorem handler_resuming (hc : (s.threads t).Resuming s.semaphore) (ht : s.target = some t)
    {sp : ℕ} (hs : handlerStep s t sp = some s') :
    s'.table = s.table ∧ s'.collector = s.collector ∧ s'.target = s.target ∧
      ∃ c, s'.threads = Function.update s.threads t c ∧ c.exited = (s.threads t).exited ∧
        c.Resuming s'.semaphore := by
  obtain ⟨hcount, hbal, hhan⟩ := hc
  unfold handlerStep at hs
  cases hpc : (s.threads t).handler
  all_goals
    rw [hpc] at hs hhan
    simp only [ht, Option.map_some] at hs
  case entry =>
    obtain ⟨hsig, ⟨-, hfr, hsem⟩ | ⟨-, hn | hn⟩⟩ := hhan.resolve_left (by simp)
    · rw [if_pos (by simp [hcount])] at hs
      obtain rfl := Option.some.inj hs
      refine ⟨rfl, rfl, rfl, _, rfl, by simp [Thread.leaveHandler_inner hfr], ?_⟩
      rw [Thread.leaveHandler_inner hfr]
      exact ⟨hcount, hbal, .inr ⟨hsig, .inr ⟨rfl, .inl ⟨.inl rfl, hsem⟩⟩⟩⟩
    all_goals simp at hn
  case woken =>
    obtain ⟨hsig, ⟨hn, -⟩ | ⟨hfr, ⟨-, hsem⟩ | hn⟩⟩ := hhan.resolve_left (by simp)
    · simp at hn
    · obtain rfl := Option.some.inj hs
      refine ⟨rfl, rfl, rfl, _, Function.update_idem .., by simp, by simpa, by simpa, ?_⟩
      exact .inr ⟨by simpa, .inr ⟨by simpa, .inl ⟨.inr rfl, hsem⟩⟩⟩
    · simp at hn
  case resumePost =>
    obtain ⟨hsig, ⟨hn, -⟩ | ⟨hfr, ⟨-, hsem⟩ | hn⟩⟩ := hhan.resolve_left (by simp)
    · simp at hn
    · obtain rfl := Option.some.inj hs
      refine ⟨rfl, rfl, rfl, _, rfl, by simp [Thread.leaveHandler_outermost hfr], ?_⟩
      rw [State.post_threads, Thread.leaveHandler_outermost hfr]
      exact ⟨hcount, hbal, .inr ⟨hsig, .inr ⟨hfr, .inr ⟨rfl, by simp [hsem]⟩⟩⟩⟩
    · simp at hn
  case outside | parked => cases hs
  case save | retry | post => simp at hhan

theorem handler (h : Inv cfg s) {sp : ℕ} (hs : handlerStep s t sp = some s') : Inv cfg s' := by
  have hact : (s.threads t).handler ≠ .outside ∧ (s.threads t).handler ≠ .parked := by
    constructor <;> intro he <;> simp [handlerStep, he] at hs
  have hex : (s.threads t).exited ≠ true := fun he => hact.1 (h.exited t he).1
  have hok := h.current
  rcases h.waits_of_active (.inr hact) with ⟨todo, hs', hpc⟩ | ⟨todo, hpc⟩
  all_goals rw [hpc] at hok
  · obtain ⟨htable, hcol, ht, c, hc, he, hst⟩ := handler_stopping hok.1 hok.2 hs
    exact h.suspending_step hpc hc htable (hcol.trans hpc) ⟨hst, ht.trans hok.2⟩ fun he' =>
      absurd (he.symm.trans he') hex
  · obtain ⟨htable, hcol, ht, c, hc, he, hst⟩ := handler_resuming hok.1 hok.2 hs
    exact h.resuming_step hpc hc htable (hcol.trans hpc) ⟨hst, ht.trans hok.2⟩ fun he' =>
      absurd (he.symm.trans he') hex

theorem register (h : Inv cfg s) (hc : Undisturbed cfg s (.register t))
    (hs : step cfg s (.register t) = some s') : Inv cfg s' := by
  simp only [step] at hs
  split at hs
  · cases hs
  next hnew =>
  cases hs
  refine ⟨List.nodup_append.mpr ⟨h.table, by simp, ?_⟩, h.queue,
    fun u hu => List.mem_append.mpr (.inl (h.listed u hu)), fun hin u => ?_, h.mutator, h.stopped,
    h.free, h.current, h.exited⟩
  · have hne : ∀ u ∈ s.table, u ≠ t := fun u hu => ne_of_mem_of_not_mem hu hnew
    simpa using hne
  · -- only a thread that is no mutator registers between the two looks at the table
    refine (h.suspended hin u).trans (and_congr_right fun hmut => ?_)
    have hut : u ≠ t := by
      rintro rfl
      rw [hc hmut] at hin
      cases hin
    simp [hut]

omit [DecidableEq τ] in
/-- The collector goes on to the next thread, or to the next phase. -/
theorem goto (h : Inv cfg s) {pc : CollectorPc τ} (hcur : s.collector.current = none)
    (hqueue : pc.queue.Nodup) (hlisted : ∀ u ∈ pc.queue, u ∈ s.table)
    (hsuspended : pc.inCollection = true → ∀ u, u ∈ pc.handshakeThreads ↔
      cfg.isMutator u = true ∧ u ∈ s.table ∧ u ∉ pc.queue)
    (hmutator : ∀ u, pc.current = some u → cfg.isMutator u = true)
    (hsame : ∀ u, pc.current ≠ some u →
      (pc.Suspended cfg u ↔ s.collector.Suspended cfg u))
    (hok : pc.Ok s.target s.semaphore s.threads) : Inv cfg (s.goto pc) := by
  have hne : ∀ u, s.collector.current ≠ some u := fun u hu => by rw [hcur] at hu; cases hu
  exact ⟨h.table, hqueue, hlisted, hsuspended, hmutator,
    fun u hu hs => h.stopped u (hne u) ((hsame u hu).mp hs),
    fun u hu hs => h.free u (hne u) fun hs' => hs ((hsame u hu).mpr hs'), hok, h.exited⟩

/-- The collector is done with a thread. -/
theorem finish (h : Inv cfg s) (pc : CollectorPc τ) (hcur : s.collector.current = some t)
    (hthreads : s'.threads = Function.update s.threads t c) (htable : s'.table = s.table)
    (hpc : s'.collector = pc) (hnone : pc.current = none)
    (hqueue : s.collector.queue = t :: pc.queue)
    (hsuspended : pc.inCollection = true → ∀ u, u ∈ pc.handshakeThreads ↔
      cfg.isMutator u = true ∧ u ∈ s.table ∧ u ∉ pc.queue)
    (hsame : ∀ u, u ≠ t → (pc.Suspended cfg u ↔ s.collector.Suspended cfg u))
    (hc : pc.Suspended cfg t ∧ c.Stopped 1 ∨ ¬ pc.Suspended cfg t ∧ c.Free)
    (hok : pc.Ok s'.target s'.semaphore s'.threads)
    (he : c.exited = true → c.handler = .outside ∧ c.signal = false) : Inv cfg s' := by
  have hne : ∀ u, u ≠ t → s'.threads u = s.threads u := fun u hu => by
    rw [hthreads, Function.update_of_ne hu]
  have hother : ∀ u, u ≠ t → s.collector.current ≠ some u := fun u hu hc => by
    rw [hcur] at hc
    exact hu (Option.some.inj hc).symm
  have ht : s'.threads t = c := by rw [hthreads, Function.update_self]
  have hnodup := h.queue
  have hlisted := h.listed
  rw [hqueue] at hnodup hlisted
  subst hpc
  refine ⟨htable ▸ h.table, hnodup.of_cons, ?_, htable ▸ hsuspended, ?_, ?_, ?_, hok, ?_⟩
  · rw [htable]
    exact fun u hu => hlisted u (List.mem_cons_of_mem _ hu)
  · rw [hnone]; exact nofun
  · intro u _ hs
    by_cases hut : u = t
    · subst hut
      rw [ht]
      exact (hc.resolve_right fun hn => hn.1 hs).2
    · rw [hne u hut]
      exact h.stopped u (hother u hut) ((hsame u hut).mp hs)
  · intro u _ hs
    by_cases hut : u = t
    · subst hut
      rw [ht]
      exact (hc.resolve_left fun hn => hs hn.1).2
    · rw [hne u hut]
      exact h.free u (hother u hut) fun hs' => hs ((hsame u hut).mpr hs')
  · intro u hu
    by_cases hut : u = t
    · subst hut
      rw [ht] at hu ⊢
      exact he hu
    · rw [hne u hut] at hu ⊢
      exact h.exited u hu

theorem suspendStep (h : Inv cfg s) {pc : SuspendPc} {todo hs' : List τ}
    (hpc : s.collector = .suspending pc t todo hs')
    (hc : pc = .kill → (s.threads t).exited = false)
    (hs : Suspension.suspendStep s t pc (fun pc => .suspending pc t todo hs')
      (.block todo (hs' ++ [t])) = some s') : Inv cfg s' := by
  have hok := h.current
  rw [hpc] at hok
  have hself : s.threads = Function.update s.threads t (s.threads t) := by simp
  unfold Suspension.suspendStep at hs
  cases pc with
  | load =>
    obtain rfl := Option.some.inj hs
    rw [hok.1.suspendCount, if_pos rfl]
    exact h.suspending_step (p := .handle) hpc hself rfl rfl hok (h.exited t)
  | handle =>
    dsimp only at hs
    split at hs <;> cases hs
    exact h.suspending_step (p := .target) hpc hself rfl rfl hok (h.exited t)
  | target =>
    obtain rfl := Option.some.inj hs
    exact h.suspending_step (p := .kill) hpc hself rfl rfl ⟨hok.1, hok.2, rfl⟩ (h.exited t)
  | kill =>
    simp only [hc rfl, Bool.false_eq_true, if_false] at hs
    obtain rfl := Option.some.inj hs
    obtain ⟨hf, hsem, ht⟩ := hok
    refine h.suspending_step (p := .wait) hpc rfl rfl rfl ⟨?_, ht⟩ fun he => ?_
    · exact ⟨hf.suspendCount, hf.balance, hf.frames, .inl ⟨rfl, hf.handler, hsem⟩⟩
    · cases (hc rfl).symm.trans he
  | wait =>
    obtain ⟨⟨hcount, hbal, hfr, hhan⟩, ht⟩ := hok
    simp only [State.wait] at hs
    split at hs <;> cases hs
    next hpos =>
    refine h.suspending_step (p := .test) hpc hself rfl rfl ⟨?_, ht, ?_⟩ (h.exited t)
    · dsimp only
      rcases hhan with
        ⟨-, -, hn⟩ | ⟨-, ⟨-, hn⟩ | ⟨⟨-, hn⟩ | ⟨-, hn⟩, -⟩ | ⟨⟨-, hn⟩ | ⟨-, hn⟩, -⟩⟩ <;>
        omega
    · rcases hhan with ⟨-, -, hn⟩ | ⟨hsig, ⟨-, hn⟩ | ⟨hh, hsp⟩ | ⟨hh, hsp⟩⟩
      · omega
      · omega
      · obtain ⟨hh, -⟩ := hh.resolve_left fun hn => by omega
        exact .inl ⟨⟨hcount, hbal, hsig, hh, hfr⟩, hsp⟩
      · obtain ⟨hh, -⟩ := hh.resolve_left fun hn => by omega
        exact .inr ⟨⟨hcount, hbal, hsig, hh, hfr⟩, hsp⟩
  | test =>
    obtain rfl := Option.some.inj hs
    obtain ⟨hsem, ht, ⟨hf, hsp⟩ | ⟨hst, hsp⟩⟩ := hok
    · rw [if_neg (by simpa using hsp)]
      exact h.suspending_step (p := .kill) hpc hself rfl rfl ⟨hf, hsem, ht⟩ (h.exited t)
    · rw [if_pos hsp]
      exact h.suspending_step (p := .add) hpc hself rfl rfl ⟨hst, hsem⟩ (h.exited t)
  | add =>
    obtain rfl := Option.some.inj hs
    obtain ⟨hst, hsem⟩ := hok
    have hqueue := h.queue
    have hsusp := h.suspended
    rw [hpc] at hqueue hsusp
    have hmut := h.mutator t (by rw [hpc]; rfl)
    have htable := h.listed t (by rw [hpc]; exact List.mem_cons_self)
    refine h.finish (.block todo (hs' ++ [t])) (by rw [hpc]; rfl) rfl rfl rfl rfl
      (by rw [hpc]; rfl) (fun _ u => ?_) (fun u hut => by simp [hpc, CollectorPc.Suspended, hut])
      (.inl ⟨by simp [CollectorPc.Suspended], ?_⟩) hsem (h.exited t)
    · by_cases hut : u = t
      · subst hut
        exact iff_of_true (by simp [CollectorPc.handshakeThreads])
          ⟨hmut, htable, (List.nodup_cons.mp hqueue).1⟩
      · simpa [CollectorPc.handshakeThreads, CollectorPc.queue, hut] using hsusp rfl u
    · exact ⟨by simp [fetchAdd, hst.suspendCount], by simp [hst.balance], hst.signal, hst.handler,
        hst.frames⟩

theorem resumeStep (h : Inv cfg s) {pc : ResumePc} {todo : List τ}
    (hpc : s.collector = .resuming pc t todo)
    (hs : Suspension.resumeStep s t pc (fun pc => .resuming pc t todo) (.unblock todo) =
      some s') : Inv cfg s' := by
  have hok := h.current
  rw [hpc] at hok
  have hself : s.threads = Function.update s.threads t (s.threads t) := by simp
  unfold Suspension.resumeStep at hs
  cases pc with
  | load =>
    obtain rfl := Option.some.inj hs
    rw [hok.1.suspendCount, if_pos rfl]
    exact h.resuming_step (p := .target) hpc hself rfl rfl hok (h.exited t)
  | target =>
    obtain rfl := Option.some.inj hs
    exact h.resuming_step (p := .kill) hpc hself rfl rfl ⟨hok.1, hok.2, rfl⟩ (h.exited t)
  | kill =>
    obtain ⟨hst, hsem, ht⟩ := hok
    have hex : (s.threads t).exited ≠ true := fun he => by
      cases hst.handler.symm.trans (h.exited t he).1
    simp only [hex] at hs
    obtain rfl := Option.some.inj hs
    refine h.resuming_step (p := .wait) hpc rfl rfl rfl ⟨?_, ht⟩ fun he => absurd he hex
    exact ⟨hst.suspendCount, hst.balance, .inl ⟨rfl, hst.handler, hst.frames, hsem⟩⟩
  | wait =>
    obtain ⟨⟨hcount, hbal, hhan⟩, ht⟩ := hok
    simp only [State.wait] at hs
    split at hs <;> cases hs
    next hpos =>
    obtain ⟨-, -, -, hn⟩ | ⟨hsig, ⟨-, -, hn⟩ | ⟨hfr, ⟨-, hn⟩ | ⟨hh, hn⟩⟩⟩ := hhan
    · omega
    · omega
    · omega
    · exact h.resuming_step (p := .sub) hpc hself rfl rfl
        ⟨hcount, hbal, hsig, hh, hfr, by simp [hn]⟩ (h.exited t)
  | sub =>
    obtain rfl := Option.some.inj hs
    obtain ⟨hcount, hbal, hsig, hh, hfr, hsem⟩ := hok
    have hqueue := h.queue
    rw [hpc] at hqueue
    refine h.finish (.unblock todo) (by rw [hpc]; rfl) rfl rfl rfl rfl (by rw [hpc]; rfl) nofun
      (fun u hut => by simp [hpc, CollectorPc.Suspended])
      (.inr ⟨fun ht => (List.nodup_cons.mp hqueue).1 ht.2, ?_⟩) hsem (h.exited t)
    exact ⟨by simp [fetchSub, hcount], hbal, hsig, hh, hfr⟩

theorem collectorStep (h : Inv cfg s) (hc : Undisturbed cfg s .collector)
    (hs : Suspension.collectorStep cfg s = some s') : Inv cfg s' := by
  have hok := h.current
  have hqueue := h.queue
  have hlisted := h.listed
  have hsusp := h.suspended
  unfold Suspension.collectorStep at hs
  cases hpc : s.collector with
  | idle =>
    rw [hpc] at hs hok
    cases hs
    exact h.goto (by rw [hpc]; rfl) .nil nofun nofun nofun
      (by simp [hpc, CollectorPc.Suspended]) hok
  | scan =>
    rw [hpc] at hs hok
    cases hs
    refine h.goto (by rw [hpc]; rfl) h.table (fun _ => id) (fun _ u => ?_) nofun
      (by simp [hpc, CollectorPc.Suspended]) hok
    simp only [CollectorPc.handshakeThreads, CollectorPc.queue, List.not_mem_nil, false_iff]
    exact fun hu => hu.2.2 hu.2.1
  | block todo hs' =>
    simp only [Undisturbed, hpc, CollectorPc.Reaches] at hc
    rw [hpc] at hs hok hqueue hlisted hsusp
    cases todo with
    | nil =>
      cases hs
      exact h.goto (by rw [hpc]; rfl) .nil nofun hsusp nofun (by simp [hpc, CollectorPc.Suspended])
        hok
    | cons t todo =>
      have hnew : t ∉ hs' := fun ht => ((hsusp rfl t).mp ht).2.2 List.mem_cons_self
      cases hmut : cfg.isMutator t with
      | true =>
        simp only [hmut, hc hmut, Bool.not_false, Bool.and_self, if_true] at hs
        obtain rfl := Option.some.inj hs
        have hf : (s.threads t).Free :=
          h.free t (by rw [hpc]; exact nofun) (by rw [hpc]; exact hnew)
        refine h.goto (by rw [hpc]; rfl) hqueue hlisted hsusp (fun u hu => ?_)
          (by simp [hpc, CollectorPc.Suspended]) ⟨hf, hok⟩
        rwa [← Option.some.inj hu]
      | false =>
        simp only [hmut, Bool.false_and, Bool.false_eq_true, if_false] at hs
        obtain rfl := Option.some.inj hs
        refine h.goto (by rw [hpc]; rfl) hqueue.of_cons
          (fun u hu => hlisted u (List.mem_cons_of_mem _ hu))
          (fun hin u => (hsusp hin u).trans (and_congr_right fun hu => ?_)) nofun
          (by simp [hpc, CollectorPc.Suspended]) hok
        have hut : u ≠ t := by
          rintro rfl
          rw [hmut] at hu
          cases hu
        simp [CollectorPc.queue, hut]
  | suspending pc t todo hs' =>
    rw [hpc] at hs
    refine h.suspendStep hpc (fun hk => ?_) hs
    subst hk
    simpa only [Undisturbed, hpc, CollectorPc.Reaches] using hc
  | returned hs' =>
    rw [hpc] at hs hok hsusp
    cases hs
    refine h.goto (by rw [hpc]; rfl) h.table (fun _ => id) nofun nofun (fun u _ => ?_) hok
    rw [hpc]
    refine .trans ?_ (hsusp rfl u).symm
    simp [CollectorPc.Suspended, CollectorPc.queue]
  | unblock todo =>
    rw [hpc] at hs hok hqueue hlisted
    cases todo with
    | nil =>
      cases hs
      exact h.goto (by rw [hpc]; rfl) .nil nofun nofun nofun
        (by simp [hpc, CollectorPc.Suspended]) hok
    | cons t todo =>
      cases hmut : cfg.isMutator t with
      | true =>
        simp only [hmut, if_true] at hs
        obtain rfl := Option.some.inj hs
        have hst : (s.threads t).Stopped 1 := h.stopped t (by rw [hpc]; exact nofun) (by
          rw [hpc]
          exact ⟨hmut, List.mem_cons_self⟩)
        refine h.goto (by rw [hpc]; rfl) hqueue hlisted nofun (fun u hu => ?_) (fun u hu => ?_)
          ⟨hst, hok⟩
        · rwa [← Option.some.inj hu]
        · have hut : u ≠ t := fun he => hu (by rw [he]; rfl)
          simp [hpc, CollectorPc.Suspended, hut]
      | false =>
        simp only [hmut, Bool.false_eq_true, if_false] at hs
        obtain rfl := Option.some.inj hs
        refine h.goto (by rw [hpc]; rfl) hqueue.of_cons
          (fun u hu => hlisted u (List.mem_cons_of_mem _ hu)) nofun nofun (fun u _ => ?_) hok
        simp only [hpc, CollectorPc.Suspended, List.mem_cons]
        refine and_congr_right fun hu => ?_
        have hut : u ≠ t := by
          rintro rfl
          rw [hmut] at hu
          cases hu
        simp [hut]
  | resuming pc t todo =>
    rw [hpc] at hs
    exact h.resumeStep hpc hs

theorem step (h : Inv cfg s) {l : Label τ} (hc : Undisturbed cfg s l)
    (hs : Suspension.step cfg s l = some s') : Inv cfg s' := by
  cases l with
  | register t => exact h.register hc hs
  | establish t =>
    simp only [Suspension.step] at hs
    split at hs <;> cases hs
    exact h.modify_same ⟨rfl, rfl, rfl, rfl, rfl, rfl, rfl⟩ (h.exited t)
  | terminate t =>
    simp only [Suspension.step] at hs
    split at hs <;> cases hs
    exact h.modify_same ⟨rfl, rfl, rfl, rfl, rfl, rfl, rfl⟩ (h.exited t)
  | exit t =>
    simp only [Suspension.step] at hs
    split at hs
    · next hex =>
      cases hs
      exact h.modify_same ⟨rfl, rfl, rfl, rfl, rfl, rfl, rfl⟩ fun _ => hex.2
    · cases hs
  | deliver t => exact h.deliver hs
  | handler t sp => exact h.handler hs
  | collector => exact h.collectorStep hc hs

omit [DecidableEq τ] in
theorem new : Inv cfg (State.new : State τ) where
  table := .nil
  queue := .nil
  listed := nofun
  suspended := nofun
  mutator := nofun
  stopped := nofun
  free _ _ _ := ⟨rfl, rfl, rfl, rfl, rfl⟩
  current := rfl
  exited := nofun

end Inv

theorem inv_of_reachable (h : (machine cfg).ReachableUnder (Undisturbed cfg) s) : Inv cfg s := by
  refine h.invariant ?_ fun _ _ _ hi hc hs => hi.step hc hs
  rintro s rfl
  exact Inv.new

end VmkitCore.Suspension
