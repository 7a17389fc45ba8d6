import VmkitCore.Sync.Monitor

/-! # The monitor invariant

What the three cells hold is read off the next step of the thread that has the
mutex. Every step keeps this, up to the return of a `wait_with_handshake`, as long as the actions
of unlocked calls return and leave the guards alone that were taken before.
-/

namespace VmkitCore.Monitor

/-- The thread has the mutex at this step, with this many live guards. -/
def Pc.Owns (g : ℕ) : Pc → Prop
  | .idle => 0 < g
  | .lockMutex | .handshakeMutex | .asleep .. | .waitRelock .. | .relockMutex _
  | .waitHandshakeMutex .. => False
  | _ => True

/-- The content of `holder` while a thread at this step has the mutex. -/
def Pc.holderCell (slot : ℕ) : Pc → ℕ
  | .idle | .countGuard | .dropCount _ | .dropHolder _ | .waitSwapCount _ | .waitSwapHolder ..
  | .unlockLoad _ | .unlockStoreCount .. | .unlockHolder .. | .waitHandshakeCount .. => slot
  | _ => 0

/-- The content of `rec_count` while a thread at this step has the mutex. -/
def Pc.recCell (g : ℕ) : Pc → ℕ
  | .idle | .countGuard | .dropCount .direct | .waitSwapCount _ | .waitStoreHolder ..
  | .unlockLoad _ | .unlockStoreCount .. | .relockHolder _ => g
  -- the guard that `relock_with_handshake` made is not counted
  | .dropCount (.handshake _) => g - 1
  | _ => 0

/-- The depth a `wait_with_handshake` was called at is the number of guards. -/
def Caller.Matches (g : ℕ) : Caller → Prop
  | .direct => True
  | .handshake d => d = g

/-- The guards of a thread, its floor and the saved values at each step. -/
def Pc.Ok (slot g floor : ℕ) : Pc → Prop
  | .idle | .countGuard => True
  | .lockMutex | .storeHolder | .handshakeMutex | .attemptLeave | .dropRaw => g = 0
  | .dropCount .direct => floor < g
  | .dropCount (.handshake d) => g = d + 1 ∧ 0 < d ∧ floor < d
  | .dropHolder .direct | .dropMutex .direct => g = 0
  | .dropHolder (.handshake d) | .dropMutex (.handshake d) => g = 1 ∧ d = 1
  | .waitSwapCount c | .unlockLoad c => floor < g ∧ c.Matches g
  | .waitSwapHolder c rec | .unlockStoreCount c rec | .unlockHolder c rec
  | .unlockMutex c rec => floor < g ∧ c.Matches g ∧ rec = g
  | .waitSleep c rec holder | .asleep c rec holder | .waitRelock c rec holder
  | .waitStoreCount c rec holder => floor < g ∧ c.Matches g ∧ rec = g ∧ holder = slot
  | .waitStoreHolder c holder => floor < g ∧ c.Matches g ∧ holder = slot
  | .relockMutex rec | .relockCount rec | .relockHolder rec => floor < g ∧ rec = g
  | .waitHandshakeMutex d rec | .waitHandshakeAttempt d rec | .waitHandshakeDropRaw d rec
  | .waitHandshakeHolder d rec | .waitHandshakeCount d rec => floor < g ∧ d = g ∧ rec = g

/-- A frame either left the monitor, or is entered by `wait_with_handshake` still holding it. -/
def FramesOk (slot : ℕ) : ℕ → List Frame → Prop
  | floor, [] => floor = 0
  | floor, f :: fs =>
    (floor = 0 ∧ ¬ f.resume.Owns f.guards ∨
      floor = f.guards ∧ f.resume = .waitSwapCount (.handshake f.guards)) ∧
    f.resume.Ok slot f.guards f.floor ∧ f.floor ≤ f.guards ∧ FramesOk slot f.floor fs

structure LocalOk (slot : ℕ) (l : Local) : Prop where
  pc : l.pc.Ok slot l.guards l.floor
  floor : l.floor ≤ l.guards
  frames : FramesOk slot l.floor l.frames

/-- The thread is inside the monitor. -/
def Local.Owns (l : Local) : Prop := l.pc.Owns l.guards

variable {τ : Type*}

/-- The depth of the `wait_with_handshake` that returns with the thread's next step. -/
def returning (s : State τ) (t : τ) : Option ℕ :=
  match (s.threads t).pc with
  | .dropCount (.handshake d) => if s.recCount = 1 then none else some d
  | .dropMutex (.handshake d) => some d
  | _ => none

/-- An action returns, and uses no other guards than those that it takes and drops. -/
def Op.Orderly : Op → Prop
  | .unwind | .capture _ | .giveBack _ => False
  | _ => True

instance : ∀ op : Op, Decidable op.Orderly
  | .unwind | .capture _ | .giveBack _ => inferInstanceAs (Decidable False)
  | .lockNoHandshake | .lockWithHandshake | .drop | .waitNoHandshake | .unlockedNoHandshake
  | .waitWithHandshake | .endFrame => inferInstanceAs (Decidable True)

/-- No `wait_with_handshake` returns, and the actions of unlocked calls are orderly. -/
def Orderly (s : State τ) : Label τ → Prop
  | .start _ op => op.Orderly
  | .step t => returning s t = none
  | _ => True

instance : ∀ (s : State τ) (a : Label τ), Decidable (Orderly s a)
  | _, .start _ op => inferInstanceAs (Decidable op.Orderly)
  | _, .step _ => inferInstanceAs (Decidable (_ = none))
  | _, .attempt .. | _, .wake _ => inferInstanceAs (Decidable True)

structure Inv (ids : ThreadIds τ) (s : State τ) : Prop where
  locals : ∀ t, LocalOk (ids.slot t) (s.threads t)
  mutex : ∀ t, s.mutex = some t ↔ (s.threads t).Owns
  holder : ∀ t, s.mutex = some t → s.holder = (s.threads t).pc.holderCell (ids.slot t)
  recCount : ∀ t, s.mutex = some t → s.recCount = (s.threads t).pc.recCell (s.threads t).guards
  free : s.mutex = none → s.holder = 0 ∧ s.recCount = 0

namespace Inv

variable {ids : ThreadIds τ} {s : State τ} {t u : τ}

theorem owner_unique (h : Inv ids s) (ht : (s.threads t).Owns) (hu : (s.threads u).Owns) :
    t = u :=
  Option.some.inj (((h.mutex t).mpr ht).symm.trans ((h.mutex u).mpr hu))

theorem holder_eq_slot_iff (h : Inv ids s) :
    s.holder = ids.slot t ↔
      s.mutex = some t ∧ (s.threads t).pc.holderCell (ids.slot t) = ids.slot t := by
  constructor
  · intro hs
    cases hm : s.mutex with
    | none => exact absurd ((h.free hm).1 ▸ hs).symm (ids.slot_ne_zero t)
    | some u =>
      have hu := h.holder u hm
      have hcell : (s.threads u).pc.holderCell (ids.slot u) = ids.slot u := by
        have h0 := ids.slot_ne_zero t
        revert hu
        rw [hs]
        unfold Pc.holderCell
        split <;> simp_all
      obtain rfl : t = u := ids.slot_injective (hs.symm.trans (hu.trans hcell))
      exact ⟨rfl, hcell⟩
  · rintro ⟨hm, hc⟩
    rw [h.holder t hm, hc]

/-- Between two calls, a thread finds its own id in `holder` exactly when it has a guard. -/
theorem holder_idle (h : Inv ids s) (ht : (s.threads t).pc = .idle) :
    s.holder = ids.slot t ↔ 0 < (s.threads t).guards := by
  rw [h.holder_eq_slot_iff, h.mutex]
  simp [Local.Owns, ht, Pc.Owns, Pc.holderCell]

theorem new (ids : ThreadIds τ) : Inv ids (State.new : State τ) where
  locals _ := ⟨trivial, Nat.le_refl _, rfl⟩
  mutex _ := ⟨nofun, fun h => absurd h (Nat.lt_irrefl 0)⟩
  holder _ h := nomatch h
  recCount _ h := nomatch h
  free _ := ⟨rfl, rfl⟩

variable [DecidableEq τ]

/-- The cells that the owner, or a thread that found the mutex free, leaves behind. -/
theorem replace (h : Inv ids s) {l : Local} {m : Option τ} {hc rc : ℕ}
    (hs : s.mutex = some t ∨ s.mutex = none) (hl : LocalOk (ids.slot t) l)
    (hm : m = some t ∧ l.Owns ∧ hc = l.pc.holderCell (ids.slot t) ∧ rc = l.pc.recCell l.guards ∨
      m = none ∧ ¬ l.Owns ∧ hc = 0 ∧ rc = 0) :
    Inv ids ⟨m, hc, rc, Function.update s.threads t l⟩ := by
  have hout : ∀ u, u ≠ t → ¬ (s.threads u).Owns := by
    intro u hu ho
    rcases hs with hs | hs
    · exact hu (Option.some.inj (((h.mutex u).mpr ho).symm.trans hs))
    · exact absurd ((h.mutex u).mpr ho) (by simp [hs])
  refine ⟨fun u => ?_, fun u => ?_, fun u hu => ?_, fun u hu => ?_, fun hn => ?_⟩
  · by_cases hut : u = t
    · subst hut; simpa using hl
    · simpa [hut] using h.locals u
  · by_cases hut : u = t
    · subst hut
      rcases hm with ⟨rfl, ho, -⟩ | ⟨rfl, ho, -⟩ <;> simp [ho]
    · have hne : m ≠ some u := by
        rcases hm with ⟨rfl, -⟩ | ⟨rfl, -⟩
        · exact fun e => hut (Option.some.inj e).symm
        · simp
      simp [hut, hne, hout u hut]
  all_goals rcases hm with ⟨rfl, ho, hh, hr⟩ | ⟨rfl, ho, hh, hr⟩
  · obtain rfl : t = u := Option.some.inj hu
    simpa using hh
  · cases hu
  · obtain rfl : t = u := Option.some.inj hu
    simpa using hr
  · cases hu
  · cases hn
  · exact ⟨hh, hr⟩

/-- A thread that stays outside leaves the cells alone. -/
theorem outside (h : Inv ids s) {l : Local} (hs : ¬ (s.threads t).Owns)
    (hl : LocalOk (ids.slot t) l) (ho : ¬ l.Owns) : Inv ids (s.setLocal t l) := by
  have ht : s.mutex ≠ some t := fun e => hs ((h.mutex t).mp e)
  refine ⟨fun u => ?_, fun u => ?_, fun u hu => ?_, fun u hu => ?_, h.free⟩
  · by_cases hut : u = t
    · subst hut; simpa [State.setLocal] using hl
    · simpa [State.setLocal, hut] using h.locals u
  · by_cases hut : u = t
    · subst hut; simp [State.setLocal, ht, ho]
    · simpa [State.setLocal, hut] using h.mutex u
  · have hut : u ≠ t := fun e => ht (e ▸ hu)
    simpa [State.setLocal, hut] using h.holder u hu
  · have hut : u ≠ t := fun e => ht (e ▸ hu)
    simpa [State.setLocal, hut] using h.recCount u hu

/-- A step of the owner that keeps the mutex. -/
theorem keep (h : Inv ids s) {l : Local} {hc rc : ℕ} (hs : (s.threads t).Owns)
    (hl : LocalOk (ids.slot t) l) (ho : l.Owns) (hh : hc = l.pc.holderCell (ids.slot t))
    (hr : rc = l.pc.recCell l.guards) :
    Inv ids ⟨s.mutex, hc, rc, Function.update s.threads t l⟩ := by
  have hm := (h.mutex t).mpr hs
  exact h.replace (.inl hm) hl (.inl ⟨hm, ho, hh, hr⟩)

/-- A step of the owner that gives the mutex up. -/
theorem release (h : Inv ids s) {l : Local} (hs : (s.threads t).Owns)
    (hl : LocalOk (ids.slot t) l) (ho : ¬ l.Owns)
    (hh : (s.threads t).pc.holderCell (ids.slot t) = 0)
    (hr : (s.threads t).pc.recCell (s.threads t).guards = 0) :
    Inv ids ⟨none, s.holder, s.recCount, Function.update s.threads t l⟩ := by
  have hm := (h.mutex t).mpr hs
  exact h.replace (.inl hm) hl
    (.inr ⟨rfl, ho, (h.holder t hm).trans hh, (h.recCount t hm).trans hr⟩)

/-- Taking the free mutex. -/
theorem acquire (h : Inv ids s) {pc : Pc} {s' : State τ} (hs : s.acquire t pc = some s')
    (hl : pc.Ok (ids.slot t) (s.threads t).guards (s.threads t).floor)
    (ho : pc.Owns (s.threads t).guards) (hh : pc.holderCell (ids.slot t) = 0)
    (hr : pc.recCell (s.threads t).guards = 0) : Inv ids s' := by
  obtain ⟨hm, rfl⟩ := State.acquire_eq_some.mp hs
  obtain ⟨hh0, hr0⟩ := h.free hm
  have hlt := h.locals t
  exact h.replace (.inr hm) ⟨hl, hlt.floor, hlt.frames⟩
    (.inl ⟨rfl, ho, hh0.trans hh.symm, hr0.trans hr.symm⟩)

/-- Running code in a frame outside the monitor. -/
theorem ok_enterReleased {slot : ℕ} {l : Local} {pc : Pc} (hl : LocalOk slot l)
    (hpc : pc.Ok slot l.guards l.floor) (ho : ¬ pc.Owns l.guards) :
    LocalOk slot ⟨.idle, 0, 0, ⟨pc, l.guards, l.floor⟩ :: l.frames⟩ :=
  ⟨trivial, Nat.le_refl _, .inl ⟨rfl, ho⟩, hpc, hl.floor, hl.frames⟩

theorem start (h : Inv ids s) {op : Op} {s' : State τ} (hop : op.Orderly)
    (hs : startOp ids s t op = some s') : Inv ids s' := by
  have hl := h.locals t
  unfold startOp at hs
  by_cases hpc : (s.threads t).pc = .idle
  case neg => simp [hpc] at hs
  have hown : (s.threads t).Owns ↔ 0 < (s.threads t).guards := by simp [Local.Owns, hpc, Pc.Owns]
  have hcells : 0 < (s.threads t).guards → s.holder = ids.slot t ∧
      s.recCount = (s.threads t).guards := by
    intro hg
    refine ⟨(h.holder_idle hpc).mpr hg, ?_⟩
    simpa [hpc, Pc.recCell] using h.recCount t ((h.mutex t).mpr (hown.mpr hg))
  simp only [hpc, ne_eq, not_true_eq_false, if_false] at hs
  have hfirst : s.holder ≠ ids.slot t → (s.threads t).guards = 0 := fun hne => by
    by_contra hg
    exact hne (hcells (Nat.pos_of_ne_zero hg)).1
  -- a nested call only checks that the caller has a guard of its own
  have hcall : ∀ pc : Pc, (s.threads t).floor < (s.threads t).guards →
      pc.Ok (ids.slot t) (s.threads t).guards (s.threads t).floor → pc.Owns (s.threads t).guards →
      pc.holderCell (ids.slot t) = ids.slot t → pc.recCell (s.threads t).guards =
        (s.threads t).guards → Inv ids (s.goto t pc) := by
    intro pc hf hok ho hh hr
    obtain ⟨h1, h2⟩ := hcells (by omega)
    exact h.keep (hown.mpr (by omega)) ⟨hok, hl.floor, hl.frames⟩ ho (h1.trans hh.symm)
      (h2.trans hr.symm)
  cases op with
  | lockNoHandshake =>
    obtain rfl := Option.some.inj hs
    by_cases hh : s.holder = ids.slot t
    · have hg := (h.holder_idle hpc).mp hh
      simp only [hh, not_true_eq_false, if_false]
      exact h.keep (hown.mpr hg) ⟨trivial, hl.floor, hl.frames⟩ trivial hh (hcells hg).2
    · simp only [hh, not_false_eq_true, if_true]
      have hg := hfirst hh
      exact h.outside (by simp [hown, hg]) ⟨hg, hl.floor, hl.frames⟩ not_false
  | lockWithHandshake =>
    obtain rfl := Option.some.inj hs
    by_cases hh : s.holder = ids.slot t
    · have hg := (h.holder_idle hpc).mp hh
      simp only [hh, not_true_eq_false, if_false]
      exact h.keep (hown.mpr hg) ⟨trivial, hl.floor, hl.frames⟩ trivial hh (hcells hg).2
    · simp only [hh, not_false_eq_true, if_true]
      have hg := hfirst hh
      exact h.outside (by simp [hown, hg]) (ok_enterReleased hl hg not_false)
        (Nat.lt_irrefl 0)
  | drop =>
    dsimp only at hs
    split at hs
    · next hf => cases hs; exact hcall _ hf hf trivial rfl rfl
    · cases hs
  | waitNoHandshake =>
    dsimp only at hs
    split at hs
    · next hf => cases hs; exact hcall _ hf ⟨hf, trivial⟩ trivial rfl rfl
    · cases hs
  | unlockedNoHandshake =>
    dsimp only at hs
    split at hs
    · next hf => cases hs; exact hcall _ hf ⟨hf, trivial⟩ trivial rfl rfl
    · cases hs
  | waitWithHandshake =>
    dsimp only at hs
    split at hs
    · next hf =>
      cases hs
      obtain ⟨h1, h2⟩ := hcells (by omega)
      exact h.keep (hown.mpr (by omega))
        ⟨trivial, Nat.le_refl _, .inr ⟨rfl, rfl⟩, ⟨hf, rfl⟩, hl.floor, hl.frames⟩
        (show 0 < (s.threads t).guards by omega) h1 h2
    · cases hs
  | endFrame =>
    have hfr := hl.frames
    cases hf : (s.threads t).frames with
    | nil => simp [hf] at hs
    | cons f fs =>
      simp only [hf] at hs
      split at hs
      · next hg =>
        cases hs
        rw [hf] at hfr
        obtain ⟨⟨hz, ho⟩ | ⟨hz, hr⟩, hok, hle, hrest⟩ := hfr
        · exact h.outside (by simp [hown, hg, hz]) ⟨hok, hle, hrest⟩ ho
        · have hlt : f.floor < f.guards := by rw [hr] at hok; exact hok.1
          obtain ⟨h1, h2⟩ := hcells (by omega)
          exact h.keep (hown.mpr (by omega)) ⟨hok, hle, hrest⟩ (by rw [hr]; trivial)
            (h1.trans (by simp [hr, Pc.holderCell])) (h2.trans (by simp [hr, Pc.recCell]; omega))
      · cases hs
  | unwind | capture | giveBack => cases hop

theorem threadStep (h : Inv ids s) {s' : State τ} (hc : returning s t = none)
    (hs : threadStep ids s t = some s') : Inv ids s' := by
  have ⟨hok, hle, hfr⟩ := h.locals t
  have hown : (s.threads t).Owns → s.holder = (s.threads t).pc.holderCell (ids.slot t) ∧
      s.recCount = (s.threads t).pc.recCell (s.threads t).guards := fun ho =>
    ⟨h.holder t ((h.mutex t).mpr ho), h.recCount t ((h.mutex t).mpr ho)⟩
  unfold Monitor.threadStep at hs
  unfold returning at hc
  cases hpc : (s.threads t).pc
  all_goals
    simp only [hpc, Local.Owns] at hok hown hs hc
    try cases hs
  case lockMutex => exact h.acquire hs hok trivial rfl rfl
  case handshakeMutex => exact h.acquire hs hok trivial rfl rfl
  case waitRelock c rec holder => exact h.acquire hs hok trivial rfl rfl
  case relockMutex rec => exact h.acquire hs hok trivial rfl rfl
  case waitHandshakeMutex d rec => exact h.acquire hs hok trivial rfl rfl
  all_goals have ho : (s.threads t).Owns := by rw [Local.Owns, hpc]; trivial
  all_goals obtain ⟨hh, hr⟩ := hown trivial
  case storeHolder =>
    exact h.keep ho ⟨trivial, hle, hfr⟩ trivial rfl (hr.trans hok.symm)
  case countGuard =>
    exact h.keep ho ⟨trivial, Nat.le_succ_of_le hle, hfr⟩ (Nat.succ_pos _) hh
      (congrArg (· + 1) hr)
  case dropRaw =>
    exact h.release ho (ok_enterReleased ⟨by rwa [hpc], hle, hfr⟩ hok not_false)
      (Nat.lt_irrefl 0) (by rw [hpc]; rfl) (by rw [hpc]; rfl)
  case dropCount c =>
    cases c with
    | direct =>
      simp only [Pc.Ok, Pc.recCell] at hok hr
      by_cases h1 : s.recCount = 1
      · simp only [h1, if_true]
        have hg : (s.threads t).guards = 1 := hr.symm.trans h1
        refine h.keep ho ⟨?_, ?_, hfr⟩ trivial hh rfl
        · show (s.threads t).guards - 1 = 0
          omega
        · show (s.threads t).floor ≤ (s.threads t).guards - 1
          omega
      · simp only [h1, if_false]
        have hg : fetchSub s.recCount = (s.threads t).guards - 1 := by
          rw [fetchSub, if_neg (by omega), hr]
        refine h.keep ho ⟨trivial, ?_, hfr⟩ ?_ hh hg
        · show (s.threads t).floor ≤ (s.threads t).guards - 1
          omega
        · show 0 < (s.threads t).guards - 1
          omega
    | handshake d =>
      simp only [Pc.Ok, Pc.recCell] at hok hr
      -- the call is not returning yet, so this guard was the last one counted
      have h1 : s.recCount = 1 := by simpa using hc
      simp only [h1, if_true]
      refine h.keep ho ⟨?_, ?_, hfr⟩ trivial hh rfl
      · show (s.threads t).guards - 1 = 1 ∧ d = 1
        omega
      · show (s.threads t).floor ≤ (s.threads t).guards - 1
        omega
  case dropHolder c =>
    refine h.keep ho ⟨?_, hle, hfr⟩ trivial rfl hr
    cases c <;> exact hok
  case dropMutex c =>
    cases c with
    | direct =>
      exact h.release ho ⟨trivial, hle, hfr⟩ (Nat.not_lt.mpr (Nat.le_zero.mpr hok))
        (by rw [hpc]; rfl) (by rw [hpc]; rfl)
    | handshake d => cases hc
  case waitSwapCount c =>
    exact h.keep ho ⟨⟨hok.1, hok.2, hr⟩, hle, hfr⟩ trivial hh rfl
  case waitSwapHolder c rec =>
    exact h.keep ho ⟨⟨hok.1, hok.2.1, hok.2.2, hh⟩, hle, hfr⟩ trivial rfl hr
  case waitSleep c rec holder =>
    exact h.release ho ⟨hok, hle, hfr⟩ not_false (by rw [hpc]; rfl) (by rw [hpc]; rfl)
  case waitStoreCount c rec holder =>
    exact h.keep ho ⟨⟨hok.1, hok.2.1, hok.2.2.2⟩, hle, hfr⟩ trivial hh hok.2.2.1
  case waitStoreHolder c holder =>
    cases c with
    | direct => exact h.keep ho ⟨trivial, hle, hfr⟩ (Nat.zero_lt_of_lt hok.1) hok.2.2 hr
    | handshake d => exact h.keep ho ⟨⟨hok.1, hok.2.1⟩, hle, hfr⟩ trivial hok.2.2 hr
  case unlockLoad c =>
    exact h.keep ho ⟨⟨hok.1, hok.2, hr⟩, hle, hfr⟩ trivial hh hr
  case unlockStoreCount c rec =>
    exact h.keep ho ⟨hok, hle, hfr⟩ trivial hh rfl
  case unlockHolder c rec =>
    exact h.keep ho ⟨hok, hle, hfr⟩ trivial rfl hr
  case unlockMutex c rec =>
    refine h.release ho (ok_enterReleased ⟨by rwa [hpc], hle, hfr⟩ ?_ ?_)
      (Nat.lt_irrefl 0) (by rw [hpc]; rfl) (by rw [hpc]; rfl)
    · cases c with
      | direct => exact ⟨hok.1, hok.2.2⟩
      | handshake d => exact hok
    · cases c <;> exact not_false
  case relockCount rec =>
    exact h.keep ho ⟨hok, hle, hfr⟩ trivial hh hok.2
  case relockHolder rec =>
    exact h.keep ho ⟨trivial, hle, hfr⟩ (Nat.zero_lt_of_lt hok.1) rfl hr
  case waitHandshakeDropRaw d rec =>
    exact h.release ho (ok_enterReleased ⟨by rwa [hpc], hle, hfr⟩ hok not_false)
      (Nat.lt_irrefl 0) (by rw [hpc]; rfl) (by rw [hpc]; rfl)
  case waitHandshakeHolder d rec =>
    exact h.keep ho ⟨hok, hle, hfr⟩ trivial rfl hr
  case waitHandshakeCount d rec =>
    obtain ⟨hf, hd, hrec⟩ := hok
    subst hd
    exact h.keep ho ⟨⟨rfl, Nat.zero_lt_of_lt hf, hf⟩, Nat.le_succ_of_le hle, hfr⟩ trivial hh hrec

/-- Every orderly step keeps the invariant. -/
theorem step (h : Inv ids s) {a : Label τ} {s' : State τ}
    (hc : Orderly s a) (hs : Monitor.step ids s a = some s') :
    Inv ids s' := by
  cases a with
  | start u op => exact h.start hc hs
  | step u => exact h.threadStep hc hs
  | attempt u left =>
    have ⟨hok, hle, hfr⟩ := h.locals u
    have hown : ∀ pc : Pc, (s.threads u).pc = pc → pc.Owns (s.threads u).guards →
        (s.threads u).Owns ∧ s.holder = pc.holderCell (ids.slot u) ∧
          s.recCount = pc.recCell (s.threads u).guards := by
      rintro pc rfl ho
      have hm := (h.mutex u).mpr ho
      exact ⟨ho, h.holder u hm, h.recCount u hm⟩
    unfold Monitor.step at hs
    dsimp only at hs
    split at hs
    · next hpc =>
      obtain rfl := Option.some.inj hs
      obtain ⟨ho, hh, hr⟩ := hown _ hpc trivial
      rw [hpc] at hok
      cases left <;> exact h.keep ho ⟨hok, hle, hfr⟩ trivial hh hr
    · next hpc =>
      obtain rfl := Option.some.inj hs
      obtain ⟨ho, hh, hr⟩ := hown _ hpc trivial
      rw [hpc] at hok
      cases left <;> exact h.keep ho ⟨hok, hle, hfr⟩ trivial hh hr
    · cases hs
  | wake u =>
    have ⟨hok, hle, hfr⟩ := h.locals u
    unfold Monitor.step at hs
    dsimp only at hs
    split at hs
    · next hpc =>
      obtain rfl := Option.some.inj hs
      rw [hpc] at hok
      exact h.outside (by rw [Local.Owns, hpc]; exact not_false) ⟨hok, hle, hfr⟩ not_false
    · cases hs

end Inv

theorem inv_of_reachable [DecidableEq τ] {ids : ThreadIds τ} {s : State τ}
    (h : (machine ids).ReachableUnder Orderly s) : Inv ids s :=
  h.invariant (fun _ hs => by rw [show _ = State.new from hs]; exact Inv.new ids)
    fun _ _ _ hi hc hs => hi.step hc hs

end VmkitCore.Monitor
