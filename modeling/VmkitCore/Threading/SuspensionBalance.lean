import VmkitCore.Threading.SuspensionInvariant

/-! # Balanced suspensions

As long as the threads that are resumed are the ones that have been suspended,
every thread is counted as suspended exactly while its handler keeps it stopped.
-/

namespace VmkitCore.Suspension

variable {τ : Type*} [DecidableEq τ] {cfg : Config τ} {s : State τ} {t : τ}

namespace Inv

omit [DecidableEq τ] in
theorem count (h : Inv cfg s) (t : τ) :
    (s.threads t).suspends = (s.threads t).resumes + (s.threads t).suspendCount := by
  have hfree : ∀ {c : Thread τ}, c.Free → c.suspends = c.resumes + c.suspendCount := fun hc => by
    rw [hc.balance, hc.suspendCount, Nat.add_zero]
  have hstopped : ∀ {n} {c : Thread τ}, c.Stopped n → c.suspends = c.resumes + c.suspendCount :=
    fun hc => by rw [hc.balance, hc.suspendCount]
  by_cases hcur : s.collector.current = some t
  · have hok := h.current
    rcases CollectorPc.of_current hcur with ⟨pc, todo, hs, hpc⟩ | ⟨pc, todo, hpc⟩
    · rw [hpc] at hok
      cases pc with
      | load | handle | target | kill => exact hfree hok.1
      | wait => rw [hok.1.balance, hok.1.suspendCount, Nat.add_zero]
      | test => exact hok.2.2.elim (fun hc => hfree hc.1) fun hc => hstopped hc.1
      | add => exact hstopped hok.1
    · rw [hpc] at hok
      cases pc with
      | load | target | kill => exact hstopped hok.1
      | wait => rw [hok.1.balance, hok.1.suspendCount]
      | sub => rw [hok.2.1, hok.1]
  · by_cases hs : s.collector.Suspended cfg t
    · exact hstopped (h.stopped t hcur hs)
    · exact hfree (h.free t hcur hs)

omit [DecidableEq τ] in
theorem parked (h : Inv cfg s) (hcount : (s.threads t).suspendCount ≠ 0) :
    (s.threads t).handler = .parked ∨ ∃ pc todo, s.collector = .resuming pc t todo := by
  by_cases hcur : s.collector.current = some t
  · have hok := h.current
    rcases CollectorPc.of_current hcur with ⟨pc, todo, hs, hpc⟩ | hresuming
    · rw [hpc] at hok
      cases pc with
      | load | handle | target | kill => exact absurd hok.1.suspendCount hcount
      | wait => exact absurd hok.1.suspendCount hcount
      | test =>
        exact absurd (hok.2.2.elim (fun hc => hc.1.suspendCount) fun hc => hc.1.suspendCount) hcount
      | add => exact absurd hok.1.suspendCount hcount
    · exact .inr hresuming
  · by_cases hs : s.collector.Suspended cfg t
    · exact .inl (h.stopped t hcur hs).handler
    · exact absurd (h.free t hcur hs).suspendCount hcount

end Inv

/-- All threads are mutators. -/
def Config.mutators : Config Unit := ⟨fun _ => false, fun _ => false⟩

/-- One mutator is suspended, from an alternative signal stack at first. -/
def suspendRun : List (Label Unit) :=
  [.register (), .establish ()] ++ List.replicate 7 .collector ++
    [.deliver (), .handler () 0, .handler () 0, .handler () 0] ++ List.replicate 3 .collector ++
    [.deliver (), .handler () 0, .handler () 64, .handler () 0] ++ List.replicate 4 .collector

end VmkitCore.Suspension
