import VmkitCore.Lib.Store
import VmkitCore.Mm.ConservativeRoots

/-! # Static roots

Spans of static memory are scanned conservatively: the writable segments of all libraries, and the
spans that the program has registered. Both are sets, which are iterated over in any order.
-/

namespace VmkitCore

namespace Roots

open ConservativeRoots

structure ElfPhdr where
  pType : ℕ
  pFlags : ℕ
  pVaddr : ℕ
  pMemsz : ℕ

/-- What the dynamic linker says of a library, and how many bytes of it there are. -/
structure DlPhdrInfo where
  size : ℕ
  dlpiAddr : ℕ
  dlpiPhdr : List ElfPhdr

def ptLoad : ℕ := 1

def pfW : ℕ := 2

/-- The bytes up to the end of `dlpi_phnum`. -/
def dlpiPhnumEnd : ℕ := 26

section Source

/-- The first loop; the second one has no effect. -/
def registerSegments (info : DlPhdrInfo) (set : Finset (ℕ × ℕ)) : List ElfPhdr → Finset (ℕ × ℕ)
  | [] => set
  | p :: ps =>
    if p.pType = ptLoad then
      if p.pFlags &&& pfW = 0 then registerSegments info set ps
      else
        let start := (p.pVaddr + info.dlpiAddr) % 2 ^ 64
        let stop := (start + p.pMemsz) % 2 ^ 64
        registerSegments info (insert (start, stop) set) ps
    else registerSegments info set ps

/-- `dl_iterate_phdr` with `register_dynlib_callback`, which stops it by returning 1. -/
def iteratePhdr (set : Finset (ℕ × ℕ)) : List DlPhdrInfo → Finset (ℕ × ℕ)
  | [] => set
  | info :: infos =>
    if info.size < dlpiPhnumEnd then set
    else iteratePhdr (registerSegments info set info.dlpiPhdr) infos

def dynamicLibrariesSections (infos : List DlPhdrInfo) : Finset (ℕ × ℕ) := iteratePhdr ∅ infos

inductive Op
  | addRoots (low high : ℕ)
  | removeRoots (low high : ℕ)
  | clearRoots
  deriving DecidableEq, Repr

def step (roots : Finset (ℕ × ℕ)) : Op → Finset (ℕ × ℕ)
  | .addRoots low high => insert (low, high) roots
  | .removeRoots low high => roots.erase (low, high)
  | .clearRoots => ∅

/-- The roots after a run of calls. -/
def run (ops : List Op) : Finset (ℕ × ℕ) := ops.foldl step ∅

/-- `scan_vm_specific_roots`, where the two sets are iterated over in the orders of the lists. -/
def ScanVmSpecificRoots (conv : AddressConversions) (heap : RootHeap) (m : ByteMemory)
    (sections roots : List (ℕ × ℕ)) (croots : ConservativeRoots) : Prop :=
  AddSpans conv heap m (sections ++ roots) (new 256) croots

end Source

/-- The segment is loaded, and can be written to. -/
def Writable (info : DlPhdrInfo) (span : ℕ × ℕ) : Prop :=
  ∃ p ∈ info.dlpiPhdr, p.pType = ptLoad ∧ p.pFlags &&& pfW ≠ 0 ∧
    span.1 = (p.pVaddr + info.dlpiAddr) % 2 ^ 64 ∧ span.2 = (span.1 + p.pMemsz) % 2 ^ 64

/-- The span was added, and neither removed nor cleared since. -/
def Registered (ops : List Op) (span : ℕ × ℕ) : Prop :=
  Store.Last (· = .addRoots span.1 span.2)
    (fun op => op = .removeRoots span.1 span.2 ∨ op = .clearRoots) ops

variable {conv : AddressConversions} {heap : RootHeap} {m : ByteMemory} {ops : List Op}
  {span : ℕ × ℕ} {info : DlPhdrInfo} {infos : List DlPhdrInfo} {set : Finset (ℕ × ℕ)}
  {spans sections roots : List (ℕ × ℕ)} {croots s : ConservativeRoots}

theorem mem_registerSegments {ps : List ElfPhdr} : span ∈ registerSegments info set ps ↔
    span ∈ set ∨ ∃ p ∈ ps, p.pType = ptLoad ∧ p.pFlags &&& pfW ≠ 0 ∧
      span.1 = (p.pVaddr + info.dlpiAddr) % 2 ^ 64 ∧
      span.2 = (span.1 + p.pMemsz) % 2 ^ 64 := by
  induction ps generalizing set with
  | nil => simp [registerSegments]
  | cons p ps ih =>
    rw [registerSegments, List.exists_mem_cons_iff]
    by_cases htype : p.pType = ptLoad
    · by_cases hflags : p.pFlags &&& pfW = 0
      · rw [if_pos htype, if_pos hflags, ih]
        simp [hflags]
      · rw [if_pos htype, if_neg hflags, ih, Finset.mem_insert, Prod.ext_iff]
        dsimp only
        constructor
        · rintro ((⟨hstart, hstop⟩ | hset) | hps)
          · exact .inr (.inl ⟨htype, hflags, hstart, by rw [hstart]; exact hstop⟩)
          · exact .inl hset
          · exact .inr (.inr hps)
        · rintro (hset | ⟨-, -, hstart, hstop⟩ | hps)
          · exact .inl (.inr hset)
          · exact .inl (.inl ⟨hstart, by rw [← hstart]; exact hstop⟩)
          · exact .inr hps
    · rw [if_neg htype, ih]
      simp [htype]

/-- The sections are the writable segments of the libraries, if these are all described. -/
theorem mem_dynamicLibrariesSections (h : ∀ info ∈ infos, dlpiPhnumEnd ≤ info.size) :
    span ∈ dynamicLibrariesSections infos ↔ ∃ info ∈ infos, Writable info span := by
  have hiterate : ∀ set, span ∈ iteratePhdr set infos ↔
      span ∈ set ∨ ∃ info ∈ infos, Writable info span := by
    induction infos with
    | nil => simp [iteratePhdr]
    | cons info infos ih =>
      obtain ⟨hinfo, hinfos⟩ := List.forall_mem_cons.mp h
      intro set
      rw [iteratePhdr, if_neg (Nat.not_lt.mpr hinfo), ih hinfos, mem_registerSegments,
        List.exists_mem_cons_iff, or_assoc]
      rfl
  exact (hiterate ∅).trans (or_iff_right (Finset.notMem_empty span))

/-- The registered spans are those that were added last. -/
theorem mem_run : span ∈ run ops ↔ Registered ops span := by
  have hstep : ∀ (set : Finset (ℕ × ℕ)) op, span ∈ step set op ↔
      op = .addRoots span.1 span.2 ∨
        span ∈ set ∧ ¬ (op = .removeRoots span.1 span.2 ∨ op = .clearRoots) := by
    intro set op
    cases op with
    | addRoots low high => simp [step, Prod.ext_iff, eq_comm]
    | removeRoots low high => simp [step, Prod.ext_iff, eq_comm, and_comm]
    | clearRoots => simp [step]
  refine (Store.foldl_iff_last (P := fun set => span ∈ set) hstep).trans ?_
  exact or_iff_left fun h => absurd h.1 (Finset.notMem_empty span)

/-- A span with a null end lets no scan return. -/
theorem ne_zero_of_addSpans (h : AddSpans conv heap m spans s croots) (hspan : span ∈ spans) :
    span.1 ≠ 0 ∧ span.2 ≠ 0 := by
  induction spans generalizing s with
  | nil => exact absurd hspan List.not_mem_nil
  | cons other spans ih =>
    obtain ⟨u, ⟨hstart, hstop, -⟩, hrest⟩ := h
    rcases List.mem_cons.mp hspan with rfl | hspan
    · exact ⟨hstart, hstop⟩
    · exact ih hrest hspan

/-- A span of the static roots of a program. -/
def IsRoot (infos : List DlPhdrInfo) (ops : List Op) (span : ℕ × ℕ) : Prop :=
  (∃ info ∈ infos, Writable info span) ∨ Registered ops span

/--
After any calls, and however the sets are iterated over, a scan pins what it finds at the words of
the writable segments and of the spans that were added last. It panics if one of them has a null
end, which nothing checks before.
-/
theorem scanned_iff (conv : AddressConversions) (heap : RootHeap) (m : ByteMemory)
    (hinfos : ∀ info ∈ infos, dlpiPhnumEnd ≤ info.size)
    (hsections : ∀ span, span ∈ sections ↔ span ∈ dynamicLibrariesSections infos)
    (hroots : ∀ span, span ∈ roots ↔ span ∈ run ops) :
    ((∀ span, IsRoot infos ops span → Valid span) →
      ∃ t, (∀ u, ScanVmSpecificRoots conv heap m sections roots u ↔ u = t) ∧
        ∀ r, r ∈ t.roots ↔ ∃ span, IsRoot infos ops span ∧ InSpan conv heap m 256 span r) ∧
    ∀ span, IsRoot infos ops span → span.1 = 0 ∨ span.2 = 0 →
      ∀ u, ¬ ScanVmSpecificRoots conv heap m sections roots u := by
  have hmem : ∀ span, span ∈ sections ++ roots ↔ IsRoot infos ops span := by
    intro span
    rw [List.mem_append, hsections, hroots, mem_dynamicLibrariesSections hinfos, mem_run]
    rfl
  constructor
  · intro hvalid
    have hspans : ∀ span ∈ sections ++ roots, Valid span :=
      fun span h => hvalid span ((hmem span).mp h)
    refine ⟨_, fun u => addSpans_iff hspans, fun r => ?_⟩
    rw [mem_addWords]
    simp only [new, Finset.notMem_empty, false_or, List.mem_flatMap]
    constructor
    · rintro ⟨x, ⟨span, hspan, hx⟩, hfinds⟩
      obtain ⟨hdvd, hle, hlt⟩ := (mem_spanWords (hspans span hspan)).mp hx
      exact ⟨span, (hmem span).mp hspan, x, hdvd, hle, hlt, hfinds⟩
    · rintro ⟨span, hroot, x, hdvd, hle, hlt, hfinds⟩
      have hspan := (hmem span).mpr hroot
      exact ⟨x, ⟨span, hspan, (mem_spanWords (hspans span hspan)).mpr ⟨hdvd, hle, hlt⟩⟩, hfinds⟩
  · intro span hroot hnull u hscan
    obtain ⟨hstart, hstop⟩ := ne_zero_of_addSpans hscan ((hmem span).mpr hroot)
    exact hnull.elim hstart hstop

/-- A span is added twice and removed once, between other calls. -/
theorem scanned_iff_pointee : ∃ t,
    ScanVmSpecificRoots .byDivision pointeeHeap (ByteMemory.store (fun _ => 0) 4096 8 8192) []
      [(4096, 4104)] t ∧ pointee ∈ t.roots := by
  have hroots : ∀ span, span ∈ [(4096, 4104)] ↔ span ∈ run [.addRoots 4096 4104,
      .removeRoots 4096 4104, .addRoots 0 8, .clearRoots, .addRoots 4096 4104] := by
    intro span
    simp [run, step]
  have hroot : ∀ span, IsRoot [] [.addRoots 4096 4104, .removeRoots 4096 4104, .addRoots 0 8,
      .clearRoots, .addRoots 4096 4104] span ↔ span = (4096, 4104) := by
    intro span
    rw [IsRoot, ← mem_run, ← hroots, List.mem_singleton]
    simp
  have hsections : ∀ span, span ∈ [] ↔ span ∈ dynamicLibrariesSections [] := by
    simp [dynamicLibrariesSections, iteratePhdr]
  have hvalid : ∀ span, IsRoot [] [.addRoots 4096 4104, .removeRoots 4096 4104, .addRoots 0 8,
      .clearRoots, .addRoots 4096 4104] span → Valid span := by
    intro span h
    rw [(hroot span).mp h]
    exact ⟨by decide, by decide⟩
  obtain ⟨t, ht, hpinned⟩ := (scanned_iff .byDivision pointeeHeap
    (ByteMemory.store (fun _ => 0) 4096 8 8192) (by simp) hsections hroots).1 hvalid
  exact ⟨t, (ht t).mpr rfl, (hpinned _).mpr ⟨(4096, 4104), (hroot _).mpr rfl, 4096, by decide⟩⟩

end Roots

end VmkitCore
