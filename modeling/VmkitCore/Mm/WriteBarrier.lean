import VmkitCore.Mm.SideMetadata
import VmkitCore.ObjectModel.Fields

/-! # The write barrier

A write of a reference stores it and then looks at the log bit of the object that was written to,
and only if the bit is set it calls the slow path of MMTk, which logs the object. Other threads
write, and log, in between.
-/

namespace VmkitCore

/-- What a write hands to the barrier. -/
structure ReferenceWrite (σ : Type) where
  src : VMKitObject
  slot : σ
  target : VMKitObject

/-- What the virtual machine chooses for slots. -/
structure Slots (σ : Type) where
  fromAddress : ℕ → σ
  store : ByteMemory → σ → VMKitObject → ByteMemory

/-- The functions that write a reference, with their arguments. -/
inductive BarrieredWrite (σ : Type)
  | setFieldObject (self : VMKitObject) (offset : ℤ) (value : FieldReference)
  | setFieldObjectTagged (self : VMKitObject) (offset : ℤ) (valueToSet : UInt64)
      (object : VMKitObject)
  | setFieldNarrow (self : VMKitObject) (offset : ℤ) (value : NarrowReference)
  | setFieldNarrowTagged (self : VMKitObject) (offset : ℤ) (valueToSet : UInt32)
      (object : VMKitNarrow)
  | objectReferenceWrite (src : VMKitObject) (slot : σ) (target : VMKitObject)

namespace BarrieredWrite

variable {σ : Type}

section Source

variable (slots : Slots σ)

/-- The offset is cast to a `usize`, and the addition wraps. -/
def slotAt (o : VMKitObject) (offset : ℤ) : σ := slots.fromAddress (o.fieldAddress offset)

variable (vm : VirtualMachine) (ops : CompressedOps) (m : ByteMemory)

/-- A write up to the barrier behind it; the one before it, `object_reference_write_pre`, does
nothing. -/
def store : BarrieredWrite σ → Option (ByteMemory × ReferenceWrite σ)
  | .setFieldObject self offset value => do
    let m ← self.setFieldObjectNoWriteBarrier vm m offset value
    some (m, ⟨self, slotAt slots self offset, value.val⟩)
  | .setFieldObjectTagged self offset valueToSet object => do
    let m ← self.setFieldUsize vm m offset valueToSet
    some (m, ⟨self, slotAt slots self offset, object⟩)
  | .setFieldNarrow self offset value => do
    let m ← self.setFieldNarrowNoWriteBarrier vm m offset value
    some (m, ⟨self, slotAt slots self offset, value.val.toObject ops⟩)
  | .setFieldNarrowTagged self offset valueToSet object => do
    let m ← self.setFieldU32 vm m offset valueToSet
    some (m, ⟨self, slotAt slots self offset, object.toObject ops⟩)
  | .objectReferenceWrite src slot target =>
    if target = .null then none else some (slots.store m slot target, ⟨src, slot, target⟩)

end Source

/-- The object that is written to. -/
def src : BarrieredWrite σ → VMKitObject
  | .setFieldObject self .. | .setFieldObjectTagged self .. | .setFieldNarrow self ..
  | .setFieldNarrowTagged self .. => self
  | .objectReferenceWrite src .. => src

variable {vm : VirtualMachine} {ops : CompressedOps} {slots : Slots σ} {m m' : ByteMemory}
  {w : BarrieredWrite σ} {r : ReferenceWrite σ}

theorem src_of_store (h : w.store slots vm ops m = some (m', r)) : r.src = w.src := by
  cases w with
  | objectReferenceWrite src slot target =>
    obtain ⟨-, h⟩ := Option.ite_none_left_eq_some.mp h
    cases h
    rfl
  | setFieldObject | setFieldObjectTagged | setFieldNarrow | setFieldNarrowTagged =>
    obtain ⟨_, -, h⟩ := Option.bind_eq_some_iff.mp h
    cases h
    rfl

end BarrieredWrite

/--
The slow path of MMTk: it logs an object unless that has been done, in one atomic step, and
returns whether it did.
-/
structure ObjectLog where
  logObject : (base : ℕ) → ByteMemory → VMKitObject → Bool × ByteMemory
  logObject_fst : ∀ {base m o}, (logObject base m o).1 = SideMetadata.sideBit base m o.address
  sideBit_logObject : ∀ {base m o a}, 8 ∣ o.address → 8 ∣ a →
    (SideMetadata.sideBit base (logObject base m o).2 a = true ↔
      SideMetadata.sideBit base m a = true ∧ a ≠ o.address)

/-- The slow path that clears the bit in its byte. -/
def ObjectLog.clearing : ObjectLog where
  logObject base m o :=
    (SideMetadata.sideBit base m o.address, m.clearBit
      (SideMetadata.position base o.address).1 (SideMetadata.position base o.address).2)
  logObject_fst := rfl
  sideBit_logObject {base m o a} ho ha := by
    have hne : a ≠ o.address ↔
        ¬ SideMetadata.position base a = SideMetadata.position base o.address :=
      not_congr (SideMetadata.position_inj ha ho).symm
    rw [hne, Prod.ext_iff]
    exact ByteMemory.bit_clearBit SideMetadata.position_lt SideMetadata.position_lt

namespace WriteBarrier

/-- How far a thread has come with a write. -/
inductive Phase (σ : Type)
  | idle
  | stored (write : ReferenceWrite σ)
  | slow (write : SlowWrite σ)

structure State (τ σ : Type) where
  memory : ByteMemory
  log : ByteMemory
  phase : τ → Phase σ
  /-- The objects that were logged since the last collection. -/
  remembered : List VMKitObject

/-- Steps of threads, and collections, which leave the memory and the log bits as they like. -/
inductive Op (τ σ : Type)
  | write (t : τ) (w : BarrieredWrite σ)
  | post (t : τ)
  | slow (t : τ)
  | collect (memory log : ByteMemory)

/-- What a barrier needs of the virtual machine, and where the log bits are. -/
structure Config (σ : Type) where
  vm : VirtualMachine
  ops : CompressedOps
  slots : Slots σ
  objectLog : ObjectLog
  barrier : BarrierSelector
  base : ℕ

variable {τ σ : Type} [DecidableEq τ]

def step (cfg : Config σ) (s : State τ σ) : Op τ σ → Option (State τ σ)
  | .write t w =>
    match s.phase t with
    | .idle => do
      let (memory, r) ← w.store cfg.slots cfg.vm cfg.ops s.memory
      some { s with memory, phase := Function.update s.phase t (.stored r) }
    | _ => none
  | .post t =>
    match s.phase t with
    | .stored r =>
      match SideMetadata.objectReferenceWritePost cfg.base s.log cfg.barrier r.src r.slot
        r.target with
      | some w => some { s with phase := Function.update s.phase t (.slow w) }
      | none => some { s with phase := Function.update s.phase t .idle }
    | _ => none
  | .slow t =>
    match s.phase t with
    | .slow w =>
      let (logged, log) := cfg.objectLog.logObject cfg.base s.log w.src
      some { s with
        log
        phase := Function.update s.phase t .idle
        remembered := if logged then s.remembered ++ [w.src] else s.remembered }
    | _ => none
  | .collect memory log => some ⟨memory, log, s.phase, []⟩

/-- What a thread writes to in the middle of a write. -/
def Phase.src : Phase σ → Option VMKitObject
  | .idle => none
  | .stored r => some r.src
  | .slow w => some w.src

/-- The object that a step writes to. -/
def Op.src : Op τ σ → Option VMKitObject
  | .write _ w => some w.src
  | _ => none

/-- Objects are aligned to the words that the log bits are for. -/
def Logs (base : ℕ) (o : VMKitObject) : Prop := 8 ∣ o.address ∧ base + o.address >>> 6 < 2 ^ 64

/-- The object has to be logged when it is written to. -/
def Armed (cfg : Config σ) (log : ByteMemory) (o : VMKitObject) : Prop :=
  cfg.barrier = .objectBarrier ∧ SideMetadata.sideBit cfg.base log o.address = true

/-- What the log bits were, and what has been written to since, determine the remembered set. -/
structure Remembers (cfg : Config σ) (log : ByteMemory) (written : List VMKitObject)
    (s : State τ σ) : Prop where
  nodup : s.remembered.Nodup
  logs : ∀ o ∈ written, Logs cfg.base o
  remembered : ∀ o ∈ s.remembered, o ∈ written ∧ Armed cfg log o
  bit : ∀ a, 8 ∣ a → (SideMetadata.sideBit cfg.base s.log a = true ↔
    SideMetadata.sideBit cfg.base log a = true ∧ ⟨a⟩ ∉ s.remembered)
  phase : ∀ t o, (s.phase t).src = some o → o ∈ written
  slow : ∀ t w, s.phase t = .slow w → Armed cfg log w.src
  covered : ∀ o ∈ written, Armed cfg log o →
    o ∈ s.remembered ∨ ∃ t, (s.phase t).src = some o

variable {cfg : Config σ} {log : ByteMemory} {written : List VMKitObject} {s s' : State τ σ}
  {op : Op τ σ} {l : List (Op τ σ)}

theorem src_of_objectReferenceWritePost {barrier : BarrierSelector} {base : ℕ} {m : ByteMemory}
    {r : ReferenceWrite σ} {w : SlowWrite σ}
    (h : SideMetadata.objectReferenceWritePost base m barrier r.src r.slot r.target = some w) :
    w.src = r.src := by
  cases barrier with
  | noBarrier => cases h
  | objectBarrier =>
    obtain ⟨-, h⟩ := Option.ite_none_right_eq_some.mp h
    cases h
    rfl

/-- A step of one thread leaves the others where they are. -/
theorem phase_update {α : Type} (f : Phase σ → α) {phase : τ → Phase σ} {t t' : τ} {p : Phase σ}
    {a : α} (h : f (Function.update phase t p t') = a) :
    t' = t ∧ f p = a ∨ t' ≠ t ∧ f (phase t') = a := by
  by_cases ht : t' = t
  · subst ht
    rw [Function.update_self] at h
    exact .inl ⟨rfl, h⟩
  · rw [Function.update_of_ne ht] at h
    exact .inr ⟨ht, h⟩

/-- If a step of a thread leaves the objects that it wrote to remembered, nothing is lost. -/
theorem Remembers.covered_update (h : Remembers cfg log written s) {t : τ} {p : Phase σ}
    {o : VMKitObject} {remembered : List VMKitObject} (ho : o ∈ written) (harmed : Armed cfg log o)
    (hkeep : ∀ o ∈ s.remembered, o ∈ remembered)
    (ht : (s.phase t).src = some o → o ∈ remembered ∨ p.src = some o) :
    o ∈ remembered ∨ ∃ t', (Function.update s.phase t p t').src = some o := by
  rcases h.covered o ho harmed with hmem | ⟨t', ht'⟩
  · exact .inl (hkeep o hmem)
  · by_cases heq : t' = t
    · subst heq
      rcases ht ht' with hmem | hp
      · exact .inl hmem
      · refine .inr ⟨t', ?_⟩
        rw [Function.update_self]
        exact hp
    · refine .inr ⟨t', ?_⟩
      rw [Function.update_of_ne heq]
      exact ht'

theorem Remembers.write (h : Remembers cfg log written s) {t : τ} {r : ReferenceWrite σ}
    (memory : ByteMemory) (hlogs : Logs cfg.base r.src) (hidle : s.phase t = .idle) :
    Remembers cfg log (written ++ [r.src])
      { s with memory, phase := Function.update s.phase t (.stored r) } where
  nodup := h.nodup
  logs o ho := by
    rcases List.mem_append.mp ho with ho | ho
    · exact h.logs o ho
    · obtain rfl := List.mem_singleton.mp ho
      exact hlogs
  remembered o ho := ⟨List.mem_append_left _ (h.remembered o ho).1, (h.remembered o ho).2⟩
  bit := h.bit
  phase t' o ho := by
    rcases phase_update Phase.src ho with ⟨-, hp⟩ | ⟨-, hold⟩
    · cases hp
      exact List.mem_append_right _ (List.mem_singleton_self _)
    · exact List.mem_append_left _ (h.phase t' o hold)
  slow t' w hw := by
    rcases phase_update id hw with ⟨-, hp⟩ | ⟨-, hold⟩
    · cases hp
    · exact h.slow t' w hold
  covered o ho harmed := by
    rcases List.mem_append.mp ho with ho | ho
    · apply h.covered_update ho harmed (fun _ => id)
      intro ht
      rw [hidle] at ht
      cases ht
    · obtain rfl := List.mem_singleton.mp ho
      refine .inr ⟨t, ?_⟩
      dsimp only
      rw [Function.update_self]
      rfl

/-- A thread that found the bit set goes on to the slow path. -/
theorem Remembers.slowPath (h : Remembers cfg log written s) {t : τ} {r : ReferenceWrite σ}
    {w : SlowWrite σ} (hstored : s.phase t = .stored r)
    (hpost : SideMetadata.objectReferenceWritePost cfg.base s.log cfg.barrier r.src r.slot
      r.target = some w) :
    Remembers cfg log written { s with phase := Function.update s.phase t (.slow w) } where
  nodup := h.nodup
  logs := h.logs
  remembered := h.remembered
  bit := h.bit
  phase t' o ho := by
    rcases phase_update Phase.src ho with ⟨-, hp⟩ | ⟨-, hold⟩
    · cases hp
      rw [src_of_objectReferenceWritePost hpost]
      exact h.phase t r.src (by rw [hstored]; rfl)
    · exact h.phase t' o hold
  slow t' w' hw := by
    rcases phase_update id hw with ⟨-, hp⟩ | ⟨-, hold⟩
    · cases hp
      obtain ⟨halign, hlt⟩ := h.logs r.src (h.phase t r.src (by rw [hstored]; rfl))
      obtain ⟨hbarrier, hbit⟩ := (SideMetadata.objectReferenceWritePost_isSome_iff hlt).mp
        (Option.isSome_of_eq_some hpost)
      rw [src_of_objectReferenceWritePost hpost]
      exact ⟨hbarrier, ((h.bit _ halign).mp hbit).1⟩
    · exact h.slow t' w' hold
  covered o ho harmed := by
    apply h.covered_update ho harmed (fun _ => id)
    intro ht
    rw [hstored] at ht
    exact .inr ((congrArg some (src_of_objectReferenceWritePost hpost)).trans ht)

/-- A thread that found the bit clear is done: somebody else has logged the object. -/
theorem Remembers.fastPath (h : Remembers cfg log written s) {t : τ} {r : ReferenceWrite σ}
    (hstored : s.phase t = .stored r)
    (hpost : SideMetadata.objectReferenceWritePost cfg.base s.log cfg.barrier r.src r.slot
      r.target = none) :
    Remembers cfg log written { s with phase := Function.update s.phase t .idle } where
  nodup := h.nodup
  logs := h.logs
  remembered := h.remembered
  bit := h.bit
  phase t' o ho := by
    rcases phase_update Phase.src ho with ⟨-, hp⟩ | ⟨-, hold⟩
    · cases hp
    · exact h.phase t' o hold
  slow t' w hw := by
    rcases phase_update id hw with ⟨-, hp⟩ | ⟨-, hold⟩
    · cases hp
    · exact h.slow t' w hold
  covered o ho harmed := by
    refine h.covered_update ho harmed (fun _ => id) fun ht => .inl ?_
    rw [hstored] at ht
    cases ht
    obtain ⟨halign, hlt⟩ := h.logs r.src ho
    by_contra hmem
    have hbit := (h.bit _ halign).mpr ⟨harmed.2, hmem⟩
    rw [← Option.not_isSome_iff_eq_none, SideMetadata.objectReferenceWritePost_isSome_iff hlt]
      at hpost
    exact hpost ⟨harmed.1, hbit⟩

/-- The slow path logs an object once. -/
theorem Remembers.logObject (h : Remembers cfg log written s) {t : τ} {w : SlowWrite σ}
    (hslow : s.phase t = .slow w) :
    Remembers cfg log written
      { s with
        log := (cfg.objectLog.logObject cfg.base s.log w.src).2
        phase := Function.update s.phase t .idle
        remembered := if (cfg.objectLog.logObject cfg.base s.log w.src).1 then
          s.remembered ++ [w.src] else s.remembered } := by
  have hwritten := h.phase t w.src (by rw [hslow]; rfl)
  have harmed := h.slow t w hslow
  have halign := (h.logs w.src hwritten).1
  have hbit : SideMetadata.sideBit cfg.base s.log w.src.address = true ↔
      w.src ∉ s.remembered := by
    rw [h.bit _ halign, and_iff_right harmed.2]
  -- whoever logged it, the object is remembered afterwards, and nothing else has changed
  have hmem : ∀ o, (o ∈ if (cfg.objectLog.logObject cfg.base s.log w.src).1 then
      s.remembered ++ [w.src] else s.remembered) ↔ o ∈ s.remembered ∨ o = w.src := by
    intro o
    rw [cfg.objectLog.logObject_fst]
    split
    · rw [List.mem_append, List.mem_singleton]
    · next hclear =>
      rw [hbit, not_not] at hclear
      refine ⟨.inl, ?_⟩
      rintro (ho | rfl)
      · exact ho
      · exact hclear
  constructor
  case nodup =>
    dsimp only
    rw [cfg.objectLog.logObject_fst]
    split
    · next hset =>
      rw [← List.concat_eq_append]
      exact h.nodup.concat (hbit.mp hset)
    · exact h.nodup
  case logs => exact h.logs
  case remembered =>
    intro o ho
    rcases (hmem o).mp ho with ho | rfl
    · exact h.remembered o ho
    · exact ⟨hwritten, harmed⟩
  case bit =>
    intro a ha
    rw [cfg.objectLog.sideBit_logObject halign ha, h.bit a ha, hmem, not_or, and_assoc]
    refine and_congr_right fun _ => and_congr_right fun _ => not_congr ⟨?_, ?_⟩
    · rintro rfl
      rfl
    · exact congrArg VMKitObject.address
  case phase =>
    intro t' o ho
    rcases phase_update Phase.src ho with ⟨-, hp⟩ | ⟨-, hold⟩
    · cases hp
    · exact h.phase t' o hold
  case slow =>
    intro t' w' hw
    rcases phase_update id hw with ⟨-, hp⟩ | ⟨-, hold⟩
    · cases hp
    · exact h.slow t' w' hold
  case covered =>
    intro o ho hoarmed
    refine h.covered_update ho hoarmed (fun o ho => (hmem o).mpr (.inl ho)) fun ht => .inl ?_
    rw [hslow] at ht
    cases ht
    exact (hmem _).mpr (.inr rfl)

theorem Remembers.step (h : Remembers cfg log written s)
    (hlogs : ∀ o, op.src = some o → Logs cfg.base o)
    (hcollect : ∀ memory log, op ≠ .collect memory log) (hstep : step cfg s op = some s') :
    Remembers cfg log (written ++ op.src.toList) s' := by
  cases op with
  | write t w =>
    rw [WriteBarrier.step] at hstep
    split at hstep
    case h_2 => cases hstep
    case h_1 hidle =>
      obtain ⟨⟨memory, r⟩, hstore, heq⟩ := Option.bind_eq_some_iff.mp hstep
      obtain rfl := Option.some.inj heq
      have hsrc := BarrieredWrite.src_of_store hstore
      have hr := h.write (r := r) memory (hsrc ▸ hlogs w.src rfl) hidle
      rw [hsrc] at hr
      exact hr
  | post t =>
    rw [WriteBarrier.step] at hstep
    have hsame : written ++ (Op.src (.post t : Op τ σ)).toList = written := List.append_nil _
    rw [hsame]
    split at hstep
    case h_2 => cases hstep
    case h_1 r hstored =>
      split at hstep
      · next w hpost =>
        obtain rfl := Option.some.inj hstep
        exact h.slowPath hstored hpost
      · next hpost =>
        obtain rfl := Option.some.inj hstep
        exact h.fastPath hstored hpost
  | slow t =>
    rw [WriteBarrier.step] at hstep
    have hsame : written ++ (Op.src (.slow t : Op τ σ)).toList = written := List.append_nil _
    rw [hsame]
    split at hstep
    case h_2 => cases hstep
    case h_1 w hslow =>
      obtain rfl := Option.some.inj hstep
      exact h.logObject hslow
  | collect memory log => exact absurd rfl (hcollect memory log)

/-- Runs of threads that write references, and of collections. -/
def machine (cfg : Config σ) : Machine (State τ σ) (Op τ σ) where
  init s := ∀ t, s.phase t = .idle
  step := step cfg

theorem Remembers.exec (h : Remembers cfg log written s)
    (hlogs : ∀ op ∈ l, ∀ o, op.src = some o → Logs cfg.base o)
    (hcollect : ∀ op ∈ l, ∀ memory log, op ≠ .collect memory log)
    (hexec : (machine cfg).exec s l = some s') :
    Remembers cfg log (written ++ l.filterMap Op.src) s' := by
  induction l generalizing s written with
  | nil =>
    cases hexec
    rw [List.filterMap_nil, List.append_nil]
    exact h
  | cons op l ih =>
    obtain ⟨hop, hl⟩ := List.forall_mem_cons.mp hlogs
    obtain ⟨hne, hnone⟩ := List.forall_mem_cons.mp hcollect
    obtain ⟨s₁, hs₁, hexec⟩ := Machine.exec_cons_eq_some.mp hexec
    have hrun := ih (h.step hop hne hs₁) hl hnone hexec
    rw [List.append_assoc] at hrun
    cases hsrc : op.src with
    | none =>
      rw [hsrc, Option.toList_none, List.nil_append] at hrun
      rw [List.filterMap_cons_none hsrc]
      exact hrun
    | some o =>
      rw [hsrc, Option.toList_some, List.singleton_append] at hrun
      rw [List.filterMap_cons_some hsrc]
      exact hrun

omit [DecidableEq τ] in
/-- A collection in between writes leaves nothing to remember. -/
theorem remembers_collect {memory : ByteMemory} (hidle : ∀ t, s.phase t = .idle) :
    Remembers cfg log [] (⟨memory, log, s.phase, []⟩ : State τ σ) where
  nodup := List.nodup_nil
  logs _ h := absurd h List.not_mem_nil
  remembered _ h := absurd h List.not_mem_nil
  bit a _ := by simp
  phase t o ho := by
    dsimp only at ho
    rw [hidle] at ho
    cases ho
  slow t w hw := by
    dsimp only at hw
    rw [hidle] at hw
    cases hw
  covered _ h := absurd h List.not_mem_nil

/--
However threads interleave stores, looks at log bits and slow paths, once all writes are done MMTk
remembers every object that had to be logged and was written to since the last collection, and
remembers it once.
-/
theorem remembered_iff_written {memory : ByteMemory} (hidle : ∀ t, s.phase t = .idle)
    (hlogs : ∀ op ∈ l, ∀ o, op.src = some o → Logs cfg.base o)
    (hcollect : ∀ op ∈ l, ∀ memory log, op ≠ .collect memory log)
    (hexec : (machine cfg).exec s (.collect memory log :: l) = some s')
    (hdone : ∀ t, s'.phase t = .idle) :
    s'.remembered.Nodup ∧ ∀ o, o ∈ s'.remembered ↔
      o ∈ l.filterMap Op.src ∧ Armed cfg log o := by
  obtain ⟨s₁, hs₁, hexec⟩ := Machine.exec_cons_eq_some.mp hexec
  obtain rfl := Option.some.inj hs₁
  have h := (remembers_collect hidle).exec hlogs hcollect hexec
  refine ⟨h.nodup, fun o => ⟨h.remembered o, fun ⟨ho, harmed⟩ => ?_⟩⟩
  rcases h.covered o ho harmed with hmem | ⟨t, ht⟩
  · exact hmem
  · rw [hdone] at ht
    cases ht

/-- A barrier whose slots are addresses. -/
def wordSlots : Config ℕ where
  vm := .fixedSize 16
  ops := CompressedOps.init false 3 ⟨2 ^ 32, 2 ^ 33, by decide, by decide, by decide, by decide,
    by decide⟩
  slots := ⟨id, fun m slot target => m.store slot 8 target.address⟩
  objectLog := .clearing
  barrier := .objectBarrier
  base := 65536

/-- Two threads see the log bit of one object before either of them has logged it. -/
theorem remembered_iff_written_both : ∃ s',
    (machine wordSlots).exec (⟨fun _ => 0, fun _ => 0, fun _ => .idle, []⟩ : State Bool ℕ)
      [.collect (fun _ => 0) (ByteMemory.setBit (fun _ => 0) 65600 1),
        .write true (.setFieldObject ⟨4104⟩ 0 ⟨⟨8200⟩, by decide⟩),
        .write false (.objectReferenceWrite ⟨4104⟩ 4112 ⟨8200⟩),
        .post true, .post false, .slow false, .slow true] = some s' ∧
    s'.remembered.Nodup ∧ ⟨4104⟩ ∈ s'.remembered := by
  obtain ⟨s', hexec, hdone⟩ : ∃ s', (machine wordSlots).exec
      (⟨fun _ => 0, fun _ => 0, fun _ => .idle, []⟩ : State Bool ℕ)
      [.collect (fun _ => 0) (ByteMemory.setBit (fun _ => 0) 65600 1),
        .write true (.setFieldObject ⟨4104⟩ 0 ⟨⟨8200⟩, by decide⟩),
        .write false (.objectReferenceWrite ⟨4104⟩ 4112 ⟨8200⟩),
        .post true, .post false, .slow false, .slow true] = some s' ∧
      ∀ t, s'.phase t = .idle := by
    refine ⟨_, rfl, fun t => ?_⟩
    cases t <;> rfl
  obtain ⟨hnodup, hiff⟩ := remembered_iff_written (fun _ => rfl)
    (by simp [Op.src, BarrieredWrite.src, Logs, wordSlots]) (by simp) hexec hdone
  exact ⟨s', hexec, hnodup, (hiff _).mpr ⟨List.mem_cons_self, rfl, by decide⟩⟩

end WriteBarrier

end VmkitCore
