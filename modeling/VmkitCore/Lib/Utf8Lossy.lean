import Mathlib.Data.List.Basic

/-! # Lossy decoding of UTF-8

Text is decoded character by character. What is not the start of a well-formed character is
replaced up to the first byte that shows it, and the text goes on from there.
-/

namespace Utf8

/-- The byte at a place, or zero after the end. -/
def safeGet (s : List UInt8) (i : ℕ) : UInt8 := s[i]?.getD 0

def isContinuation (b : UInt8) : Bool := b &&& 192 = 128

/-- The length that the first byte of a character announces. -/
def charWidth (b : UInt8) : ℕ :=
  if b < 0x80 then 1
  else if 0xC2 ≤ b && b ≤ 0xDF then 2
  else if 0xE0 ≤ b && b ≤ 0xEF then 3
  else if 0xF0 ≤ b && b ≤ 0xF4 then 4
  else 0

def within (lo hi b : UInt8) : Bool := lo ≤ b && b ≤ hi

/-- The second byte after a first byte that announces three or four. -/
def secondOk (b c : UInt8) : Bool :=
  b = 0xE0 && within 0xA0 0xBF c || within 0xE1 0xEC b && within 0x80 0xBF c ||
    b = 0xED && within 0x80 0x9F c || within 0xEE 0xEF b && within 0x80 0xBF c ||
    b = 0xF0 && within 0x90 0xBF c || within 0xF1 0xF3 b && within 0x80 0xBF c ||
    b = 0xF4 && within 0x80 0x8F c

/-- Whether a character starts here, and how many bytes after the first one belong to it. -/
def scan (b : UInt8) (rest : List UInt8) : Bool × ℕ :=
  match charWidth b with
  | 1 => (true, 0)
  | 2 => if isContinuation (safeGet rest 0) then (true, 1) else (false, 0)
  | 3 =>
    if !secondOk b (safeGet rest 0) then (false, 0)
    else if isContinuation (safeGet rest 1) then (true, 2) else (false, 1)
  | 4 =>
    if !secondOk b (safeGet rest 0) then (false, 0)
    else if !isContinuation (safeGet rest 1) then (false, 1)
    else if isContinuation (safeGet rest 2) then (true, 3) else (false, 2)
  | _ => (false, 0)

/-- The replacement character. -/
def replacement : List UInt8 := [0xEF, 0xBF, 0xBD]

def lossy : List UInt8 → List UInt8
  | [] => []
  | b :: rest =>
    (if (scan b rest).1 then b :: rest.take (scan b rest).2 else replacement) ++
      lossy (rest.drop (scan b rest).2)
  termination_by s => s.length
  decreasing_by simp only [List.length_drop, List.length_cons]; omega

def valid : List UInt8 → Bool
  | [] => true
  | b :: rest => (scan b rest).1 && valid (rest.drop (scan b rest).2)
  termination_by s => s.length
  decreasing_by simp only [List.length_drop, List.length_cons]; omega

variable {b : UInt8} {rest s : List UInt8}

@[simp] theorem lossy_nil : lossy [] = [] := by rw [lossy]

@[simp] theorem valid_nil : valid [] = true := by rw [valid]

theorem lossy_cons_of_scan (h : (scan b rest).1 = true) : lossy (b :: rest) =
    b :: (rest.take (scan b rest).2 ++ lossy (rest.drop (scan b rest).2)) := by
  rw [lossy, if_pos h, List.cons_append]

theorem lossy_cons_of_not_scan (h : (scan b rest).1 = false) :
    lossy (b :: rest) = replacement ++ lossy (rest.drop (scan b rest).2) := by
  rw [lossy, if_neg (by simp [h])]

/-- At most three bytes are replaced, and three only if four were announced. -/
theorem scan_invalid (h : (scan b rest).1 = false) :
    (scan b rest).2 ≤ 1 ∨ (scan b rest).2 = 2 ∧ b ≠ 0xEF := by
  unfold scan at h ⊢
  split at h
  · cases h
  · split_ifs <;> exact .inl (by decide)
  · split_ifs at h ⊢
    · exact .inl (by decide)
    · exact .inl (by decide)
  · next hw =>
    split_ifs at h ⊢
    · exact .inl (by decide)
    · exact .inl (by decide)
    · refine .inr ⟨rfl, ?_⟩
      rintro rfl
      exact absurd hw (by decide)
  · exact .inl (by decide)

/-- Replacing does not make the text shorter. -/
theorem length_le_length_lossy (s : List UInt8) : s.length ≤ (lossy s).length := by
  induction s using lossy.induct with
  | case1 => exact Nat.zero_le _
  | case2 b rest ih =>
    rw [List.length_drop] at ih
    cases h : (scan b rest).1 with
    | true =>
      rw [lossy_cons_of_scan h, List.length_cons, List.length_cons, List.length_append,
        List.length_take]
      omega
    | false =>
      have hle := scan_invalid h
      rw [lossy_cons_of_not_scan h, List.length_append, List.length_cons]
      change _ ≤ 3 + _
      omega

theorem ne_zero_of_mem_lossy (hs : ∀ x ∈ s, x ≠ 0) {y : UInt8} (hy : y ∈ lossy s) : y ≠ 0 := by
  induction s using lossy.induct with
  | case1 => rw [lossy_nil] at hy; cases hy
  | case2 b rest ih =>
    obtain ⟨hb, hrest⟩ := List.forall_mem_cons.mp hs
    have hdrop := ih fun x hx => hrest x (List.mem_of_mem_drop hx)
    cases h : (scan b rest).1 with
    | true =>
      rw [lossy_cons_of_scan h, List.mem_cons, List.mem_append] at hy
      rcases hy with rfl | hy | hy
      · exact hb
      · exact hrest y (List.mem_of_mem_take hy)
      · exact hdrop hy
    | false =>
      rw [lossy_cons_of_not_scan h, List.mem_append] at hy
      rcases hy with hy | hy
      · have hne : ∀ x ∈ replacement, x ≠ 0 := by simp [replacement]
        exact hne y hy
      · exact hdrop hy

/-- Decoding changes nothing exactly in text that is well formed. -/
theorem lossy_eq_self_iff (s : List UInt8) : lossy s = s ↔ valid s = true := by
  induction s using lossy.induct with
  | case1 => simp
  | case2 b rest ih =>
    rw [valid]
    cases h : (scan b rest).1 with
    | true =>
      rw [lossy_cons_of_scan h, Bool.true_and, ← ih, List.cons_inj_right]
      have hsplit := List.take_append_drop (scan b rest).2 rest
      constructor
      · exact fun heq => List.append_cancel_left (heq.trans hsplit.symm)
      · exact fun heq => by rw [heq, hsplit]
    | false =>
      refine iff_of_false (fun heq => ?_) (by simp)
      rw [lossy_cons_of_not_scan h] at heq
      have hlength := congrArg List.length heq
      have hle := length_le_length_lossy (rest.drop (scan b rest).2)
      rw [List.length_append, List.length_cons] at hlength
      rw [List.length_drop] at hle
      change 3 + _ = _ at hlength
      rcases scan_invalid h with hone | ⟨-, hb⟩
      · omega
      · exact hb (List.cons.inj heq).1.symm

end Utf8
