import Mathlib.Tactic.Ring
import Mathlib.Data.Nat.Basic

/-! # Byte-addressed memory

A memory assigns a byte to every address. Numbers are stored little-endian in
a window of bytes, and a block copy reads the whole source window before it
writes, so overlapping windows are allowed.
-/

/-- A total memory of bytes. -/
abbrev ByteMemory := ℕ → UInt8

namespace ByteMemory

variable {m m' : ByteMemory} {a b n v x : ℕ}

/-- The number in the window of `n` bytes at `a`, lowest byte first. -/
def load (m : ByteMemory) : ℕ → ℕ → ℕ
  | _, 0 => 0
  | a, n + 1 => (m a).toNat + 256 * load m (a + 1) n

/-- Write the low `n` bytes of a number at `a`, lowest byte first. -/
def store (m : ByteMemory) (a n v : ℕ) : ByteMemory := fun x =>
  if a ≤ x ∧ x < a + n then UInt8.ofNat (v / 256 ^ (x - a)) else m x

/-- Copy `n` bytes from `src` to `dst`; the windows may overlap. -/
def copy (m : ByteMemory) (src dst n : ℕ) : ByteMemory := fun x =>
  if dst ≤ x ∧ x < dst + n then m (src + (x - dst)) else m x

/-- Write bytes from `a` on. -/
def write (m : ByteMemory) (a : ℕ) (l : List UInt8) : ByteMemory := fun x =>
  if a ≤ x then l[x - a]?.getD (m x) else m x

/-- The windows of `n` bytes at `a` and of `k` bytes at `b` share no byte. -/
def Disjoint (a n b k : ℕ) : Prop := a + n ≤ b ∨ b + k ≤ a

instance (a n b k : ℕ) : Decidable (Disjoint a n b k) := inferInstanceAs (Decidable (_ ∨ _))

theorem load_congr (h : ∀ i < n, m (a + i) = m' (b + i)) : m.load a n = m'.load b n := by
  induction n generalizing a b with
  | zero => rfl
  | succ n ih =>
    have h0 := h 0 (by omega)
    have hs : m.load (a + 1) n = m'.load (b + 1) n :=
      ih fun i hi => by simpa [Nat.add_assoc, Nat.add_comm 1 i] using h (i + 1) (by omega)
    simp only [Nat.add_zero] at h0
    simp [load, h0, hs]

theorem load_eq_zero (h : ∀ i < n, m (a + i) = 0) : m.load a n = 0 := by
  induction n generalizing a with
  | zero => rfl
  | succ n ih =>
    have hhead : m a = 0 := h 0 (Nat.succ_pos n)
    have htail : m.load (a + 1) n = 0 :=
      ih fun i hi => by simpa [Nat.add_assoc, Nat.add_comm 1 i] using h (i + 1) (by omega)
    rw [load, hhead, htail]
    rfl

theorem load_lt (m : ByteMemory) (a n : ℕ) : m.load a n < 256 ^ n := by
  induction n generalizing a with
  | zero => simp [load]
  | succ n ih =>
    have hb := (m a).toNat_lt
    have hr := ih (a + 1)
    simp only [load, pow_succ]
    omega

theorem store_apply_outside (h : Disjoint a n x 1) : m.store a n v x = m x := by
  unfold Disjoint at h
  exact if_neg (by omega)

theorem copy_apply_outside {src : ℕ} (h : Disjoint a n x 1) : m.copy src a n x = m x := by
  unfold Disjoint at h
  exact if_neg (by omega)

theorem copy_apply_inside {src i : ℕ} (h : i < n) : m.copy src a n (a + i) = m (src + i) := by
  simp [copy, h]

theorem copy_congr {src : ℕ} (hin : ∀ i < n, m (src + i) = m' (src + i))
    (hout : ∀ x, Disjoint a n x 1 → m x = m' x) : m.copy src a n = m'.copy src a n := by
  funext x
  by_cases hx : a ≤ x ∧ x < a + n
  · simp only [copy, hx, and_self, ↓reduceIte]
    exact hin _ (by omega)
  · simp only [copy, hx, ↓reduceIte]
    exact hout x (by unfold Disjoint; omega)

theorem store_congr (h : ∀ x, Disjoint a n x 1 → m x = m' x) :
    m.store a n v = m'.store a n v := by
  funext x
  by_cases hx : a ≤ x ∧ x < a + n
  · simp only [store, hx, and_self, ↓reduceIte]
  · simp only [store, hx, ↓reduceIte]
    exact h x (by unfold Disjoint; omega)

theorem write_apply_inside {l : List UInt8} {i : ℕ} (h : i < l.length) :
    m.write a l (a + i) = l[i] := by
  simp [write, h]

theorem write_apply_outside {l : List UInt8} (h : Disjoint a l.length x 1) :
    m.write a l x = m x := by
  unfold Disjoint at h
  rw [write]
  split
  · rw [List.getElem?_eq_none (by omega), Option.getD_none]
  · rfl

theorem load_store_same (m : ByteMemory) (a n v : ℕ) :
    (m.store a n v).load a n = v % 256 ^ n := by
  induction n generalizing m a v with
  | zero => simp [load, Nat.mod_one]
  | succ n ih =>
    have htail : (m.store a (n + 1) v).load (a + 1) n =
        (m.store (a + 1) n (v / 256)).load (a + 1) n := by
      refine load_congr fun i hi => ?_
      have hx : a + 1 + i - a = i + 1 := by omega
      have hy : a + 1 + i - (a + 1) = i := by omega
      simp only [store, hx, hy]
      rw [if_pos (by omega), if_pos (by omega), pow_succ', Nat.div_div_eq_div_mul]
    have hhead : (m.store a (n + 1) v a).toNat = v % 256 := by simp [store]
    rw [load, htail, ih, hhead, pow_succ']
    exact (Nat.mod_mul).symm

theorem load_store_of_lt (m : ByteMemory) (h : v < 256 ^ n) : (m.store a n v).load a n = v := by
  rw [load_store_same, Nat.mod_eq_of_lt h]

end ByteMemory
