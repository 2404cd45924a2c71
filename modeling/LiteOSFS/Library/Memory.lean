import Mathlib.Data.Nat.Bitwise
import Mathlib.Tactic.Ring

/-! # Flat byte memory

A memory is a total map from addresses to bytes. `copyIn` is `memcpy` into a
region, `window` is the private copy that `memcpy` out of a region produces, and
`leNat`/`leByte` are the little-endian reading and writing of a word.
-/
namespace LiteOSFS.Memory

abbrev Mem := ℕ → UInt8

/-- `memcpy(m + base, buf, len)`. -/
def copyIn (m : Mem) (base len : ℕ) (buf : Mem) : Mem :=
  fun a => if base ≤ a ∧ a < base + len then buf (a - base) else m a

/-- The `len` bytes at `base`, as a buffer of their own that is zero past its end. -/
def window (m : Mem) (base len : ℕ) : Mem := fun i => if i < len then m (base + i) else 0

/-- The buffer `len` bytes long that `calloc` returns, and `memset` to zero. -/
def zeros : Mem := fun _ => 0

/-- Pointer arithmetic on a source buffer. -/
def shift (buf : Mem) (n : ℕ) : Mem := fun i => buf (n + i)

theorem copyIn_inside {m buf : Mem} {base len a : ℕ} (h : base ≤ a) (ha : a < base + len) :
    copyIn m base len buf a = buf (a - base) := if_pos ⟨h,ha⟩

theorem copyIn_outside {m buf : Mem} {base len a : ℕ} (h : a < base ∨ base + len ≤ a) :
    copyIn m base len buf a = m a := if_neg (by omega)

theorem copyIn_comm {m b c : Mem} {x n y k : ℕ} (h : x + n ≤ y ∨ y + k ≤ x) :
    copyIn (copyIn m x n b) y k c = copyIn (copyIn m y k c) x n b := by
  funext a
  unfold copyIn
  split_ifs <;> first | rfl | omega

theorem copyIn_copyIn (m b c : Mem) (x n : ℕ) :
    copyIn (copyIn m x n b) x n c = copyIn m x n c := by
  funext a
  unfold copyIn
  split_ifs <;> rfl

theorem copyIn_congr {m b c : Mem} {x n : ℕ} (h : ∀ i < n, b i = c i) :
    copyIn m x n b = copyIn m x n c := by
  funext a
  unfold copyIn
  split_ifs with ha
  · exact h _ (by omega)
  · rfl

theorem copyIn_eq_self {m b : Mem} {x n : ℕ} (h : ∀ i < n, b i = m (x + i)) :
    copyIn m x n b = m := by
  funext a
  unfold copyIn
  split_ifs with ha
  · rw [h _ (by omega)]
    congr 1
    omega
  · rfl

@[simp] theorem window_apply_lt {m : Mem} {base len i : ℕ} (h : i < len) :
    window m base len i = m (base + i) := if_pos h

theorem window_copyIn_same (m buf : Mem) (base len : ℕ) :
    window (copyIn m base len buf) base len = window buf 0 len := by
  funext i
  unfold window
  split_ifs with hi
  · rw [copyIn_inside (by omega) (by omega), Nat.add_sub_cancel_left, Nat.zero_add]
  · rfl

theorem window_congr {m m' : Mem} {base len : ℕ}
    (h : ∀ a, base ≤ a → a < base + len → m a = m' a) : window m base len = window m' base len := by
  funext i
  unfold window
  split_ifs with hi
  · exact h _ (by omega) (by omega)
  · rfl

theorem window_copyIn_of_disjoint {m buf : Mem} {base len x n : ℕ}
    (h : x + n ≤ base ∨ base + len ≤ x) : window (copyIn m x n buf) base len = window m base len :=
  window_congr (fun a ha ha' => copyIn_outside (by omega))

@[simp] theorem window_window (m : Mem) (base len : ℕ) :
    window (window m base len) 0 len = window m base len := by
  funext i
  by_cases hi : i < len
  · simp [window, hi]
  · simp [window, hi]

/-- Little-endian value of the `n` bytes at `off`. -/
def leNat (b : Mem) (off : ℕ) : ℕ → ℕ
  | 0 => 0
  | n + 1 => (b off).toNat + 256 * leNat b (off + 1) n

/-- Byte `k` of the little-endian representation of `v`. -/
def leByte (v k : ℕ) : UInt8 := UInt8.ofNat (v / 256 ^ k)

theorem leNat_congr {b c : Mem} {off n : ℕ} (h : ∀ a, off ≤ a → a < off + n → b a = c a) :
    leNat b off n = leNat c off n := by
  induction n generalizing off with
  | zero => rfl
  | succ n ih =>
    rw [leNat, leNat, h off le_rfl (by omega), ih (fun a ha ha' => h a (by omega) (by omega))]

theorem leNat_lt (b : Mem) (off n : ℕ) : leNat b off n < 256 ^ n := by
  induction n generalizing off with
  | zero => simp [leNat]
  | succ n ih =>
    have hb := (b off).toNat_lt
    have hi := ih (off + 1)
    rw [leNat, pow_succ]
    omega

/-- Writing a word and reading it back loses only what does not fit. -/
theorem leNat_of_leByte {b : Mem} {off n v : ℕ} (h : ∀ k < n, b (off + k) = leByte v k) :
    leNat b off n = v % 256 ^ n := by
  induction n generalizing off v with
  | zero => simp [leNat, Nat.mod_one]
  | succ n ih =>
    have h0 : b off = leByte v 0 := by simpa using h 0 (by omega)
    have hr : leNat b (off + 1) n = (v / 256) % 256 ^ n := by
      apply ih
      intro k hk
      have hs := h (k + 1) (by omega)
      rw [show off + 1 + k = off + (k + 1) by omega, hs, leByte, leByte, Nat.div_div_eq_div_mul,
        pow_succ, mul_comm]
    have hb : (leByte v 0).toNat = v % 256 := by simp [leByte]
    rw [leNat, hr, h0, hb, pow_succ, mul_comm (256 ^ n), Nat.mod_mul]

theorem leNat_zero {b : Mem} {off n : ℕ} (h : ∀ k < n, b (off + k) = 0) : leNat b off n = 0 := by
  have hl := leNat_of_leByte (v := 0) (fun k hk => (h k hk).trans (by simp [leByte]))
  rwa [Nat.zero_mod] at hl

theorem leByte_leNat {b : Mem} {off n k : ℕ} (hk : k < n) : leByte (leNat b off n) k = b (off + k) := by
  induction n generalizing off k with
  | zero => omega
  | succ n ih =>
    have hb := (b off).toNat_lt
    cases k with
    | zero =>
      apply UInt8.toNat_inj.mp
      rw [leByte, leNat, pow_zero, Nat.div_one, UInt8.toNat_ofNat']
      simp only [Nat.add_zero]
      omega
    | succ k =>
      have hd : leNat b off (n + 1) / 256 = leNat b (off + 1) n := by rw [leNat]; omega
      rw [leByte, pow_succ, mul_comm, ← Nat.div_div_eq_div_mul, hd]
      have hs : leByte (leNat b (off + 1) n) k = b (off + 1 + k) := ih (by omega)
      rw [leByte] at hs
      rw [hs]
      congr 1
      omega

end LiteOSFS.Memory
