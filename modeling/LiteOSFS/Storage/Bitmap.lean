import LiteOSFS.Library.Memory
import Mathlib.Data.List.Basic
import Mathlib.Tactic.IntervalCases

/-! # Bit maps laid over memory

`bitmap.c`: a bitmap is a bit count and the address of its bytes, so two bitmaps
may overlay the same memory and ordinary writes may hit one. Sizes are `ℕ`;
`sizeMax` is the `SIZE_MAX` that the searches return when they find nothing.
-/
namespace LiteOSFS
open Memory

def sizeMax : ℕ := 2 ^ 64 - 1

structure Bitmap where
  data : ℕ
  bitCount : ℕ

def Bitmap.leftoverBits (b : Bitmap) : ℕ := b.bitCount &&& 0x07

/-- `static const uint8_t mask[8]`. -/
def mask (i : ℕ) : UInt8 := [0x01,0x02,0x04,0x08,0x10,0x20,0x40,0x80].getD i 0

def maskDownInclusive (i : ℕ) : UInt8 := [0x01,0x03,0x07,0x0F,0x1F,0x3F,0x7F,0xFF].getD i 0

def invertMask (i : ℕ) : UInt8 := [0xFE,0xFD,0xFB,0xF7,0xEF,0xDF,0xBF,0x7F].getD i 0

def totalsB2 (n : ℕ) : List ℕ := [n,n + 1,n + 1,n + 2]
def totalsB4 (n : ℕ) : List ℕ := totalsB2 n ++ totalsB2 (n + 1) ++ totalsB2 (n + 1) ++ totalsB2 (n + 2)
def totalsB6 (n : ℕ) : List ℕ := totalsB4 n ++ totalsB4 (n + 1) ++ totalsB4 (n + 1) ++ totalsB4 (n + 2)

/-- `static const uint8_t bit_totals[256]`. -/
def bitTotals (v : UInt8) : ℕ :=
  (totalsB6 0 ++ totalsB6 1 ++ totalsB6 1 ++ totalsB6 2).getD v.toNat 0

def bitmapSet (m : Mem) (b : Bitmap) (bit : ℕ) : Mem := fun a =>
  if a = b.data + bit >>> 3 then m a ||| mask (bit &&& 0x07) else m a

def bitmapReset (m : Mem) (b : Bitmap) (bit : ℕ) : Mem := fun a =>
  if a = b.data + bit >>> 3 then m a &&& invertMask (bit &&& 0x07) else m a

def bitmapTest (m : Mem) (b : Bitmap) (bit : ℕ) : Bool :=
  m (b.data + bit >>> 3) &&& mask (bit &&& 0x07) != 0

/-- The loop of `bitmap_ffz`, with `fuel` iterations left before `bit_count`. -/
def ffzLoop (m : Mem) (b : Bitmap) : (fuel result : ℕ) → ℕ
  | 0, _ => sizeMax
  | fuel + 1, result => if bitmapTest m b result then ffzLoop m b fuel (result + 1) else result

def bitmapFfz (m : Mem) (b : Bitmap) : ℕ := ffzLoop m b b.bitCount 0

def bitmapTotalSet (m : Mem) (b : Bitmap) : ℕ :=
  let stop := b.bitCount >>> 3
  let total := ((List.range stop).map (fun idx => bitTotals (m (b.data + idx)))).sum
  if b.leftoverBits ≠ 0 then
    total + bitTotals (m (b.data + stop) &&& maskDownInclusive (b.leftoverBits - 1))
  else total

theorem mask_toNat {i : ℕ} (h : i < 8) : (mask i).toNat = 2 ^ i := by interval_cases i <;> rfl

/-- A property of bytes is checked on the 256 of them. -/
private theorem byte_forall {P : UInt8 → Prop} (h : ∀ n : Fin 256, P (UInt8.ofNat n)) (v : UInt8) : P v := by
  simpa using h ⟨v.toNat,v.toNat_lt⟩

private theorem test_byte : ∀ (v : UInt8) (i : Fin 8), (v &&& mask i != 0) = v.toNat.testBit i :=
  byte_forall (by decide +kernel)

private theorem invertMask_bit : ∀ i j : Fin 8, (invertMask i).toNat.testBit j = !decide (i = j) := by
  decide

private theorem reset_byte (v : UInt8) (i j : Fin 8) :
    (v &&& invertMask i).toNat.testBit j = (!decide (i = j) && v.toNat.testBit j) := by
  rw [UInt8.toNat_and, Nat.testBit_and, invertMask_bit, Bool.and_comm]

private theorem total_byte : ∀ v : UInt8, bitTotals v = (List.range 8).countP (v.toNat.testBit ·) :=
  byte_forall (by decide +kernel)

private theorem total_leftover : ∀ (v : UInt8) (r : Fin 8), r.val ≠ 0 →
    bitTotals (v &&& maskDownInclusive (r.val - 1)) = (List.range r.val).countP (v.toNat.testBit ·) :=
  byte_forall (by decide +kernel)

theorem bit_byte (bit : ℕ) : bit >>> 3 = bit / 8 := by simp [Nat.shiftRight_eq_div_pow]
theorem bit_index (bit : ℕ) : bit &&& 0x07 = bit % 8 := Nat.and_two_pow_sub_one_eq_mod bit 3

theorem bitmapTest_eq (m : Mem) (b : Bitmap) (bit : ℕ) :
    bitmapTest m b bit = (m (b.data + bit / 8)).toNat.testBit (bit % 8) := by
  rw [bitmapTest, bit_byte, bit_index]
  exact test_byte _ ⟨bit % 8,by omega⟩

/-- A bit is read from its own byte only. -/
theorem bitmapTest_congr {m m' : Mem} {b : Bitmap} {bit : ℕ}
    (h : m (b.data + bit / 8) = m' (b.data + bit / 8)) : bitmapTest m b bit = bitmapTest m' b bit := by
  rw [bitmapTest_eq, bitmapTest_eq, h]

theorem bitmapSet_other {m : Mem} {b : Bitmap} {bit a : ℕ} (h : a ≠ b.data + bit / 8) :
    bitmapSet m b bit a = m a := by rw [bitmapSet, bit_byte, if_neg h]

theorem bitmapReset_other {m : Mem} {b : Bitmap} {bit a : ℕ} (h : a ≠ b.data + bit / 8) :
    bitmapReset m b bit a = m a := by rw [bitmapReset, bit_byte, if_neg h]

theorem bitmapTest_bitmapSet (m : Mem) (b : Bitmap) (i j : ℕ) :
    bitmapTest (bitmapSet m b i) b j = (decide (i = j) || bitmapTest m b j) := by
  rw [bitmapTest_eq, bitmapTest_eq, bitmapSet, bit_byte, bit_index]
  by_cases hb : j / 8 = i / 8
  · rw [if_pos (by rw [hb]), UInt8.toNat_or, Nat.testBit_or, mask_toNat (Nat.mod_lt _ (by omega)),
      Nat.testBit_two_pow, Bool.or_comm]
    congr 1
    exact decide_eq_decide.mpr (by omega)
  · rw [if_neg (by omega), decide_eq_false (by rintro rfl; exact hb rfl), Bool.false_or]

theorem bitmapTest_bitmapReset (m : Mem) (b : Bitmap) (i j : ℕ) :
    bitmapTest (bitmapReset m b i) b j = (!decide (i = j) && bitmapTest m b j) := by
  rw [bitmapTest_eq, bitmapTest_eq, bitmapReset, bit_byte, bit_index]
  by_cases hb : j / 8 = i / 8
  · rw [if_pos (by rw [hb]), reset_byte _ ⟨i % 8,by omega⟩ ⟨j % 8,by omega⟩]
    congr 2
    exact decide_eq_decide.mpr (by rw [Fin.mk.injEq]; omega)
  · rw [if_neg (by omega), decide_eq_false (by rintro rfl; exact hb rfl), Bool.not_false, Bool.true_and]

theorem ffzLoop_spec (m : Mem) (b : Bitmap) (fuel result : ℕ) :
    (ffzLoop m b fuel result = sizeMax ∧ ∀ i, result ≤ i → i < result + fuel → bitmapTest m b i = true) ∨
    (result ≤ ffzLoop m b fuel result ∧ ffzLoop m b fuel result < result + fuel ∧
      bitmapTest m b (ffzLoop m b fuel result) = false ∧
      ∀ i, result ≤ i → i < ffzLoop m b fuel result → bitmapTest m b i = true) := by
  induction fuel generalizing result with
  | zero => exact Or.inl ⟨rfl,by omega⟩
  | succ fuel ih =>
    unfold ffzLoop
    cases ht : bitmapTest m b result with
    | false =>
      rw [if_neg Bool.false_ne_true]
      exact Or.inr ⟨le_rfl,by omega,ht,by omega⟩
    | true =>
      rw [if_pos rfl]
      have hstep : ∀ i, result ≤ i → ¬ result + 1 ≤ i → bitmapTest m b i = true := by
        intro i hi hn
        rw [show i = result by omega, ht]
      rcases ih (result + 1) with ⟨he,hall⟩ | ⟨hle,hlt,hf,hall⟩
      · refine Or.inl ⟨he,fun i hi hlt => ?_⟩
        by_cases hn : result + 1 ≤ i
        · exact hall i hn (by omega)
        · exact hstep i hi hn
      · refine Or.inr ⟨by omega,by omega,hf,fun i hi hlt' => ?_⟩
        by_cases hn : result + 1 ≤ i
        · exact hall i hn hlt'
        · exact hstep i hi hn

/-- `bitmap_ffz` finds the least clear bit, and `SIZE_MAX` means that every bit is set. -/
theorem bitmapFfz_spec (m : Mem) (b : Bitmap) :
    (bitmapFfz m b = sizeMax ∧ ∀ i < b.bitCount, bitmapTest m b i = true) ∨
    (bitmapFfz m b < b.bitCount ∧ bitmapTest m b (bitmapFfz m b) = false ∧
      ∀ i < bitmapFfz m b, bitmapTest m b i = true) := by
  rcases ffzLoop_spec m b b.bitCount 0 with ⟨he,hall⟩ | ⟨_,hlt,hf,hall⟩
  · exact Or.inl ⟨he,fun i hi => hall i (Nat.zero_le i) (by omega)⟩
  · exact Or.inr ⟨by unfold bitmapFfz; omega,hf,fun i hi => hall i (Nat.zero_le i) hi⟩

theorem ffzLoop_congr {m m' : Mem} {b : Bitmap} {fuel result : ℕ}
    (h : ∀ i < result + fuel, bitmapTest m b i = bitmapTest m' b i) :
    ffzLoop m b fuel result = ffzLoop m' b fuel result := by
  induction fuel generalizing result with
  | zero => rfl
  | succ fuel ih => rw [ffzLoop, ffzLoop, h result (by omega), ih (fun i hi => h i (by omega))]

theorem bitmapFfz_congr {m m' : Mem} {b : Bitmap} (h : ∀ i < b.bitCount, bitmapTest m b i = bitmapTest m' b i) :
    bitmapFfz m b = bitmapFfz m' b := ffzLoop_congr (fun i hi => h i (by omega))

private theorem countP_bytes (m : Mem) (b : Bitmap) (k r : ℕ) (hr : r ≤ 8) :
    (List.range (8 * k + r)).countP (bitmapTest m b ·) =
      ((List.range k).map (fun idx => bitTotals (m (b.data + idx)))).sum +
        (List.range r).countP ((m (b.data + k)).toNat.testBit ·) := by
  have htail : ∀ k r, r ≤ 8 → (List.range (8 * k + r)).countP (bitmapTest m b ·) =
      (List.range (8 * k)).countP (bitmapTest m b ·) +
        (List.range r).countP ((m (b.data + k)).toNat.testBit ·) := by
    intro k r hr
    rw [List.range_add, List.countP_append, List.countP_map]
    congr 1
    apply List.countP_congr
    intro i hi
    have hlt := List.mem_range.mp hi
    simp only [Function.comp_apply, bitmapTest_eq]
    rw [show (8 * k + i) / 8 = k by omega, show (8 * k + i) % 8 = i by omega]
  induction k generalizing r with
  | zero => simpa using htail 0 r hr
  | succ k ih =>
    rw [htail (k + 1) r hr, show 8 * (k + 1) = 8 * k + 8 by omega, ih 8 le_rfl, ← total_byte,
      @List.range_succ k, List.map_append, List.sum_append]
    simp

/-- `bitmap_total_set` counts the set bits below `bit_count`. -/
theorem bitmapTotalSet_eq (m : Mem) (b : Bitmap) :
    bitmapTotalSet m b = (List.range b.bitCount).countP (bitmapTest m b ·) := by
  have hsplit : b.bitCount = 8 * (b.bitCount / 8) + b.bitCount % 8 := by omega
  have h := countP_bytes m b (b.bitCount / 8) (b.bitCount % 8) (by omega)
  rw [← hsplit] at h
  rw [h, bitmapTotalSet, bit_byte, Bitmap.leftoverBits, bit_index]
  split_ifs with hz
  · rw [total_leftover _ ⟨b.bitCount % 8,by omega⟩ hz]
  · rw [not_not.mp hz]
    simp

theorem bitmapTotalSet_le (m : Mem) (b : Bitmap) : bitmapTotalSet m b ≤ b.bitCount := by
  rw [bitmapTotalSet_eq]
  exact List.countP_le_length.trans (List.length_range).le

theorem bitmapTotalSet_eq_zero {m : Mem} {b : Bitmap} :
    bitmapTotalSet m b = 0 ↔ ∀ i < b.bitCount, bitmapTest m b i = false := by
  rw [bitmapTotalSet_eq, List.countP_eq_zero]
  simp

theorem bitmapTotalSet_eq_full {m : Mem} {b : Bitmap} :
    bitmapTotalSet m b = b.bitCount ↔ ∀ i < b.bitCount, bitmapTest m b i = true := by
  rw [bitmapTotalSet_eq]
  constructor
  · intro h i hi
    exact List.countP_eq_length.mp (h.trans List.length_range.symm) i (List.mem_range.mpr hi)
  · intro h
    exact (List.countP_eq_length.mpr (fun i hi => h i (List.mem_range.mp hi))).trans List.length_range

end LiteOSFS
