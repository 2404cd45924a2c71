import LiteOSFS.Storage.Bitmap
import Mathlib.Logic.Function.Basic

/-! # Bit maps: flipping, whole bytes and visits

The rest of `bitmap.c`. `bitmap_invert` and `bitmap_format` go over all bytes, with the bits
of the last one that are behind the bit count.
-/
namespace LiteOSFS
open Memory

/-- `byte_count`, as `bitmap_initialize` computes it. -/
def Bitmap.byteCount (b : Bitmap) : ℕ := b.bitCount >>> 3 + if b.leftoverBits ≠ 0 then 1 else 0

def bitmapFlip (m : Mem) (b : Bitmap) (bit : ℕ) : Mem := fun a =>
  if a = b.data + bit >>> 3 then m a ^^^ mask (bit &&& 0x07) else m a

def bitmapInvert (m : Mem) (b : Bitmap) : Mem :=
  (List.range b.byteCount).foldl (fun m byte => Function.update m (b.data + byte) (~~~ m (b.data + byte))) m

/-- The loop of `bitmap_ffs`, with `fuel` iterations left before `bit_count`. -/
def ffsLoop (m : Mem) (b : Bitmap) : (fuel result : ℕ) → ℕ
  | 0, _ => sizeMax
  | fuel + 1, result => if !bitmapTest m b result then ffsLoop m b fuel (result + 1) else result

def bitmapFfs (m : Mem) (b : Bitmap) : ℕ := ffsLoop m b b.bitCount 0

/-- `func` changes what `arg` points to, which is not the bitmap. -/
def bitmapForEach {σ : Type} (m : Mem) (b : Bitmap) (func : Option (ℕ → σ → σ)) (arg : σ) : σ :=
  match func with
  | none => arg
  | some func => (List.range b.bitCount).foldl (fun arg idx => if bitmapTest m b idx then func idx arg else arg) arg

def bitmapFormat (m : Mem) (b : Bitmap) (pattern : UInt8) : Mem := copyIn m b.data b.byteCount (fun _ => pattern)

section Bits
variable {m : Mem} {b : Bitmap} {i j : ℕ}

theorem Bitmap.byteCount_eq (b : Bitmap) : b.byteCount = (b.bitCount + 7) / 8 := by
  rw [Bitmap.byteCount, bit_byte, Bitmap.leftoverBits, bit_index]
  split_ifs <;> omega

/-- The byte of a bit below the bit count. -/
theorem Bitmap.byte_lt (h : i < b.bitCount) : i / 8 < b.byteCount := by
  rw [b.byteCount_eq]
  omega

theorem testBit_not (v : UInt8) {i : ℕ} (h : i < 8) : (~~~v).toNat.testBit i = !v.toNat.testBit i := by
  have hsize : UInt8.size - 1 - v.toNat = 2 ^ 8 - (v.toNat + 1) := by
    have hv := v.toNat_lt
    rw [UInt8.size]
    omega
  rw [UInt8.toNat_not, hsize, Nat.testBit_two_pow_sub_succ v.toNat_lt, decide_eq_true h, Bool.true_and]

theorem bitmapTest_bitmapFlip (m : Mem) (b : Bitmap) (i j : ℕ) :
    bitmapTest (bitmapFlip m b i) b j = (decide (i = j) ^^ bitmapTest m b j) := by
  rw [bitmapTest_eq, bitmapTest_eq, bitmapFlip, bit_byte, bit_index]
  by_cases hb : j / 8 = i / 8
  · rw [if_pos (by rw [hb]), UInt8.toNat_xor, Nat.testBit_xor, mask_toNat (Nat.mod_lt _ (by omega)),
      Nat.testBit_two_pow, Bool.xor_comm]
    congr 1
    exact decide_eq_decide.mpr (by omega)
  · rw [if_neg (by omega), decide_eq_false (by rintro rfl; exact hb rfl), Bool.false_xor]

/-- The bytes that the loop has passed are inverted, the others not. -/
theorem invert_bytes (m : Mem) (base k a : ℕ) :
    (List.range k).foldl (fun m byte => Function.update m (base + byte) (~~~ m (base + byte))) m a =
      if base ≤ a ∧ a < base + k then ~~~ m a else m a := by
  induction k generalizing a with
  | zero =>
    rw [if_neg (by omega)]
    rfl
  | succ k ih =>
    rw [List.range_succ, List.foldl_append, List.foldl_cons, List.foldl_nil]
    by_cases ha : a = base + k
    · subst ha
      rw [Function.update_self, ih, if_neg (by omega), if_pos (by omega)]
    · rw [Function.update_of_ne ha, ih]
      by_cases hin : base ≤ a ∧ a < base + k
      · rw [if_pos hin, if_pos (by omega)]
      · rw [if_neg hin, if_neg (by omega)]

theorem bitmapInvert_eq (m : Mem) (b : Bitmap) (a : ℕ) :
    bitmapInvert m b a = if b.data ≤ a ∧ a < b.data + b.byteCount then ~~~ m a else m a :=
  invert_bytes m b.data b.byteCount a

theorem bitmapTest_bitmapInvert (h : j < b.bitCount) : bitmapTest (bitmapInvert m b) b j = !bitmapTest m b j := by
  have hbyte := b.byte_lt h
  rw [bitmapTest_eq, bitmapTest_eq, bitmapInvert_eq, if_pos (by omega), testBit_not _ (Nat.mod_lt _ (by omega))]

theorem bitmapTest_bitmapFormat (h : j < b.bitCount) (pattern : UInt8) :
    bitmapTest (bitmapFormat m b pattern) b j = pattern.toNat.testBit (j % 8) := by
  have hbyte := b.byte_lt h
  rw [bitmapTest_eq, bitmapFormat, copyIn_inside (by omega) (by omega)]

theorem bitmapTest_not (m : Mem) (b : Bitmap) (j : ℕ) : bitmapTest (fun a => ~~~ m a) b j = !bitmapTest m b j := by
  rw [bitmapTest_eq, bitmapTest_eq, testBit_not _ (Nat.mod_lt _ (by omega))]

/-- A search for a set bit is one for a clear bit of the inverted bytes. -/
theorem ffsLoop_eq (m : Mem) (b : Bitmap) (fuel result : ℕ) :
    ffsLoop m b fuel result = ffzLoop (fun a => ~~~ m a) b fuel result := by
  induction fuel generalizing result with
  | zero => rfl
  | succ fuel ih => rw [ffsLoop, ffzLoop, bitmapTest_not, ih]

theorem bitmapFfs_spec (m : Mem) (b : Bitmap) :
    (bitmapFfs m b = sizeMax ∧ ∀ i < b.bitCount, bitmapTest m b i = false) ∨
    (bitmapFfs m b < b.bitCount ∧ bitmapTest m b (bitmapFfs m b) = true ∧
      ∀ i < bitmapFfs m b, bitmapTest m b i = false) := by
  have he : bitmapFfs m b = bitmapFfz (fun a => ~~~ m a) b := ffsLoop_eq m b b.bitCount 0
  rw [he]
  rcases bitmapFfz_spec (fun a => ~~~ m a) b with ⟨hnone,hall⟩ | ⟨hlt,hf,hall⟩
  · refine Or.inl ⟨hnone,fun i hi => ?_⟩
    have ht := hall i hi
    rwa [bitmapTest_not, Bool.not_eq_true'] at ht
  · rw [bitmapTest_not, Bool.not_eq_false'] at hf
    refine Or.inr ⟨hlt,hf,fun i hi => ?_⟩
    have ht := hall i hi
    rwa [bitmapTest_not, Bool.not_eq_true'] at ht

/-- The visits are to the set bits in order. -/
theorem bitmapForEach_eq {σ : Type} (m : Mem) (b : Bitmap) (func : ℕ → σ → σ) (arg : σ) :
    bitmapForEach m b (some func) arg =
      ((List.range b.bitCount).filter (bitmapTest m b)).foldl (fun arg idx => func idx arg) arg :=
  List.foldl_filter.symm

end Bits

end LiteOSFS
