import LiteOSFS.Library.Below
import LiteOSFS.Storage.BitmapWhole

/-! # A bitmap is a finite set

The bits below the bit count are the members. Each operation does to the set what its name says,
and the searches, the count and the visits are those of the set, whatever the bits behind
the bit count are.
-/
namespace LiteOSFS
open Memory Below

/-- The operations on a bitmap of `n` bits, with their arguments in range. -/
inductive BitmapOp (n : ℕ) where
  | set (bit : Fin n)
  | reset (bit : Fin n)
  | flip (bit : Fin n)
  | invert
  | format (pattern : UInt8)

def bitmapStep (b : Bitmap) (m : Mem) : BitmapOp b.bitCount → Mem
  | .set bit => bitmapSet m b bit
  | .reset bit => bitmapReset m b bit
  | .flip bit => bitmapFlip m b bit
  | .invert => bitmapInvert m b
  | .format pattern => bitmapFormat m b pattern

/-- The operations on subsets of the numbers below `n`. -/
def setStep (n : ℕ) (S : Finset ℕ) : BitmapOp n → Finset ℕ
  | .set bit => insert bit.val S
  | .reset bit => S.erase bit
  | .flip bit => symmDiff S {bit.val}
  | .invert => Finset.range n \ S
  | .format pattern => (Finset.range n).filter (fun i => pattern.toNat.testBit (i % 8) = true)

/-- Bit `i` of the bytes from `base` on. -/
def dataBit (m : Mem) (base i : ℕ) : Bool := (m (base + i / 8)).toNat.testBit (i % 8)

/-- The members that initial data of `n` bits give. -/
def dataSet (m : Mem) (base n : ℕ) : Finset ℕ := (Finset.range n).filter (fun i => dataBit m base i = true)

/-- The results of all queries are those of the set. -/
structure SetView (m : Mem) (b : Bitmap) (S : Finset ℕ) : Prop where
  subset : S ⊆ Finset.range b.bitCount
  test : ∀ i < b.bitCount, bitmapTest m b i = decide (i ∈ S)
  ffs : (S = ∅ → bitmapFfs m b = sizeMax) ∧ (S ≠ ∅ → IsLeast (S : Set ℕ) (bitmapFfs m b))
  ffz : (Finset.range b.bitCount \ S = ∅ → bitmapFfz m b = sizeMax) ∧
    (Finset.range b.bitCount \ S ≠ ∅ → IsLeast ((Finset.range b.bitCount \ S : Finset ℕ) : Set ℕ) (bitmapFfz m b))
  total : bitmapTotalSet m b = S.card
  visits : ∀ (σ : Type) (func : ℕ → σ → σ) (arg : σ),
    bitmapForEach m b (some func) arg = (S.sort (· ≤ ·)).foldl (fun arg i => func i arg) arg

def members (m : Mem) (b : Bitmap) : Finset ℕ := below b.bitCount (bitmapTest m b)

section Views
variable {m m' : Mem} {b : Bitmap}

theorem members_eq_dataSet (h : ∀ i < b.bitCount, dataBit m b.data i = dataBit m' b.data i) :
    members m' b = dataSet m b.data b.bitCount :=
  below_congr (fun i hi => (bitmapTest_eq m' b i).trans (h i hi).symm)

/-- A search that ends at the first bit that passes, or finds that none does. -/
theorem search_least {n r : ℕ} {p : ℕ → Bool}
    (h : (r = sizeMax ∧ ∀ i < n, p i = false) ∨ (r < n ∧ p r = true ∧ ∀ i < r, p i = false)) :
    (below n p = ∅ → r = sizeMax) ∧ (below n p ≠ ∅ → IsLeast (below n p : Set ℕ) r) := by
  rcases h with ⟨hr,hall⟩ | ⟨hlt,hp,hbefore⟩
  · exact ⟨fun _ => hr,fun hne => absurd (below_eq_empty hall) hne⟩
  · refine ⟨fun he => ?_,fun _ => isLeast_below hlt hp hbefore⟩
    have hmem : r ∈ below n p := mem_below.mpr ⟨hlt,hp⟩
    rw [he] at hmem
    exact absurd hmem (Finset.notMem_empty r)

theorem setView_members (m : Mem) (b : Bitmap) : SetView m b (members m b) := by
  refine ⟨below_subset,fun i hi => ?_,search_least (bitmapFfs_spec m b),?_,?_,fun σ func arg => ?_⟩
  · have hmem : i ∈ members m b ↔ bitmapTest m b i = true := mem_below.trans (and_iff_right hi)
    rw [Bool.eq_iff_iff, decide_eq_true_iff]
    exact hmem.symm
  · rw [members, range_sdiff_below]
    refine search_least ?_
    simpa only [Bool.not_eq_true', Bool.not_eq_false'] using bitmapFfz_spec m b
  · rw [bitmapTotalSet_eq, members, card_below]
  · rw [bitmapForEach_eq, members, sort_below]

/-- One operation on the bits is the one on the set. -/
theorem members_step (m : Mem) (b : Bitmap) (op : BitmapOp b.bitCount) :
    members (bitmapStep b m op) b = setStep b.bitCount (members m b) op := by
  cases op with
  | set bit => exact (below_congr (fun i _ => bitmapTest_bitmapSet m b bit i)).trans (below_insert bit.isLt)
  | reset bit => exact (below_congr (fun i _ => bitmapTest_bitmapReset m b bit i)).trans below_erase
  | flip bit => exact (below_congr (fun i _ => bitmapTest_bitmapFlip m b bit i)).trans (below_flip bit.isLt)
  | invert => exact (below_congr (fun i hi => bitmapTest_bitmapInvert hi)).trans range_sdiff_below.symm
  | format pattern => exact below_congr (fun i hi => bitmapTest_bitmapFormat hi pattern)

theorem members_run (m : Mem) (b : Bitmap) (ops : List (BitmapOp b.bitCount)) :
    members (ops.foldl (bitmapStep b) m) b = ops.foldl (setStep b.bitCount) (members m b) := by
  induction ops generalizing m with
  | nil => rfl
  | cons op ops ih => rw [List.foldl_cons, ih, members_step, List.foldl_cons]

end Views

/-- For every bitmap, initial data and sequence of operations, the queries give the results for the set that the data
stand for under the same operations. The set is taken from any data with the same bits below the bit count,
so that no further bit has an influence. -/
theorem bitmap_is_set (b : Bitmap) {m m' : Mem} (h : ∀ i < b.bitCount, dataBit m b.data i = dataBit m' b.data i)
    (ops : List (BitmapOp b.bitCount)) :
    SetView (ops.foldl (bitmapStep b) m') b (ops.foldl (setStep b.bitCount) (dataSet m b.data b.bitCount)) := by
  rw [← members_eq_dataSet h, ← members_run]
  exact setView_members _ b

/-- Three bits, with the others of the byte set. -/
theorem bitmap_is_set_three : bitmapFfs (bitmapInvert (fun _ => 0xF8) ⟨0,3⟩) ⟨0,3⟩ = 0 := by
  have hview : SetView (bitmapInvert (fun _ => 0xF8) ⟨0,3⟩) ⟨0,3⟩ (Finset.range 3 \ dataSet zeros 0 3) :=
    bitmap_is_set ⟨0,3⟩ (show ∀ i < 3, dataBit zeros 0 i = dataBit (fun _ => 0xF8) 0 i by decide) [.invert]
  have hset : Finset.range 3 \ dataSet zeros 0 3 = {0,1,2} := by decide
  rw [hset] at hview
  have hleast := hview.ffs.2 (by decide)
  exact Nat.le_zero.mp (hleast.2 (by simp))

end LiteOSFS
