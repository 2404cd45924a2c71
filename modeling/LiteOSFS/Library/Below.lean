import Mathlib.Data.Finset.Sort
import Mathlib.Data.Finset.SymmDiff

/-! # The numbers below a bound that pass a test

A test on the numbers below `n` is a finite set; counting, listing and searching with it
are the cardinality, the sorted list and the least element of that set.
-/
namespace LiteOSFS.Below

def below (n : ℕ) (p : ℕ → Bool) : Finset ℕ := (Finset.range n).filter (fun i => p i = true)

variable {n : ℕ} {p q : ℕ → Bool}

@[simp] theorem mem_below {i : ℕ} : i ∈ below n p ↔ i < n ∧ p i = true := by
  rw [below, Finset.mem_filter, Finset.mem_range]

theorem below_congr (h : ∀ i < n, p i = q i) : below n p = below n q := by
  ext i
  rw [mem_below, mem_below]
  constructor
  · rintro ⟨hi,hp⟩
    exact ⟨hi,h i hi ▸ hp⟩
  · rintro ⟨hi,hq⟩
    exact ⟨hi,(h i hi).trans hq⟩

theorem below_subset : below n p ⊆ Finset.range n := Finset.filter_subset _ _

theorem below_eq_toFinset : below n p = ((List.range n).filter p).toFinset := by
  ext i
  simp

theorem nodup_filter_range : ((List.range n).filter p).Nodup := List.nodup_range.filter p

theorem sort_below : (below n p).sort (· ≤ ·) = (List.range n).filter p := by
  rw [below_eq_toFinset]
  exact (List.toFinset_sort _ nodup_filter_range).mpr (List.pairwise_le_range.filter p)

theorem card_below : (below n p).card = (List.range n).countP p := by
  rw [below_eq_toFinset, List.toFinset_card_of_nodup nodup_filter_range, List.countP_eq_length_filter]

/-- What a search finds that stops at the first number that passes. -/
theorem isLeast_below {r : ℕ} (hr : r < n) (hp : p r = true) (hbefore : ∀ i < r, p i = false) :
    IsLeast (below n p : Set ℕ) r := by
  refine ⟨Finset.mem_coe.mpr (mem_below.mpr ⟨hr,hp⟩),fun i hi => ?_⟩
  by_contra hlt
  have hfalse := hbefore i (Nat.not_le.mp hlt)
  rw [(mem_below.mp (Finset.mem_coe.mp hi)).2] at hfalse
  cases hfalse

theorem below_eq_empty (h : ∀ i < n, p i = false) : below n p = ∅ := by
  rw [Finset.eq_empty_iff_forall_notMem]
  intro i hi
  obtain ⟨hlt,hp⟩ := mem_below.mp hi
  rw [h i hlt] at hp
  cases hp

theorem range_sdiff_below : Finset.range n \ below n p = below n (fun i => !p i) := by
  ext i
  rw [Finset.mem_sdiff, Finset.mem_range, mem_below, mem_below, Bool.not_eq_true']
  constructor
  · rintro ⟨hi,hno⟩
    exact ⟨hi,Bool.eq_false_iff.mpr (fun hp => hno ⟨hi,hp⟩)⟩
  · rintro ⟨hi,hp⟩
    refine ⟨hi,fun hc => ?_⟩
    rw [hp] at hc
    cases hc.2

/-- The set after one number was put in. -/
theorem below_insert {k : ℕ} (hk : k < n) : below n (fun i => decide (k = i) || p i) = insert k (below n p) := by
  ext i
  rw [mem_below, Finset.mem_insert, mem_below, Bool.or_eq_true, decide_eq_true_eq]
  constructor
  · rintro ⟨hi,rfl | hp⟩
    · exact Or.inl rfl
    · exact Or.inr ⟨hi,hp⟩
  · rintro (rfl | ⟨hi,hp⟩)
    · exact ⟨hk,Or.inl rfl⟩
    · exact ⟨hi,Or.inr hp⟩

theorem below_erase {k : ℕ} : below n (fun i => !decide (k = i) && p i) = (below n p).erase k := by
  ext i
  rw [mem_below, Finset.mem_erase, mem_below, Bool.and_eq_true, Bool.not_eq_true', decide_eq_false_iff_not]
  constructor
  · rintro ⟨hi,hne,hp⟩
    exact ⟨Ne.symm hne,hi,hp⟩
  · rintro ⟨hne,hi,hp⟩
    exact ⟨hi,Ne.symm hne,hp⟩

theorem below_flip {k : ℕ} (hk : k < n) : below n (fun i => decide (k = i) ^^ p i) = symmDiff (below n p) {k} := by
  ext i
  rw [mem_below, Finset.mem_symmDiff, mem_below, Finset.mem_singleton]
  by_cases hik : i = k
  · subst hik
    simp [hk]
  · rw [decide_eq_false (Ne.symm hik), Bool.false_xor]
    simp [hik]

end LiteOSFS.Below
