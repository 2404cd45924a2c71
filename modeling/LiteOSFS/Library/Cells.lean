import LiteOSFS.Library.Memory
import Mathlib.Data.List.Basic

/-! # Arrays of equal cells

A memory read as cells of `w` bytes each: `cells m w n` is the list of the first `n`.
A block of cells moved up leaves a gap that other cells fill, and moved down it
closes one.
-/
namespace LiteOSFS.Memory

variable {m buf : Mem} {w i n p q c : ℕ}

def cell (m : Mem) (w i : ℕ) : Mem := window m (i * w) w

def cells (m : Mem) (w n : ℕ) : List Mem := (List.range n).map (cell m w)

theorem insertIdx_eq_take_append_drop {α : Type*} {x : α} : ∀ {p : ℕ} {l : List α}, p ≤ l.length →
    l.insertIdx p x = l.take p ++ [x] ++ l.drop p
  | 0, l, _ => by simp
  | p + 1, [], h => by simp at h
  | p + 1, y :: l, h => by
    rw [List.insertIdx_succ_cons, insertIdx_eq_take_append_drop (Nat.le_of_succ_le_succ h)]
    rfl

theorem copyIn_nothing (m buf : Mem) (x : ℕ) : copyIn m x 0 buf = m :=
  copyIn_eq_self (fun i hi => absurd hi (Nat.not_lt_zero i))

@[simp] theorem length_cells : (cells m w n).length = n := by simp [cells]

@[simp] theorem cells_zero : cells m w 0 = [] := rfl

theorem getElem?_cells : (cells m w n)[i]? = if i < n then some (cell m w i) else none := by
  unfold cells
  split_ifs with h
  · simp [h]
  · simpa using h

@[simp] theorem getElem_cells (h : i < (cells m w n).length) : (cells m w n)[i] = cell m w i := by
  simp [cells]

theorem cells_congr {m' : Mem} (h : ∀ i < n, cell m w i = cell m' w i) : cells m w n = cells m' w n :=
  List.map_congr_left (fun i hi => h i (List.mem_range.mp hi))

theorem cell_zero_eq : cell m w 0 = window m 0 w := by rw [cell, Nat.zero_mul]

theorem cell_shift : cell (shift m (p * w)) w i = cell m w (p + i) := by
  funext k
  simp only [cell, window, shift, Nat.add_mul, Nat.add_assoc]

theorem cell_copyIn_lt {len : ℕ} (h : i < p) : cell (copyIn m (p * w) len buf) w i = cell m w i := by
  have hle : (i + 1) * w ≤ p * w := Nat.mul_le_mul_right w h
  rw [Nat.succ_mul] at hle
  exact window_copyIn_of_disjoint (Or.inr hle)

theorem cell_copyIn_ge (h : p + c ≤ i) : cell (copyIn m (p * w) (c * w) buf) w i = cell m w i := by
  have hle : (p + c) * w ≤ i * w := Nat.mul_le_mul_right w h
  rw [Nat.add_mul] at hle
  exact window_copyIn_of_disjoint (Or.inl hle)

theorem cell_copyIn_mid (hi : i < c) : cell (copyIn m (p * w) (c * w) buf) w (p + i) = cell buf w i := by
  have hle : (i + 1) * w ≤ c * w := Nat.mul_le_mul_right w hi
  rw [Nat.succ_mul] at hle
  funext k
  simp only [cell, window]
  split_ifs with hk
  · rw [Nat.add_mul, copyIn_inside (by omega) (by omega)]
    congr 1
    omega
  · rfl

theorem cells_add (m : Mem) (w p c : ℕ) : cells m w (p + c) = cells m w p ++ cells (shift m (p * w)) w c := by
  have hs : cell (shift m (p * w)) w = fun i => cell m w (p + i) := funext fun i => cell_shift
  rw [cells, cells, cells, hs, List.range_add, List.map_append, List.map_map]
  rfl

theorem take_cells (hp : p ≤ n) : (cells m w n).take p = cells m w p := by
  obtain ⟨k,rfl⟩ := Nat.exists_eq_add_of_le hp
  rw [cells_add]
  exact List.take_left' length_cells

theorem drop_cells (m : Mem) (w p k : ℕ) : (cells m w (p + k)).drop p = cells (shift m (p * w)) w k := by
  rw [cells_add]
  exact List.drop_left' length_cells

/-- The cells from `p` on moved up by `c` cells, and `c` cells of a buffer put into the gap. -/
theorem cells_open_gap (hp : p ≤ n) :
    cells (copyIn (copyIn m ((p + c) * w) ((n - p) * w) (shift m (p * w))) (p * w) (c * w) buf) w (n + c) =
      (cells m w n).take p ++ cells buf w c ++ (cells m w n).drop p := by
  obtain ⟨k,rfl⟩ := Nat.exists_eq_add_of_le hp
  rw [take_cells hp, drop_cells, Nat.add_sub_cancel_left, Nat.add_right_comm, cells_add, cells_add]
  refine congrArg₂ _ (congrArg₂ _ ?_ ?_) ?_
  · exact cells_congr fun i hi => by rw [cell_copyIn_lt hi, cell_copyIn_lt (by omega)]
  · exact cells_congr fun i hi => by rw [cell_shift, cell_copyIn_mid hi]
  · exact cells_congr fun i hi => by rw [cell_shift, cell_copyIn_ge (by omega), cell_copyIn_mid hi]

/-- The cells after a gap of `c` cells moved down into it. -/
theorem cells_close_gap (hp : p + c ≤ n) :
    cells (copyIn m (p * w) ((n - (p + c)) * w) (shift m ((p + c) * w))) w (n - c) =
      (cells m w n).take p ++ (cells m w n).drop (p + c) := by
  obtain ⟨k,rfl⟩ := Nat.exists_eq_add_of_le hp
  rw [take_cells (by omega), drop_cells, Nat.add_sub_cancel_left, show p + c + k - c = p + k by omega, cells_add]
  refine congrArg₂ _ ?_ ?_
  · exact cells_congr fun i hi => cell_copyIn_lt hi
  · exact cells_congr fun i hi => by rw [cell_shift, cell_copyIn_mid hi]

end LiteOSFS.Memory
