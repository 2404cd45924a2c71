import LiteOSFS.Containers.DynGrowth

/-! # The array as a whole

The calls of `dyn_array.c` that go over all elements: `dyn_array_destroy`, `dyn_array_sort` and
`dyn_array_for_each`. What `qsort` makes of a list of elements is a function of its own here.
-/
namespace LiteOSFS
open Memory

/-- The elements that the destructor is given; the buffer and the `dyn_array_t` are freed. -/
def dynArrayDestroy (a : DynArray) : Option (List Mem) := (dynArrayClear a).map DynOutcome.destroyed

/-- Elements written one after another, from cell `i` on. -/
def storeCells (w : ℕ) : Mem → ℕ → List Mem → Mem
  | m, _, [] => m
  | m, i, x :: l => storeCells w (copyIn m (i * w) w x) (i + 1) l

def dynArraySort (qsort : (Mem → Mem → ℤ) → List Mem → List Mem) (a : DynArray)
    (compare : Option (Mem → Mem → ℤ)) : Option (Bool × DynArray) :=
  match compare with
  | none => some (false,a)
  | some compare =>
    if a.size = 0 then some (false,a)
    else if a.size * a.dataSize ≤ a.allocated then
      some (true,{ a with array := storeCells a.dataSize a.array 0 (qsort compare (cells a.array a.dataSize a.size)) })
    else none

/-- The loop of `dyn_array_for_each`, with the number of elements that are left; `func` sees an element and `arg`
and may change both. -/
def DynArray.forEachFrom {σ : Type*} (func : Mem → σ → Mem × σ) : DynArray → ℕ → ℕ → σ → Option (DynArray × σ)
  | a, 0, _, arg => some (a,arg)
  | a, left + 1, off, arg => (a.load off).bind fun element =>
    DynArray.forEachFrom func { a with array := copyIn a.array off a.dataSize (func element arg).1 } left
      (off + a.dataSize) (func element arg).2

def dynArrayForEach {σ : Type*} (a : DynArray) (func : Option (Mem → σ → Mem × σ)) (arg : σ) :
    Option (Bool × DynArray × σ) :=
  match func with
  | none => some (false,a,arg)
  | some func => (a.forEachFrom func a.size 0 arg).map fun r => (true,r)

/-- What `func` leaves of a list of elements of `w` bytes, visited in order, and of `arg`. -/
def visit {σ : Type*} (w : ℕ) (func : Mem → σ → Mem × σ) : List Mem → σ → List Mem × σ
  | [], arg => ([],arg)
  | x :: l, arg => (window (func x arg).1 0 w :: (visit w func l (func x arg).2).1,(visit w func l (func x arg).2).2)

section Cells
variable {m x : Mem} {w i j n : ℕ} {l : List Mem}

/-- One cell is written. -/
theorem cell_copyIn : cell (copyIn m (i * w) w x) w j = if j = i then window x 0 w else cell m w j := by
  have hone : w = 1 * w := (Nat.one_mul w).symm
  rcases Nat.lt_trichotomy j i with hlt | rfl | hlt
  · rw [if_neg (by omega), cell_copyIn_lt hlt]
  · rw [if_pos rfl, ← cell_zero_eq]
    have hmid : cell (copyIn m (j * w) (1 * w) x) w (j + 0) = cell x w 0 := cell_copyIn_mid Nat.one_pos
    rwa [← hone, Nat.add_zero] at hmid
  · rw [if_neg (by omega)]
    have hge : cell (copyIn m (i * w) (1 * w) x) w j = cell m w j := cell_copyIn_ge hlt
    rwa [← hone] at hge

theorem cell_storeCells : cell (storeCells w m i l) w j =
    if i ≤ j ∧ j < i + l.length then window (l.getD (j - i) zeros) 0 w else cell m w j := by
  induction l generalizing m i with
  | nil => rw [storeCells, List.length_nil, if_neg (by omega)]
  | cons x l ih =>
    rw [storeCells, ih, List.length_cons]
    rcases Nat.lt_trichotomy j i with hlt | rfl | hlt
    · rw [if_neg (by omega), if_neg (by omega), cell_copyIn, if_neg (by omega)]
    · rw [if_neg (by omega), if_pos (by omega), cell_copyIn, if_pos rfl, Nat.sub_self]
      rfl
    · by_cases hj : j < i + 1 + l.length
      · rw [if_pos ⟨hlt,hj⟩, if_pos (by omega), show j - i = j - (i + 1) + 1 by omega]
        rfl
      · rw [if_neg (by omega), if_neg (by omega), cell_copyIn, if_neg (by omega)]

/-- The elements of an array that is written anew. -/
theorem cells_storeCells (hn : l.length = n) (hw : ∀ x ∈ l, window x 0 w = x) : cells (storeCells w m 0 l) w n = l := by
  apply List.ext_getElem (by rw [length_cells, hn])
  intro j hj hjl
  rw [getElem_cells, cell_storeCells, if_pos (by omega), Nat.sub_zero, List.getD_eq_getElem l zeros hjl]
  exact hw _ (List.getElem_mem hjl)

theorem cells_copyIn : cells (copyIn m (i * w) w x) w n = (cells m w n).set i (window x 0 w) := by
  apply List.ext_getElem?
  intro j
  rw [List.getElem?_set, length_cells, getElem?_cells, getElem?_cells, cell_copyIn]
  by_cases hj : j < n
  · by_cases hji : j = i
    · subst hji
      rw [if_pos hj, if_pos rfl, if_pos rfl, if_pos hj]
    · rw [if_pos hj, if_neg hji, if_neg (Ne.symm hji), if_pos hj]
  · by_cases hji : j = i
    · subst hji
      rw [if_neg hj, if_pos rfl, if_neg hj]
    · rw [if_neg hj, if_neg (Ne.symm hji), if_neg hj]

theorem window_cell : window (cell m w i) 0 w = cell m w i := window_window m (i * w) w

end Cells

theorem take_set_succ {α : Type*} {l : List α} {p : ℕ} {x : α} (h : p < l.length) :
    (l.set p x).take (p + 1) = l.take p ++ [x] := by
  simp [List.take_add_one, h, List.take_set_of_le]

section Whole
variable {a : DynArray} {qsort : (Mem → Mem → ℤ) → List Mem → List Mem} {compare : Mem → Mem → ℤ}

theorem window_of_mem_contents {x : Mem} (hx : x ∈ a.contents) : window x 0 a.dataSize = x := by
  obtain ⟨i,_,rfl⟩ := List.mem_map.mp hx
  exact window_cell

/-- Sorting an array with elements. -/
theorem dynArraySort_eq (h : a.Inv) (hne : a.size ≠ 0) (hperm : (qsort compare a.contents).Perm a.contents) :
    ∃ b, dynArraySort qsort a (some compare) = some (true,b) ∧ b.Inv ∧ b.dataSize = a.dataSize ∧
      b.destructor = a.destructor ∧ b.contents = qsort compare a.contents := by
  refine ⟨{ a with array := storeCells a.dataSize a.array 0 (qsort compare a.contents) },?_,h.withArray _,rfl,rfl,?_⟩
  · rw [dynArraySort, if_neg hne, if_pos (h.mul_le h.size_le)]
    rfl
  · refine cells_storeCells ?_ (fun x hx => window_of_mem_contents (hperm.subset hx))
    rw [hperm.length_eq, DynArray.length_contents]

theorem dynArrayDestroy_eq (h : a.Inv) : dynArrayDestroy a = some (if a.destructor then a.contents else []) := by
  rw [dynArrayDestroy, dynArrayClear]
  by_cases h0 : a.size = 0
  · have hnil : a.contents = [] := List.length_eq_zero_iff.mp (by rwa [DynArray.length_contents])
    rw [if_neg (not_not_intro h0), hnil, ite_self]
    rfl
  · have hlen : a.contents.length ≤ a.size := DynArray.length_contents.le
    rw [if_pos h0, shiftRemove_erase h h0 (by omega), List.drop_zero, List.take_of_length_le hlen]
    rfl

/-- The loop from element `p` on. -/
theorem forEachFrom_eq {σ : Type*} (func : Mem → σ → Mem × σ) (h : a.Inv) {left p : ℕ} (hp : p + left = a.size) (arg : σ) :
    ∃ b arg', a.forEachFrom func left (p * a.dataSize) arg = some (b,arg') ∧ b.Inv ∧ b.size = a.size ∧
      b.dataSize = a.dataSize ∧ b.destructor = a.destructor ∧
      b.contents = a.contents.take p ++ (visit a.dataSize func (a.contents.drop p) arg).1 ∧
      arg' = (visit a.dataSize func (a.contents.drop p) arg).2 := by
  induction left generalizing a p arg with
  | zero =>
    have hdrop : a.contents.drop p = [] := List.drop_eq_nil_of_le (by rw [DynArray.length_contents]; omega)
    have htake : a.contents.take p = a.contents := List.take_of_length_le (by rw [DynArray.length_contents]; omega)
    rw [hdrop, htake]
    exact ⟨a,arg,rfl,h,rfl,rfl,rfl,(List.append_nil _).symm,rfl⟩
  | succ left ih =>
    have hle := h.size_le
    have hload := h.load_eq (show p < a.capacity by omega)
    rw [h.position_eq (by omega)] at hload
    have hpl : p < a.contents.length := by rw [DynArray.length_contents]; omega
    have hx : a.contents[p] = cell a.array a.dataSize p := getElem_cells hpl
    generalize hr : func (cell a.array a.dataSize p) arg = r
    have hcontents : DynArray.contents { a with array := copyIn a.array (p * a.dataSize) a.dataSize r.1 } =
        a.contents.set p (window r.1 0 a.dataSize) := cells_copyIn
    obtain ⟨b,arg',hrun,hb,hsize,hd,hdes,hcon,harg⟩ :=
      ih (h.withArray (copyIn a.array (p * a.dataSize) a.dataSize r.1)) (show p + 1 + left = a.size by omega) r.2
    refine ⟨b,arg',?_,hb,hsize,hd,hdes,?_,?_⟩
    · rw [DynArray.forEachFrom, hload, Option.bind_some, hr, ← Nat.succ_mul]
      exact hrun
    · rw [hcon, hcontents, List.drop_eq_getElem_cons hpl, hx, visit, hr, List.drop_set_of_lt (Nat.lt_succ_self p),
        take_set_succ hpl, List.append_assoc]
      rfl
    · rw [harg, hcontents, List.drop_eq_getElem_cons hpl, hx, visit, hr, List.drop_set_of_lt (Nat.lt_succ_self p)]

end Whole

end LiteOSFS
