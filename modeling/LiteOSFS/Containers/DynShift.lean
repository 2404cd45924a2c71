import LiteOSFS.Containers.DynArray

/-! # The shifting routines

In an array that keeps `Inv` the byte arithmetic is exact for every position up to
the capacity. A granted insertion puts its element at its position and moves the
rest up, and a removal of elements that are there closes the gap. The range test of a
removal is in `size_t`: it lets the position `SIZE_MAX` through, whose moves begin
before the buffer.
-/
namespace LiteOSFS
open Memory

variable {a b : DynArray} {p c i n : ℕ} {o : Mem} {heap : Heap}

theorem sizeMod_eq (h : n < 2 ^ 64) : sizeMod n = n := Nat.mod_eq_of_lt h

theorem sizeMod_lt (n : ℕ) : sizeMod n < 2 ^ 64 := Nat.mod_lt _ (by decide)

/-- The first `n` elements have their bytes in the buffer. -/
structure DynArray.Spans (a : DynArray) (n : ℕ) : Prop where
  inside : n * a.dataSize ≤ a.allocated
  allocated_lt : a.allocated < 2 ^ 64

structure DynArray.Inv (a : DynArray) : Prop where
  size_le : a.size ≤ a.capacity
  dataSize_pos : 0 < a.dataSize
  capacity_eq : ∃ k ≤ 52, a.capacity = 16 * 2 ^ k
  allocated_eq : a.allocated = a.capacity * a.dataSize
  fits : a.capacity * a.dataSize < 2 ^ 64

def DynArray.contents (a : DynArray) : List Mem := cells a.array a.dataSize a.size

@[simp] theorem DynArray.length_contents : a.contents.length = a.size := length_cells

namespace DynArray.Spans

theorem mul_le (h : a.Spans n) (hi : i ≤ n) : i * a.dataSize ≤ a.allocated :=
  (Nat.mul_le_mul_right _ hi).trans h.inside

theorem position_eq (h : a.Spans n) (hi : i ≤ n) : a.position i = i * a.dataSize :=
  sizeMod_eq ((h.mul_le hi).trans_lt h.allocated_lt)

theorem sizeNElems_eq (h : a.Spans n) (hi : i ≤ n) : a.sizeNElems i = i * a.dataSize := by
  rw [sizeNElems, Nat.mul_comm]
  exact h.position_eq hi

theorem load_eq (h : a.Spans n) (hi : i < n) : a.load (a.position i) = some (cell a.array a.dataSize i) := by
  have hle := h.mul_le hi
  rw [Nat.succ_mul] at hle
  rw [h.position_eq hi.le, load, if_pos hle]
  rfl

theorem memmove_eq {k : ℕ} (h : a.Spans n) (hd : p + k ≤ n) (hs : c + k ≤ n) :
    a.memmove (a.position p) (a.position c) (a.sizeNElems k) =
      some { a with array := copyIn a.array (p * a.dataSize) (k * a.dataSize) (shift a.array (c * a.dataSize)) } := by
  have hdst := h.mul_le hd
  have hsrc := h.mul_le hs
  rw [Nat.add_mul] at hdst hsrc
  rw [h.position_eq (show p ≤ n by omega), h.position_eq (show c ≤ n by omega), h.sizeNElems_eq (show k ≤ n by omega),
    memmove, if_pos ⟨hdst,hsrc⟩]

theorem memcpy_eq {k : ℕ} (h : a.Spans n) (hd : p + k ≤ n) : a.memcpy (a.position p) o (a.sizeNElems k) =
    some { a with array := copyIn a.array (p * a.dataSize) (k * a.dataSize) o } := by
  have hdst := h.mul_le hd
  rw [Nat.add_mul] at hdst
  rw [h.position_eq (show p ≤ n by omega), h.sizeNElems_eq (show k ≤ n by omega), memcpy, if_pos hdst]

end DynArray.Spans

namespace DynArray.Inv

theorem capacity_le (h : a.Inv) : a.capacity ≤ dynMaxCapacity := by
  obtain ⟨k,hk,he⟩ := h.capacity_eq
  have hpow : 2 ^ k ≤ 2 ^ 52 := Nat.pow_le_pow_right (by omega) hk
  rw [he, dynMaxCapacity]
  omega

theorem capacity_pos (h : a.Inv) : 0 < a.capacity := by
  obtain ⟨k,_,he⟩ := h.capacity_eq
  have hpow : 0 < 2 ^ k := Nat.two_pow_pos k
  omega

theorem allocated_lt (h : a.Inv) : a.allocated < 2 ^ 64 := by
  rw [h.allocated_eq]
  exact h.fits

theorem spans (h : a.Inv) : a.Spans a.capacity := ⟨h.allocated_eq.ge,h.allocated_lt⟩

theorem spans_size (h : a.Inv) : a.Spans a.size := ⟨h.spans.mul_le h.size_le,h.allocated_lt⟩

theorem mul_le (h : a.Inv) (hn : n ≤ a.capacity) : n * a.dataSize ≤ a.allocated := h.spans.mul_le hn

theorem position_eq (h : a.Inv) (hn : n ≤ a.capacity) : a.position n = n * a.dataSize := h.spans.position_eq hn

theorem sizeNElems_eq (h : a.Inv) (hn : n ≤ a.capacity) : a.sizeNElems n = n * a.dataSize := h.spans.sizeNElems_eq hn

theorem sizeMod_eq (h : a.Inv) (hn : n ≤ a.capacity + 1) : sizeMod n = n := by
  have hc := h.capacity_le
  rw [dynMaxCapacity] at hc
  exact LiteOSFS.sizeMod_eq (by omega)

theorem load_eq (h : a.Inv) (hi : i < a.capacity) : a.load (a.position i) = some (cell a.array a.dataSize i) :=
  h.spans.load_eq hi

theorem withArray (h : a.Inv) (m : Mem) : Inv { a with array := m } :=
  ⟨h.size_le,h.dataSize_pos,h.capacity_eq,h.allocated_eq,h.fits⟩

theorem withSize (h : a.Inv) (hn : n ≤ a.capacity) (m : Mem) : Inv { a with array := m, size := n } :=
  ⟨hn,h.dataSize_pos,h.capacity_eq,h.allocated_eq,h.fits⟩

end DynArray.Inv

/-- `count` elements of a source put at `p`, and those from `p` on moved up. -/
def DynArray.inserted (a : DynArray) (p count : ℕ) (src : Mem) : DynArray :=
  { a with
    array := copyIn (copyIn a.array ((p + count) * a.dataSize) ((a.size - p) * a.dataSize)
      (shift a.array (p * a.dataSize))) (p * a.dataSize) (count * a.dataSize) src
    size := a.size + count }

/-- The elements after the `count` ones from `p` on moved down over them. -/
def DynArray.removed (a : DynArray) (p count : ℕ) : DynArray :=
  { a with
    array := copyIn a.array (p * a.dataSize) ((a.size - (p + count)) * a.dataSize)
      (shift a.array ((p + count) * a.dataSize))
    size := a.size - count }

theorem contents_inserted (hp : p ≤ a.size) :
    (a.inserted p c o).contents = a.contents.take p ++ cells o a.dataSize c ++ a.contents.drop p := cells_open_gap hp

theorem contents_inserted_one (hp : p ≤ a.size) :
    (a.inserted p 1 o).contents = a.contents.insertIdx p (window o 0 a.dataSize) := by
  have hone : cells o a.dataSize 1 = [window o 0 a.dataSize] := by rw [← cell_zero_eq]; rfl
  rw [contents_inserted hp, hone, insertIdx_eq_take_append_drop (by rwa [DynArray.length_contents])]

theorem contents_removed (hp : p + c ≤ a.size) :
    (a.removed p c).contents = a.contents.take p ++ a.contents.drop (p + c) := cells_close_gap hp

theorem contents_removed_one (hp : p < a.size) : (a.removed p 1).contents = a.contents.eraseIdx p := by
  rw [contents_removed hp, List.eraseIdx_eq_take_drop_succ]

theorem DynArray.Inv.inserted (h : a.Inv) (hroom : a.size + c ≤ a.capacity) : (a.inserted p c o).Inv :=
  h.withSize hroom _

theorem DynArray.Inv.removed (h : a.Inv) : (a.removed p c).Inv :=
  h.withSize ((Nat.sub_le _ _).trans h.size_le) _

theorem openGap_eq (h : a.Spans n) (hp : p ≤ a.size) (hc : p + c < 2 ^ 64) (hroom : a.size + c ≤ n) :
    a.openGap p c = some { a with
      array := copyIn a.array ((p + c) * a.dataSize) ((a.size - p) * a.dataSize) (shift a.array (p * a.dataSize)) } := by
  rw [DynArray.openGap]
  split_ifs with hne
  · rw [sizeMod_eq hc, h.memmove_eq (by omega) (by omega)]
  · have hgap : (a.size - p) * a.dataSize = 0 := by rw [Nat.sub_eq_zero_of_le (by omega), Nat.zero_mul]
    rw [hgap, copyIn_nothing]

/-- An insertion for which the capacity is there, before or after the array has grown. -/
theorem shiftInsert_granted (hc : c ≠ 0) (hp : p ≤ a.size) (hb : b.Inv) (hsize : b.size = a.size)
    (hroom : b.size + c ≤ b.capacity) (hreq : dynRequestSizeIncrease a c heap = some (true,b)) :
    dynShiftInsert a p c .insert (some o) heap = some ⟨true,b.inserted p c o,[],none⟩ := by
  have hcopy := (hb.withArray (copyIn b.array ((p + c) * b.dataSize) ((b.size - p) * b.dataSize)
    (shift b.array (p * b.dataSize)))).spans.memcpy_eq (o := o) (show p + c ≤ b.capacity by omega)
  have hcap := hb.capacity_le
  rw [dynMaxCapacity] at hcap
  rw [dynShiftInsert, if_pos ⟨hc,rfl,hp⟩, hreq, Option.bind_some]
  simp only [if_true]
  rw [openGap_eq hb.spans (by omega) (by omega) hroom, Option.bind_some, hcopy, Option.map_some]
  simp only [hb.sizeMod_eq (show b.size + c ≤ b.capacity + 1 by omega)]
  rfl

theorem shiftInsert_denied (hreq : dynRequestSizeIncrease a c heap = some (false,a)) :
    dynShiftInsert a p c .insert (some o) heap = some a.refuse := by
  rw [dynShiftInsert]
  split_ifs
  · rw [hreq]
    rfl
  · rfl

theorem shiftInsert_range (hp : a.size < p) : dynShiftInsert a p c .insert (some o) heap = some a.refuse := by
  rw [dynShiftInsert, if_neg (by omega)]

theorem destroyFrom_eq (h : a.Inv) (hp : p + c ≤ a.capacity) :
    a.destroyFrom c (p * a.dataSize) = some (cells (shift a.array (p * a.dataSize)) a.dataSize c) := by
  induction c generalizing p with
  | zero => rfl
  | succ c ih =>
    have hload := h.load_eq (show p < a.capacity by omega)
    rw [h.position_eq (by omega)] at hload
    have hfirst : cells (shift a.array (p * a.dataSize)) a.dataSize 1 = [cell a.array a.dataSize p] :=
      congrArg (fun x => [x]) cell_shift
    have hrest : shift (shift a.array (p * a.dataSize)) (1 * a.dataSize) = shift a.array ((p + 1) * a.dataSize) := by
      funext k
      simp only [shift, Nat.add_mul, Nat.add_assoc]
    rw [DynArray.destroyFrom, hload, Option.bind_some, ← Nat.succ_mul, ih (by omega), Option.map_some,
      Nat.add_comm c 1, cells_add, hfirst, hrest]
    rfl

theorem closeGap_eq (h : a.Inv) (hp : p + c ≤ a.size) :
    a.closeGap p c = some { a.removed p c with size := a.size } := by
  have hle := h.size_le
  rw [DynArray.closeGap, h.sizeMod_eq (by omega)]
  split_ifs with hlt
  · rw [h.spans.memmove_eq (by omega) (by omega)]
    rfl
  · have hgap : (a.size - (p + c)) * a.dataSize = 0 := by rw [Nat.sub_eq_zero_of_le (by omega), Nat.zero_mul]
    rw [DynArray.removed, hgap, copyIn_nothing]

theorem sizeMod_sub (h : a.Inv) (hc : c ≤ a.size) : sizeMod (a.size + 2 ^ 64 - c) = a.size - c := by
  have hle := h.size_le
  have hmax := h.capacity_le
  rw [dynMaxCapacity] at hmax
  rw [sizeMod, show a.size + 2 ^ 64 - c = a.size - c + 2 ^ 64 by omega, Nat.add_mod_right,
    Nat.mod_eq_of_lt (by omega)]

/-- A removal of elements that are there. -/
theorem shiftRemove_inside {mode : DynShiftMode} {dst : Bool} (out : List Mem × Option Mem) (h : a.Inv)
    (hc : c ≠ 0) (hp : p + c ≤ a.size) (hmode : mode.isRemove) (hdst : mode = .erase ∨ dst)
    (hout : a.handOver p c mode = some out) :
    dynShiftRemove a p c mode dst = some ⟨true,a.removed p c,out.1,out.2⟩ := by
  have hle := h.size_le
  have hrange : sizeMod (p + c) ≤ a.size := by rwa [h.sizeMod_eq (by omega)]
  rw [dynShiftRemove, if_pos ⟨hc,by omega,hmode,hrange⟩, if_pos hdst, hout, Option.bind_some, closeGap_eq h hp]
  simp only [Option.map_some, sizeMod_sub h (show c ≤ a.size by omega)]
  rfl

theorem shiftRemove_erase {dst : Bool} (h : a.Inv) (hc : c ≠ 0) (hp : p + c ≤ a.size) :
    dynShiftRemove a p c .erase dst = some ⟨true,a.removed p c,
      if a.destructor then (a.contents.drop p).take c else [],none⟩ := by
  have hle := h.size_le
  have hgone : (a.contents.drop p).take c = cells (shift a.array (p * a.dataSize)) a.dataSize c := by
    obtain ⟨k,hk⟩ := Nat.exists_eq_add_of_le hp
    rw [DynArray.contents, hk, Nat.add_assoc, drop_cells, take_cells (by omega)]
  refine shiftRemove_inside (if a.destructor then _ else [],none) h hc hp rfl (Or.inl rfl) ?_
  rw [DynArray.handOver, if_pos rfl, h.position_eq (by omega), destroyFrom_eq h (by omega), hgone]
  split_ifs <;> rfl

theorem shiftRemove_extract (h : a.Inv) (hp : p < a.size) :
    dynShiftRemove a p 1 .extract true = some ⟨true,a.removed p 1,[],some (cell a.array a.dataSize p)⟩ := by
  have hle := h.size_le
  have hmul := h.mul_le (show p + 1 ≤ a.capacity by omega)
  rw [Nat.succ_mul] at hmul
  have hone := h.sizeNElems_eq (show 1 ≤ a.capacity by omega)
  rw [Nat.one_mul] at hone
  refine shiftRemove_inside ([],some (cell a.array a.dataSize p)) h Nat.one_ne_zero hp rfl (Or.inr rfl) ?_
  rw [DynArray.handOver, if_neg (by decide), h.position_eq (by omega), hone, if_pos hmul]
  rfl

theorem shiftRemove_extract_null : dynShiftRemove a p c .extract false = some a.refuse := by
  rw [dynShiftRemove, if_neg (show ¬ (DynShiftMode.extract = .erase ∨ false = true) by decide), ite_self]

theorem shiftRemove_range {mode : DynShiftMode} {dst : Bool} (hp : a.size = 0 ∨ a.size ≤ p ∧ p + 1 < 2 ^ 64) :
    dynShiftRemove a p 1 mode dst = some a.refuse := by
  rw [dynShiftRemove, if_neg]
  rintro ⟨_,hne,_,hle⟩
  rcases hp with h0 | ⟨hge,hlt⟩
  · exact hne h0
  · rw [sizeMod_eq hlt] at hle
    omega

/-- At the position `SIZE_MAX` the move begins one element before the buffer. -/
theorem shiftRemove_wraps {dst : Bool} (h : a.Inv) (hne : a.size ≠ 0) :
    dynShiftRemove a sizeMax 1 .erase dst = none := by
  have hsum : sizeMod (sizeMax + 1) = 0 := rfl
  have hw : 1 * a.dataSize ≤ a.allocated := h.mul_le h.capacity_pos
  have hlt := h.allocated_lt
  have hpos := h.dataSize_pos
  have hoff : a.position sizeMax = 2 ^ 64 - a.dataSize := by
    have hmul : sizeMax * a.dataSize = 2 ^ 64 - a.dataSize + 2 ^ 64 * (a.dataSize - 1) := by
      rw [sizeMax]
      omega
    rw [DynArray.position, hmul, sizeMod, Nat.add_mul_mod_self_left, Nat.mod_eq_of_lt (by omega)]
  have hlen : a.dataSize ≤ a.sizeNElems a.size := by
    rw [h.sizeNElems_eq h.size_le]
    exact Nat.le_mul_of_pos_left _ (Nat.pos_of_ne_zero hne)
  have hmove : a.closeGap sizeMax 1 = none := by
    rw [DynArray.closeGap, hsum, if_pos (Nat.pos_of_ne_zero hne), DynArray.memmove, if_neg]
    rintro ⟨hd,_⟩
    rw [hoff, Nat.sub_zero] at hd
    omega
  rw [dynShiftRemove, hsum, if_pos ⟨Nat.one_ne_zero,hne,rfl,Nat.zero_le _⟩, if_pos (Or.inl rfl), hmove]
  cases a.handOver sizeMax 1 .erase <;> rfl

end LiteOSFS
