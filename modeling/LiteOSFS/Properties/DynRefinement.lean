import LiteOSFS.Containers.DynGrowth
import LiteOSFS.Library.Reach
import Mathlib.Data.List.Sort

/-! # The dynamic array as a list

`listCall` is what each call means for a mathematical list: `none` where it means
nothing. The array follows it as long as nobody erases at `SIZE_MAX` from an array that
is not empty and no growth wraps its number of bytes, and at such a call the
code leaves its buffer.
-/
namespace LiteOSFS
open Memory Transition

variable {a b : DynArray} {p c : ℕ} {o : Mem} {heap : Heap}

inductive DynCall where
  | pushFront (object : Option Mem)
  | pushBack (object : Option Mem)
  | insert (index : UInt64) (object : Option Mem)
  | insertSorted (object : Option Mem) (compare : Option (Mem → Mem → ℤ))
  | popFront
  | popBack
  | erase (index : UInt64)
  | extract (index : UInt64) (object : Bool)
  | extractFront (object : Bool)
  | extractBack (object : Bool)
  | clear

/-- The code's call, with the answer of the heap should the array grow. -/
def dynCall (a : DynArray) (call : DynCall) (heap : Heap) : Option DynOutcome :=
  match call with
  | .pushFront object => dynArrayPushFront a object heap
  | .pushBack object => dynArrayPushBack a object heap
  | .insert index object => dynArrayInsert a index.toNat object heap
  | .insertSorted object compare => dynArrayInsertSorted a object compare heap
  | .popFront => dynArrayPopFront a
  | .popBack => dynArrayPopBack a
  | .erase index => dynArrayErase a index.toNat
  | .extract index object => dynArrayExtract a index.toNat object
  | .extractFront object => dynArrayExtractFront a object
  | .extractBack object => dynArrayExtractBack a object
  | .clear => dynArrayClear a

/-- The list after a call, with the elements that were erased and the one handed out. -/
structure ListOutcome where
  list : List Mem
  erased : List Mem
  extracted : Option Mem

/-- The calls as operations on a list of elements of `w` bytes. -/
def listCall (w : ℕ) (l : List Mem) : DynCall → Option ListOutcome
  | .pushFront object => object.map fun o => ⟨window o 0 w :: l,[],none⟩
  | .pushBack object => object.map fun o => ⟨l ++ [window o 0 w],[],none⟩
  | .insert index object =>
    if index.toNat ≤ l.length then object.map fun o => ⟨l.insertIdx index.toNat (window o 0 w),[],none⟩ else none
  | .insertSorted object compare => object.bind fun o => compare.map fun compare =>
    ⟨l.orderedInsert (fun x y => compare x y ≤ 0) (window o 0 w),[],none⟩
  | .popFront => l.head?.map fun x => ⟨l.tail,[x],none⟩
  | .popBack => l.getLast?.map fun x => ⟨l.dropLast,[x],none⟩
  | .erase index => l[index.toNat]?.map fun x => ⟨l.eraseIdx index.toNat,[x],none⟩
  | .extract index object => if object then l[index.toNat]?.map fun x => ⟨l.eraseIdx index.toNat,[],some x⟩ else none
  | .extractFront object => if object then l.head?.map fun x => ⟨l.tail,[],some x⟩ else none
  | .extractBack object => if object then l.getLast?.map fun x => ⟨l.dropLast,[],some x⟩ else none
  | .clear => some ⟨[],l,none⟩

def DynCall.inserts : DynCall → Prop
  | .pushFront _ | .pushBack _ | .insert _ _ | .insertSorted _ _ => True
  | _ => False

/-- The call ends, touches the buffer only, and does to the contents what it does to the list: it returns
`false` and leaves the array alone when it means nothing for the list or memory is refused. -/
def ListLaw (a : DynArray) (call : DynCall) (heap : Heap) : Prop :=
  ∃ out, dynCall a call heap = some out ∧ out.array.Inv ∧ out.array.dataSize = a.dataSize ∧
    match listCall a.dataSize a.contents call with
    | none => out = a.refuse
    | some next => (call.inserts ∧ MemoryRefused a heap → out = a.refuse) ∧
      (¬ (call.inserts ∧ MemoryRefused a heap) → out.ret = true ∧ out.array.contents = next.list ∧
        out.destroyed = (if a.destructor then next.erased else []) ∧ out.extracted = next.extracted)

/-- Not an erasure at `SIZE_MAX` from an array with elements, and not a growth that wraps. -/
def CallSafe (a : DynArray) (action : DynCall × Heap) : Prop :=
  ¬ (a.size ≠ 0 ∧ ∃ index, action.1 = .erase index ∧ index.toNat = sizeMax) ∧
  ¬ (action.1.inserts ∧ listCall a.dataSize a.contents action.1 ≠ none ∧ GrowthWraps a action.2)

def dynStep (a : DynArray) (action : DynCall × Heap) : Option DynArray :=
  (dynCall a action.1 action.2).map DynOutcome.array

/-- `front`, `back` and `at` point to the elements of the list, and `export` to all of them. -/
def Views (a : DynArray) : Prop :=
  dynArraySize a = a.contents.length ∧ dynArrayEmpty a = a.contents.isEmpty ∧
  (∀ p ∈ dynArrayExport a, ∀ k < a.size, a.load (p + k * a.dataSize) = a.contents[k]?) ∧
  (dynArrayFront a).map a.load = a.contents.head?.map some ∧
  (dynArrayBack a).map a.load = a.contents.getLast?.map some ∧
  ∀ index, (dynArrayAt a index).map a.load = a.contents[index]?.map some

variable {call : DynCall} {next : ListOutcome}

theorem callSafe_insert (hins : call.inserts) (hlist : listCall a.dataSize a.contents call = some next) :
    CallSafe a (call,heap) ↔ ¬ GrowthWraps a heap := by
  constructor
  · rintro ⟨_,h⟩ hw
    refine h ⟨hins,?_,hw⟩
    rw [hlist]
    exact Option.some_ne_none next
  · refine fun h => ⟨?_,fun hw => h hw.2.2⟩
    rintro ⟨_,index,he,_⟩
    have hcall : call = .erase index := he
    rw [hcall] at hins
    exact hins

theorem callSafe_of_none (hlist : listCall a.dataSize a.contents call = none)
    (herase : ∀ index, call = .erase index → a.size = 0 ∨ index.toNat ≠ sizeMax) : CallSafe a (call,heap) := by
  refine ⟨?_,fun hw => hw.2.1 hlist⟩
  rintro ⟨hne,index,he,hi⟩
  rcases herase index he with h0 | hlt
  · exact hne h0
  · exact hlt hi

/-- An insertion that means something for the list. -/
theorem law_of_insert (h : a.Inv) (hp : p ≤ a.size) (hins : call.inserts)
    (hcall : dynCall a call heap = dynShiftInsert a p 1 .insert (some o) heap)
    (hlist : listCall a.dataSize a.contents call =
      some ⟨a.contents.insertIdx p (window o 0 a.dataSize),[],none⟩) :
    ListLaw a call heap ↔ CallSafe a (call,heap) := by
  rw [callSafe_insert hins hlist]
  rcases shiftInsert_cases h hp o heap with ⟨hw,hnone⟩ | ⟨hw,hrest⟩
  · refine iff_of_false ?_ (not_not_intro hw)
    rintro ⟨out,hout,_⟩
    rw [hcall, hnone] at hout
    cases hout
  refine iff_of_true ?_ hw
  rcases hrest with ⟨hm,hout⟩ | ⟨hm,b,hb,hsize,hroom,hd,hcontents,hout⟩
  · refine ⟨_,hcall.trans hout,h,rfl,?_⟩
    rw [hlist]
    exact ⟨fun _ => rfl,fun hno => absurd ⟨hins,hm⟩ hno⟩
  · refine ⟨_,hcall.trans hout,hb.inserted hroom,hd,?_⟩
    rw [hlist]
    refine ⟨fun hno => absurd hno.2 hm,fun _ => ⟨rfl,?_,(ite_self _).symm,rfl⟩⟩
    rw [← hcontents, ← hd]
    exact contents_inserted_one (by omega)

/-- A call that means nothing for the list. -/
theorem law_of_none (h : a.Inv) (hlist : listCall a.dataSize a.contents call = none)
    (herase : ∀ index, call = .erase index → a.size = 0 ∨ index.toNat ≠ sizeMax)
    (hcall : dynCall a call heap = some a.refuse) : ListLaw a call heap ↔ CallSafe a (call,heap) := by
  refine iff_of_true ⟨_,hcall,h,rfl,?_⟩ (callSafe_of_none hlist herase)
  rw [hlist]

/-- A removal that means something for the list. -/
theorem law_of_remove {out : DynOutcome} (hlist : listCall a.dataSize a.contents call = some next)
    (hins : ¬ call.inserts) (herase : ∀ index, call = .erase index → a.size = 0 ∨ index.toNat ≠ sizeMax)
    (hcall : dynCall a call heap = some out) (hinv : out.array.Inv) (hd : out.array.dataSize = a.dataSize)
    (hret : out.ret = true) (hcontents : out.array.contents = next.list)
    (hgone : out.destroyed = if a.destructor then next.erased else []) (hext : out.extracted = next.extracted) :
    ListLaw a call heap ↔ CallSafe a (call,heap) := by
  refine iff_of_true ⟨out,hcall,hinv,hd,?_⟩ ⟨?_,fun hw => hins hw.1⟩
  · rw [hlist]
    exact ⟨fun hno => absurd hno.1 hins,fun _ => ⟨hret,hcontents,hgone,hext⟩⟩
  · rintro ⟨hne,index,he,hi⟩
    rcases herase index he with h0 | hlt
    · exact hne h0
    · exact hlt hi

theorem insertIdx_takeWhile {α : Type*} {q : α → Bool} {x : α} (l : List α) :
    l.insertIdx (l.takeWhile q).length x = l.takeWhile q ++ x :: l.dropWhile q := by
  induction l with
  | nil => rfl
  | cons y l ih =>
    by_cases hy : q y
    · simp [hy, ih]
    · simp [hy]

theorem orderedPosition_eq (h : a.Spans a.size) {compare : Mem → Mem → ℤ} {left pos : ℕ} (hl : left + pos = a.size) :
    orderedPosition a o compare left pos =
      some (pos + ((a.contents.drop pos).takeWhile fun x => decide (compare o x > 0)).length) := by
  induction left generalizing pos with
  | zero =>
    have hdrop : a.contents.drop pos = [] := List.drop_eq_nil_of_le (by rw [DynArray.length_contents]; omega)
    rw [orderedPosition, hdrop]
    rfl
  | succ left ih =>
    have hpos : pos < a.contents.length := by rw [DynArray.length_contents]; omega
    have hx : a.contents[pos] = cell a.array a.dataSize pos := getElem_cells hpos
    rw [orderedPosition, h.load_eq (by omega), Option.bind_some, List.drop_eq_getElem_cons hpos, hx,
      List.takeWhile_cons]
    split_ifs with hgt hdec
    · rw [ih (by omega), List.length_cons]
      congr 1
      omega
    · exact absurd (decide_eq_true hgt) hdec
    · rename_i hdec
      exact absurd (of_decide_eq_true hdec) hgt
    · rfl

theorem law_insertSorted (h : a.Inv) {object : Option Mem} {compare : Option (Mem → Mem → ℤ)} :
    ListLaw a (.insertSorted object compare) heap ↔ CallSafe a (.insertSorted object compare,heap) := by
  cases object with
  | none => exact law_of_none h rfl (fun _ he => nomatch he) (by cases compare <;> rfl)
  | some o =>
    cases compare with
    | none => exact law_of_none h rfl (fun _ he => nomatch he) rfl
    | some compare =>
      have hpos : orderedPosition a (window o 0 a.dataSize) compare a.size 0 = _ :=
        orderedPosition_eq h.spans_size (Nat.add_zero a.size)
      rw [List.drop_zero, Nat.zero_add] at hpos
      have hle := (a.contents.takeWhile_prefix fun x => decide (compare (window o 0 a.dataSize) x > 0)).length_le
      rw [DynArray.length_contents] at hle
      refine law_of_insert (o := o) h hle trivial ?_ ?_
      · change dynArrayInsertSorted a (some o) (some compare) heap = _
        rw [dynArrayInsertSorted, hpos, Option.bind_some]
      · change some (ListOutcome.mk _ _ _) = _
        rw [insertIdx_takeWhile, List.orderedInsert_eq_take_drop]
        simp only [not_le, gt_iff_lt]

theorem erase_below {i : ℕ} (hi : i < a.size) (h : a.Inv) : i ≠ sizeMax := by
  have hle := h.size_le
  have hmax := h.capacity_le
  have hbound : dynMaxCapacity = 2 ^ 56 := rfl
  rw [sizeMax]
  omega

theorem contents_at (hp : p < a.size) : a.contents[p]? = some (cell a.array a.dataSize p) := by
  rw [DynArray.contents, getElem?_cells, if_pos hp]

theorem contents_out (hp : a.size ≤ p) : a.contents[p]? = none := by
  rw [DynArray.contents, getElem?_cells, if_neg (by omega)]

theorem contents_one (hp : p < a.size) : (a.contents.drop p).take 1 = [cell a.array a.dataSize p] := by
  have hl : p < a.contents.length := by rwa [DynArray.length_contents]
  rw [List.drop_eq_getElem_cons hl, List.take_succ_cons, List.take_zero]
  exact congrArg (fun x => [x]) (getElem_cells hl)

/-- The removal of one element by a call that is not refused. -/
theorem law_of_erase (h : a.Inv) (hp : p < a.size) (hins : ¬ call.inserts)
    (herase : ∀ index, call = .erase index → index.toNat = p)
    (hcall : dynCall a call heap = dynShiftRemove a p 1 .erase false)
    (hlist : listCall a.dataSize a.contents call = a.contents[p]?.map fun x => ⟨a.contents.eraseIdx p,[x],none⟩) :
    ListLaw a call heap ↔ CallSafe a (call,heap) := by
  rw [contents_at hp] at hlist
  refine law_of_remove hlist hins (fun index he => Or.inr ?_)
    (hcall.trans (shiftRemove_erase h Nat.one_ne_zero hp)) h.removed rfl rfl (contents_removed_one hp) ?_ rfl
  · rw [herase index he]
    exact erase_below hp h
  · rw [contents_one hp]

theorem law_of_extract (h : a.Inv) (hp : p < a.size) (hins : ¬ call.inserts) (herase : ∀ index, call ≠ .erase index)
    (hcall : dynCall a call heap = dynShiftRemove a p 1 .extract true)
    (hlist : listCall a.dataSize a.contents call =
      a.contents[p]?.map fun x => ⟨a.contents.eraseIdx p,[],some x⟩) :
    ListLaw a call heap ↔ CallSafe a (call,heap) := by
  rw [contents_at hp] at hlist
  exact law_of_remove hlist hins (fun index he => absurd he (herase index))
    (hcall.trans (shiftRemove_extract h hp)) h.removed rfl rfl (contents_removed_one hp) (ite_self _).symm rfl

theorem law_insert (h : a.Inv) {index : UInt64} {object : Option Mem} :
    ListLaw a (.insert index object) heap ↔ CallSafe a (.insert index object,heap) := by
  cases object with
  | none =>
    refine law_of_none h ?_ (fun _ he => nomatch he) rfl
    change (if _ then none else none) = none
    exact ite_self _
  | some o =>
    rcases Nat.lt_or_ge a.size index.toNat with hgt | hle
    · refine law_of_none h ?_ (fun _ he => nomatch he) (shiftInsert_range hgt)
      exact if_neg (by rw [DynArray.length_contents]; omega)
    · refine law_of_insert h hle trivial rfl ?_
      exact if_pos (by rwa [DynArray.length_contents])

theorem law_pushFront (h : a.Inv) {object : Option Mem} :
    ListLaw a (.pushFront object) heap ↔ CallSafe a (.pushFront object,heap) := by
  cases object with
  | none => exact law_of_none h rfl (fun _ he => nomatch he) rfl
  | some o => exact law_of_insert h (Nat.zero_le _) trivial rfl rfl

theorem law_pushBack (h : a.Inv) {object : Option Mem} :
    ListLaw a (.pushBack object) heap ↔ CallSafe a (.pushBack object,heap) := by
  cases object with
  | none => exact law_of_none h rfl (fun _ he => nomatch he) rfl
  | some o =>
    refine law_of_insert (o := o) h le_rfl trivial rfl ?_
    change some (ListOutcome.mk _ _ _) = _
    rw [← DynArray.length_contents (a := a), List.insertIdx_length_self]

theorem contents_nil (h0 : a.size = 0) : a.contents = [] :=
  List.length_eq_zero_iff.mp (by rwa [DynArray.length_contents])

theorem law_popFront (h : a.Inv) : ListLaw a .popFront heap ↔ CallSafe a (.popFront,heap) := by
  by_cases h0 : a.size = 0
  · refine law_of_none h ?_ (fun _ he => nomatch he) (shiftRemove_range (Or.inl h0))
    rw [contents_nil h0]
    rfl
  · refine law_of_erase h (Nat.pos_of_ne_zero h0) (fun hi => hi) (fun _ he => nomatch he) rfl ?_
    rw [List.eraseIdx_zero, ← List.head?_eq_getElem?]
    rfl

theorem law_extractFront (h : a.Inv) {object : Bool} :
    ListLaw a (.extractFront object) heap ↔ CallSafe a (.extractFront object,heap) := by
  cases object with
  | false => exact law_of_none h rfl (fun _ he => nomatch he) shiftRemove_extract_null
  | true =>
    by_cases h0 : a.size = 0
    · refine law_of_none h ?_ (fun _ he => nomatch he) (shiftRemove_range (Or.inl h0))
      rw [contents_nil h0]
      rfl
    · refine law_of_extract h (Nat.pos_of_ne_zero h0) (fun hi => hi) (fun _ he => nomatch he) rfl ?_
      rw [List.eraseIdx_zero, ← List.head?_eq_getElem?]
      rfl

theorem law_popBack (h : a.Inv) : ListLaw a .popBack heap ↔ CallSafe a (.popBack,heap) := by
  by_cases h0 : a.size = 0
  · refine law_of_none h ?_ (fun _ he => nomatch he) (if_neg (not_not_intro h0))
    rw [contents_nil h0]
    rfl
  · refine law_of_erase h (show a.size - 1 < a.size by omega) (fun hi => hi) (fun _ he => nomatch he) (if_pos h0) ?_
    rw [← DynArray.length_contents (a := a), List.eraseIdx_length_sub_one, ← List.getLast?_eq_getElem?]
    rfl

theorem law_extractBack (h : a.Inv) {object : Bool} :
    ListLaw a (.extractBack object) heap ↔ CallSafe a (.extractBack object,heap) := by
  by_cases h0 : a.size = 0
  · refine law_of_none h ?_ (fun _ he => nomatch he) (if_neg (not_not_intro h0))
    rw [contents_nil h0]
    cases object <;> rfl
  cases object with
  | false => exact law_of_none h rfl (fun _ he => nomatch he) ((if_pos h0).trans shiftRemove_extract_null)
  | true =>
    refine law_of_extract h (show a.size - 1 < a.size by omega) (fun hi => hi) (fun _ he => nomatch he)
      (if_pos h0) ?_
    rw [← DynArray.length_contents (a := a), List.eraseIdx_length_sub_one, ← List.getLast?_eq_getElem?]
    rfl

theorem law_extract (h : a.Inv) {index : UInt64} {object : Bool} :
    ListLaw a (.extract index object) heap ↔ CallSafe a (.extract index object,heap) := by
  cases object with
  | false => exact law_of_none h rfl (fun _ he => nomatch he) rfl
  | true =>
    rcases Nat.lt_or_ge index.toNat a.size with hlt | hge
    · exact law_of_extract h hlt (fun hi => hi) (fun _ he => nomatch he) (if_pos ⟨rfl,hlt⟩) rfl
    · refine law_of_none h ?_ (fun _ he => nomatch he) (if_neg (by omega))
      change Option.map _ a.contents[index.toNat]? = none
      rw [contents_out hge]
      rfl

theorem law_erase (h : a.Inv) {index : UInt64} :
    ListLaw a (.erase index) heap ↔ CallSafe a (.erase index,heap) := by
  by_cases hwrap : a.size ≠ 0 ∧ index.toNat = sizeMax
  · refine iff_of_false ?_ (fun hs => hs.1 ⟨hwrap.1,index,rfl,hwrap.2⟩)
    rintro ⟨out,hout,_⟩
    have hcall : dynShiftRemove a index.toNat 1 .erase false = some out := hout
    rw [hwrap.2, shiftRemove_wraps h hwrap.1] at hcall
    cases hcall
  rcases Nat.lt_or_ge index.toNat a.size with hlt | hge
  · refine law_of_erase h hlt (fun hi => hi) (fun i he => ?_) rfl rfl
    cases he
    rfl
  · have hmax := index.toNat_lt
    have hin : a.size = 0 ∨ index.toNat ≠ sizeMax := by
      by_contra hno
      push Not at hno
      exact hwrap hno
    refine law_of_none h ?_ (fun i he => ?_) (shiftRemove_range ?_)
    · change Option.map _ a.contents[index.toNat]? = none
      rw [contents_out hge]
      rfl
    · cases he
      exact hin
    · rw [sizeMax] at hin
      omega

theorem law_clear (h : a.Inv) : ListLaw a .clear heap ↔ CallSafe a (.clear,heap) := by
  by_cases h0 : a.size = 0
  · refine law_of_remove rfl (fun hi => hi) (fun _ he => nomatch he) (if_neg (not_not_intro h0)) h rfl rfl
      (contents_nil h0) ?_ rfl
    rw [contents_nil h0, ite_self]
  · refine law_of_remove rfl (fun hi => hi) (fun _ he => nomatch he)
      ((if_pos h0).trans (shiftRemove_erase h h0 (by omega))) h.removed rfl rfl ?_ ?_ rfl
    · rw [contents_removed (by omega), List.take_zero, Nat.zero_add, List.nil_append]
      exact List.drop_eq_nil_of_le (by rw [DynArray.length_contents])
    · rw [List.drop_zero, List.take_of_length_le (by rw [DynArray.length_contents])]

theorem DynArray.Inv.law (h : a.Inv) (call : DynCall) (heap : Heap) :
    ListLaw a call heap ↔ CallSafe a (call,heap) := by
  cases call with
  | pushFront _ => exact law_pushFront h
  | pushBack _ => exact law_pushBack h
  | insert _ _ => exact law_insert h
  | insertSorted _ _ => exact law_insertSorted h
  | popFront => exact law_popFront h
  | popBack => exact law_popBack h
  | erase _ => exact law_erase h
  | extract _ _ => exact law_extract h
  | extractFront _ => exact law_extractFront h
  | extractBack _ => exact law_extractBack h
  | clear => exact law_clear h

theorem dynStep_inv {action : DynCall × Heap} (h : a.Inv) (hs : CallSafe a action) (hb : dynStep a action = some b) :
    b.Inv ∧ b.dataSize = a.dataSize := by
  obtain ⟨out,hout,hinv,hd,_⟩ := (h.law action.1 action.2).mpr hs
  rw [dynStep, hout] at hb
  cases hb
  exact ⟨hinv,hd⟩

theorem DynArray.Inv.views (h : a.Inv) : Views a := by
  have hle := h.size_le
  refine ⟨DynArray.length_contents.symm,?_,fun p hp k hk => ?_,?_,?_,fun index => ?_⟩
  · rw [Bool.eq_iff_iff, dynArrayEmpty, beq_iff_eq, List.isEmpty_iff_length_eq_zero, DynArray.length_contents]
    rfl
  · have hp : (if a.size ≠ 0 then some 0 else none) = some p := hp
    rw [if_pos (by omega)] at hp
    obtain rfl := Option.some.inj hp
    rw [Nat.zero_add, ← h.position_eq (by omega), h.load_eq (by omega), contents_at hk]
  · by_cases h0 : a.size = 0
    · rw [dynArrayFront, if_neg (not_not_intro h0), contents_nil h0]
      rfl
    · have hload := h.load_eq (show 0 < a.capacity by omega)
      rw [h.position_eq (Nat.zero_le _), Nat.zero_mul] at hload
      rw [dynArrayFront, if_pos h0, List.head?_eq_getElem?, contents_at (Nat.pos_of_ne_zero h0), Option.map_some, hload]
      rfl
  · by_cases h0 : a.size = 0
    · rw [dynArrayBack, if_neg (not_not_intro h0), contents_nil h0]
      rfl
    · rw [dynArrayBack, if_pos h0, List.getLast?_eq_getElem?, DynArray.length_contents,
        contents_at (show a.size - 1 < a.size by omega), Option.map_some, h.load_eq (by omega)]
      rfl
  · rw [dynArrayAt]
    split_ifs with hi
    · rw [contents_at hi, Option.map_some, h.load_eq (by omega)]
      rfl
    · rw [contents_out (by omega)]
      rfl

/-- For every array that `dyn_array_create` makes with room for its capacity, and after any safe calls: the
pointers show the list, and a call does what it does to the list if and only if it is safe. -/
theorem dyn_array_list {capacity dataSize : UInt64} {destructor granted : Bool} {heap : Heap} {a₀ a : DynArray}
    (hc : dynArrayCreate capacity.toNat dataSize.toNat destructor granted heap = some (some a₀))
    (hfit : a₀.capacity * dataSize.toNat < 2 ^ 64) (hr : Reach dynStep CallSafe a₀ a) :
    a₀.contents = [] ∧ a.dataSize = dataSize.toNat ∧ a.size ≤ a.capacity ∧ Views a ∧
    ∀ call heap, ListLaw a call heap ↔ CallSafe a (call,heap) := by
  obtain ⟨h0,hnil,hd0⟩ := inv_of_create hc hfit
  have hinv : a.Inv ∧ a.dataSize = dataSize.toNat := by
    refine Reach.invariant (P := fun b => b.Inv ∧ b.dataSize = dataSize.toNat) hr ⟨h0,hd0⟩ fun hi hg hs => ?_
    obtain ⟨hb,hd⟩ := dynStep_inv hi.1 hg hs
    exact ⟨hb,hd.trans hi.2⟩
  exact ⟨hnil,hinv.2,hinv.1.size_le,hinv.1.views,hinv.1.law⟩

/-- The array that `dyn_array_create(0, 1, NULL)` makes in zeroed memory, and it with one zero in it. -/
def smallArray : DynArray := ⟨16,0,1,zeros,16,false⟩

def smallArrayOne : DynArray := smallArray.inserted 0 1 zeros

theorem smallArray_create : dynArrayCreate 0 1 false true (fun _ => some zeros) = some (some smallArray) := rfl

theorem smallArray_push : dynStep smallArray (.pushBack (some zeros),fun _ => some zeros) = some smallArrayOne := by
  obtain ⟨h0,_⟩ := inv_of_create smallArray_create (by decide)
  have hpush : dynShiftInsert smallArray 0 1 .insert (some zeros) (fun _ => some zeros) = _ :=
    shiftInsert_granted Nat.one_ne_zero le_rfl h0 rfl (by decide) (h0.request_room (by decide))
  exact congrArg (Option.map DynOutcome.array) hpush

theorem smallArray_safe : CallSafe smallArray (.pushBack (some zeros),fun _ => some zeros) :=
  ⟨fun h => h.1 rfl,fun h => absurd h.2.2.1 (by decide)⟩

/-- The executable counterpart of `CallSafe`, for arrays of few bytes. -/
def safeCheck (a : DynArray) (action : DynCall × Heap) : Bool :=
  (match action.1 with
    | .erase index => index.toNat != sizeMax
    | _ => true) && decide (a.capacity * 2 * a.dataSize < 2 ^ 64)

theorem callSafe_of_check (a : DynArray) (action : DynCall × Heap) (h : safeCheck a action = true) : CallSafe a action := by
  obtain ⟨hcall,hfit⟩ := Bool.and_eq_true_iff.mp h
  refine ⟨?_,fun hw => ?_⟩
  · rintro ⟨_,index,he,hi⟩
    rw [he] at hcall
    exact absurd hi (bne_iff_ne.mp hcall)
  · have hfit := of_decide_eq_true hfit
    have hwrap := hw.2.2.2.2.1
    omega

def byteOf (v : UInt8) : Mem := fun _ => v

def firstByte (x : Mem) : ℕ := (x 0).toNat

def bytesOf (a : DynArray) : List ℕ := a.contents.map firstByte

def threePushes : List (DynCall × Heap) :=
  [(.pushBack (some (byteOf 5)),fun _ => none),(.pushBack (some (byteOf 3)),fun _ => none),
    (.pushFront (some (byteOf 9)),fun _ => none)]

/-- In the array of 9, 5 and 3 an element in the middle is erased and one is put at the end, but an erasure at
`SIZE_MAX` is not what it is for a list. -/
theorem dyn_array_list_three : ∃ a, run dynStep smallArray threePushes = some a ∧ bytesOf a = [9,5,3] ∧ Views a ∧
    ListLaw a (.erase 1) (fun _ => none) ∧ ListLaw a (.insert 3 (some (byteOf 4))) (fun _ => none) ∧
    ¬ ListLaw a (.erase 18446744073709551615) (fun _ => none) := by
  have hrun : (run (checked safeCheck dynStep) smallArray threePushes).map (fun a => (bytesOf a,a.size,
      safeCheck a (.erase 1,fun _ => none) && safeCheck a (.insert 3 (some (byteOf 4)),fun _ => none))) =
      some ([9,5,3],3,true) := by decide +kernel
  obtain ⟨a,ha,hr⟩ := Option.map_eq_some_iff.mp hrun
  obtain ⟨hbytes,hr⟩ := Prod.mk.inj hr
  obtain ⟨hsize,hsafe⟩ := Prod.mk.inj hr
  obtain ⟨herase,hinsert⟩ := Bool.and_eq_true_iff.mp hsafe
  have hc : dynArrayCreate (0 : UInt64).toNat (1 : UInt64).toNat false true (fun _ => some zeros) = _ :=
    smallArray_create
  obtain ⟨_,_,_,hviews,hlaw⟩ := dyn_array_list hc (by decide) (reach_of_checked_run callSafe_of_check ha)
  refine ⟨a,run_of_checked ha,hbytes,hviews,(hlaw _ _).mpr (callSafe_of_check a _ herase),
    (hlaw _ _).mpr (callSafe_of_check a _ hinsert),fun h => ((hlaw _ _).mp h).1 ⟨?_,_,rfl,by decide⟩⟩
  rw [hsize]
  decide

/-- Erasing at `SIZE_MAX` from an array of one element. -/
theorem dyn_array_list_fails : ¬ ∀ (capacity dataSize : UInt64) (destructor granted : Bool) (heap : Heap)
    (a₀ a : DynArray), dynArrayCreate capacity.toNat dataSize.toNat destructor granted heap = some (some a₀) →
    Reach dynStep (fun _ _ => True) a₀ a → ∀ call heap, ListLaw a call heap := by
  intro h
  obtain ⟨h0,_⟩ := inv_of_create smallArray_create (by decide)
  have hone : smallArrayOne.Inv := h0.inserted (by decide)
  have hr : Reach dynStep (fun _ _ => True) smallArray smallArrayOne := Reach.refl.tail trivial smallArray_push
  obtain ⟨out,hout,_⟩ := h 0 1 false true _ _ _ smallArray_create hr (.erase 18446744073709551615) (fun _ => none)
  have hcall : dynShiftRemove smallArrayOne sizeMax 1 .erase false = some out := hout
  rw [shiftRemove_wraps hone (by decide)] at hcall
  cases hcall

end LiteOSFS
