import LiteOSFS.Properties.DynRefinement
import Mathlib.Data.List.TakeWhile

/-! # Sorted insertion

Whatever the capacity and the number of bytes are, a call of `dyn_array_insert_sorted` that succeeds
has found room for all elements and one more, and puts the object behind those that come before it
and in front of its equals. Where the number of bytes does not wrap, it succeeds just when memory is
granted.
-/
namespace LiteOSFS
open Memory

/-- The comparison function orders the objects, with ties. -/
structure TotalPreorder (compare : Mem → Mem → ℤ) : Prop where
  total : ∀ x y, compare x y ≤ 0 ∨ compare y x ≤ 0
  trans : ∀ x y z, compare x y ≤ 0 → compare y z ≤ 0 → compare x z ≤ 0

def InOrder (compare : Mem → Mem → ℤ) (l : List Mem) : Prop := l.Pairwise (fun x y => compare x y ≤ 0)

/-- The elements are in the buffer, and their size is a `size_t` that is not 0. -/
structure DynArray.Held (a : DynArray) : Prop where
  spans : a.Spans a.size
  dataSize_pos : 0 < a.dataSize
  dataSize_lt : a.dataSize < 2 ^ 64

/-- `x` is put behind the elements that come before it, and in front of its equals and of those after it. -/
structure PutInOrder (compare : Mem → Mem → ℤ) (l : List Mem) (x : Mem) (l' : List Mem) : Prop where
  sorted : InOrder compare l'
  perm : l'.Perm (x :: l)
  placed : ∃ before after, l = before ++ after ∧ l' = before ++ x :: after ∧ ∀ y ∈ before, 0 < compare x y

/-- Calls of `dyn_array_insert_sorted` one after another, with the objects that were taken. -/
def insertAll (compare : Mem → Mem → ℤ) : DynArray → List (Mem × Heap) → Option (DynArray × List Mem)
  | a, [] => some (a,[])
  | a, (object,heap) :: calls =>
    (dynArrayInsertSorted a (some object) (some compare) heap).bind fun out =>
      (insertAll compare out.array calls).map fun (b,taken) =>
        (b,if out.ret then window object 0 a.dataSize :: taken else taken)

/-- The objects of the calls, as elements of `w` bytes. -/
def objectsOf (w : ℕ) (calls : List (Mem × Heap)) : List Mem := calls.map fun call => window call.1 0 w

/-- Each call finds memory should it need some, and no growth wraps its number of bytes. -/
def GrantedAll (compare : Mem → Mem → ℤ) : DynArray → List (Mem × Heap) → Prop
  | _, [] => True
  | a, (object,heap) :: calls => ¬ MemoryRefused a heap ∧ ¬ GrowthWraps a heap ∧
      ∀ out, dynArrayInsertSorted a (some object) (some compare) heap = some out → GrantedAll compare out.array calls

section Insertion
variable {a b : DynArray} {p : ℕ} {o : Mem} {heap : Heap} {out : DynOutcome} {compare : Mem → Mem → ℤ}

theorem DynArray.Held.size_lt (h : a.Held) : a.size < 2 ^ 64 := by
  have hle := Nat.le_mul_of_pos_right a.size h.dataSize_pos
  have hin := h.spans.inside
  have hlt := h.spans.allocated_lt
  omega

/-- A request that is granted keeps the elements as far as the buffer then goes. -/
theorem request_granted (hlt : a.allocated < 2 ^ 64) {c : ℕ} (hr : dynRequestSizeIncrease a c heap = some (true,b)) :
    b.size = a.size ∧ b.dataSize = a.dataSize ∧ b.allocated < 2 ^ 64 ∧
      ∀ x, x < a.allocated → x < b.allocated → b.array x = a.array x := by
  rw [dynRequestSizeIncrease] at hr
  split_ifs at hr
  · cases hr
    exact ⟨rfl,rfl,hlt,fun _ _ _ => rfl⟩
  · obtain ⟨newCapacity,_,hr⟩ := Option.bind_eq_some_iff.mp hr
    obtain ⟨answer,hanswer,hb⟩ := Option.map_eq_some_iff.mp hr
    cases answer with
    | none => cases hb
    | some newArray =>
      cases hb
      refine ⟨rfl,rfl,sizeMod_lt _,fun x hx hx' => ?_⟩
      rw [DynArray.realloc] at hanswer
      split_ifs at hanswer
      obtain ⟨junk,_,rfl⟩ := Option.map_eq_some_iff.mp (Option.some.inj hanswer)
      exact copyIn_inside (Nat.zero_le x) (by rw [Nat.zero_add]; exact lt_min hx' hx)
  · cases hr

theorem request_refused {c : ℕ} (hr : dynRequestSizeIncrease a c heap = some (false,b)) : b = a := by
  rw [dynRequestSizeIncrease] at hr
  split_ifs at hr
  · cases hr
  · obtain ⟨_,_,hr⟩ := Option.bind_eq_some_iff.mp hr
    obtain ⟨answer,_,hb⟩ := Option.map_eq_some_iff.mp hr
    cases answer with
    | none =>
      cases hb
      rfl
    | some _ => cases hb
  · cases hr
    rfl

/-- Where the moves of an insertion stay in the buffer, it has room for one element more. -/
theorem spans_of_moved (h : a.Held) (hp : p ≤ a.size) (hsize : b.size = a.size) (hd : b.dataSize = a.dataSize)
    (hlt : b.allocated < 2 ^ 64) {b₁ b₂ : DynArray} (hgap : b.openGap p 1 = some b₁)
    (hcopy : b₁.memcpy (b₁.position p) o (b₁.sizeNElems 1) = some b₂) : b.Spans (b.size + 1) := by
  have hposition : ∀ i ≤ a.size, b.position i = i * b.dataSize := by
    intro i hi
    have he : a.position i = i * a.dataSize := h.spans.position_eq hi
    rwa [DynArray.position, ← hd] at he
  have helems : ∀ i ≤ a.size, b.sizeNElems i = i * b.dataSize := by
    intro i hi
    rw [DynArray.sizeNElems, Nat.mul_comm]
    exact hposition i hi
  refine ⟨?_,hlt⟩
  rw [hsize, Nat.succ_mul]
  rw [DynArray.openGap] at hgap
  split_ifs at hgap with hne
  · -- the elements from `p` on end where one more does
    rw [DynArray.memmove, Option.ite_none_right_eq_some] at hgap
    have hsize64 := h.size_lt
    obtain ⟨⟨hdst,_⟩,_⟩ := hgap
    rw [sizeMod_eq (by omega), hposition (p + 1) (by omega), helems _ (by omega), ← Nat.add_mul, hsize,
      show p + 1 + (a.size - p) = a.size + 1 by omega, Nat.succ_mul] at hdst
    exact hdst
  · cases hgap
    rw [DynArray.memcpy, Option.ite_none_right_eq_some] at hcopy
    obtain ⟨hdst,_⟩ := hcopy
    have hone : b.sizeNElems 1 = b.dataSize := by
      rw [DynArray.sizeNElems, Nat.mul_one, hd]
      exact sizeMod_eq h.dataSize_lt
    rw [hposition p hp, hone, show p = a.size by omega] at hdst
    exact hdst

/-- An insertion that succeeds is one into an array with the same elements and room for one more. -/
theorem shiftInsert_ret (h : a.Held) (hp : p ≤ a.size) (hout : dynShiftInsert a p 1 .insert (some o) heap = some out)
    (hret : out.ret = true) : ∃ b : DynArray, b.Spans (b.size + 1) ∧ b.size = a.size ∧ b.dataSize = a.dataSize ∧
      b.contents = a.contents ∧ out.array = b.inserted p 1 o := by
  rw [dynShiftInsert, if_pos ⟨Nat.one_ne_zero,rfl,hp⟩] at hout
  obtain ⟨⟨granted,b⟩,hreq,hout⟩ := Option.bind_eq_some_iff.mp hout
  cases granted with
  | false =>
    cases hout
    cases hret
  | true =>
    simp only [if_true] at hout
    obtain ⟨b₁,hgap,hout⟩ := Option.bind_eq_some_iff.mp hout
    obtain ⟨b₂,hcopy,rfl⟩ := Option.map_eq_some_iff.mp hout
    obtain ⟨hsize,hd,hlt,hkept⟩ := request_granted h.spans.allocated_lt hreq
    have hspans := spans_of_moved h hp hsize hd hlt hgap hcopy
    have hsum : b.size + 1 < 2 ^ 64 := by
      have hpos := h.dataSize_pos
      have hle := Nat.le_mul_of_pos_right (b.size + 1) (hd ▸ hpos)
      have hin := hspans.inside
      omega
    refine ⟨b,hspans,hsize,hd,?_,?_⟩
    · rw [DynArray.contents, DynArray.contents, hsize, hd]
      refine cells_congr (fun i hi => window_congr (fun x _ hx => hkept x ?_ ?_))
      · have hle := h.spans.mul_le (show i + 1 ≤ a.size by omega)
        rw [Nat.succ_mul] at hle
        omega
      · have hle := hspans.mul_le (show i + 1 ≤ b.size + 1 by omega)
        rw [Nat.succ_mul, hd] at hle
        omega
    · rw [openGap_eq hspans (by omega) (by omega) le_rfl] at hgap
      cases hgap
      have hmoved : ∀ m, DynArray.Spans { b with array := m } (b.size + 1) :=
        fun m => ⟨hspans.inside,hspans.allocated_lt⟩
      rw [(hmoved _).memcpy_eq (by omega)] at hcopy
      cases hcopy
      simp only [sizeMod_eq hsum]
      rfl

theorem held_inserted (h : a.Held) (hspans : b.Spans (b.size + 1)) (hd : b.dataSize = a.dataSize) :
    (b.inserted p 1 o).Held := by
  refine ⟨⟨hspans.inside,hspans.allocated_lt⟩,?_,?_⟩
  · change 0 < b.dataSize
    rw [hd]
    exact h.dataSize_pos
  · change b.dataSize < 2 ^ 64
    rw [hd]
    exact h.dataSize_lt

/-- The list that has the object at the place that the loop finds. -/
theorem putInOrder_orderedInsert (hc : TotalPreorder compare) {l : List Mem} (hl : InOrder compare l) (x : Mem) :
    PutInOrder compare l x (l.insertIdx (l.takeWhile fun y => decide (compare x y > 0)).length x) := by
  have htotal : Std.Total (fun y z => compare y z ≤ 0) := ⟨hc.total⟩
  have htrans : IsTrans Mem (fun y z => compare y z ≤ 0) := ⟨hc.trans⟩
  have he : l.insertIdx (l.takeWhile fun y => decide (compare x y > 0)).length x =
      l.orderedInsert (fun y z => compare y z ≤ 0) x := by
    rw [insertIdx_takeWhile, List.orderedInsert_eq_take_drop]
    simp only [not_le, gt_iff_lt]
  refine ⟨?_,?_,l.takeWhile fun y => decide (compare x y > 0),l.dropWhile fun y => decide (compare x y > 0),
    List.takeWhile_append_dropWhile.symm,insertIdx_takeWhile l,fun y hy => ?_⟩
  · rw [he]
    exact List.Pairwise.orderedInsert x l hl
  · rw [he]
    exact List.perm_orderedInsert _ x l
  · have hgt := List.mem_takeWhile_imp hy
    exact of_decide_eq_true hgt

theorem insertSorted_eq (h : a.Held) : dynArrayInsertSorted a (some o) (some compare) heap =
    dynShiftInsert a (a.contents.takeWhile fun y => decide (compare (window o 0 a.dataSize) y > 0)).length 1 .insert
      (some o) heap := by
  have hpos : orderedPosition a (window o 0 a.dataSize) compare a.size 0 = _ :=
    orderedPosition_eq h.spans (Nat.add_zero a.size)
  rw [List.drop_zero, Nat.zero_add] at hpos
  rw [dynArrayInsertSorted, hpos, Option.bind_some]

/-- One call that succeeds. -/
theorem insertSorted_ret (hc : TotalPreorder compare) (h : a.Held) (hs : InOrder compare a.contents)
    (hout : dynArrayInsertSorted a (some o) (some compare) heap = some out) (hret : out.ret = true) :
    PutInOrder compare a.contents (window o 0 a.dataSize) out.array.contents ∧ out.array.Held ∧
      out.array.dataSize = a.dataSize := by
  have hle := (a.contents.takeWhile_prefix fun y => decide (compare (window o 0 a.dataSize) y > 0)).length_le
  rw [DynArray.length_contents] at hle
  rw [insertSorted_eq h] at hout
  obtain ⟨b,hspans,hsize,hd,hcontents,he⟩ := shiftInsert_ret h hle hout hret
  rw [he, contents_inserted_one (hsize ▸ hle), hcontents, hd]
  exact ⟨putInOrder_orderedInsert hc hs _,held_inserted h hspans hd,hd⟩

/-- A call that fails changes nothing. -/
theorem insertSorted_fail (h : a.Held) (hout : dynArrayInsertSorted a (some o) (some compare) heap = some out)
    (hret : out.ret = false) : out.array = a := by
  rw [insertSorted_eq h, dynShiftInsert] at hout
  split_ifs at hout
  · obtain ⟨⟨granted,b⟩,hreq,hout⟩ := Option.bind_eq_some_iff.mp hout
    cases granted with
    | false =>
      cases hout
      exact request_refused hreq
    | true =>
      simp only [if_true] at hout
      obtain ⟨_,_,hout⟩ := Option.bind_eq_some_iff.mp hout
      obtain ⟨_,_,rfl⟩ := Option.map_eq_some_iff.mp hout
      cases hret
  · cases hout
    rfl

theorem insertAll_sorted (hc : TotalPreorder compare) {calls : List (Mem × Heap)} {taken : List Mem} (h : a.Held)
    (hs : InOrder compare a.contents) (hr : insertAll compare a calls = some (b,taken)) :
    InOrder compare b.contents ∧ b.contents.Perm (a.contents ++ taken) := by
  induction calls generalizing a taken with
  | nil =>
    cases hr
    exact ⟨hs,by rw [List.append_nil]⟩
  | cons call calls ih =>
    obtain ⟨object,heap⟩ := call
    obtain ⟨out,hout,hr⟩ := Option.bind_eq_some_iff.mp hr
    obtain ⟨⟨b',rest⟩,hrest,he⟩ := Option.map_eq_some_iff.mp hr
    obtain ⟨rfl,rfl⟩ := Prod.mk.inj he
    cases hret : out.ret with
    | false =>
      rw [insertSorted_fail h hout hret] at hrest
      simpa [hret] using ih h hs hrest
    | true =>
      obtain ⟨hput,hheld,_⟩ := insertSorted_ret hc h hs hout hret
      obtain ⟨hsorted,hperm⟩ := ih hheld hput.sorted hrest
      refine ⟨hsorted,?_⟩
      rw [if_pos rfl]
      have hfirst : (out.array.contents ++ rest).Perm (window object 0 a.dataSize :: (a.contents ++ rest)) :=
        hput.perm.append_right rest
      exact hperm.trans (hfirst.trans List.perm_middle.symm)

theorem held_of_create {capacity dataSize : ℕ} (hd : dataSize < 2 ^ 64) {destructor granted : Bool}
    (hc : dynArrayCreate capacity dataSize destructor granted heap = some (some a)) : a.Held ∧ a.contents = [] := by
  rcases dynArrayCreate_spec capacity dataSize destructor granted heap with hnone | ⟨k,_,array,hne,_,_,he⟩
  · rw [hnone] at hc
    cases hc
  · rw [he] at hc
    cases hc
    exact ⟨⟨⟨(Nat.zero_mul _).le.trans (Nat.zero_le _),sizeMod_lt _⟩,Nat.pos_of_ne_zero hne,hd⟩,rfl⟩

/-- A call on an array whose bytes have not wrapped succeeds just when memory is granted. -/
theorem insertSorted_granted (h : a.Inv) (o : Mem) (compare : Mem → Mem → ℤ) (hw : ¬ GrowthWraps a heap) :
    ∃ out, dynArrayInsertSorted a (some o) (some compare) heap = some out ∧ (out.ret = true ↔ ¬ MemoryRefused a heap) ∧
      out.array.Inv ∧ out.array.dataSize = a.dataSize := by
  have hlist : listCall a.dataSize a.contents (.insertSorted (some o) (some compare)) = some _ := rfl
  have hinserts : (DynCall.insertSorted (some o) (some compare)).inserts := trivial
  have hsafe := (callSafe_insert hinserts hlist).mpr hw
  obtain ⟨out,hout,hinv,hd,hlaw⟩ := (law_insertSorted h).mpr hsafe
  rw [hlist] at hlaw
  obtain ⟨hrefuse,hgrant⟩ := hlaw
  refine ⟨out,hout,⟨fun hret hm => ?_,fun hm => (hgrant (fun hc => hm hc.2)).1⟩,hinv,hd⟩
  rw [hrefuse ⟨trivial,hm⟩] at hret
  cases hret

theorem insertAll_granted {calls : List (Mem × Heap)} (h : a.Inv) (hg : GrantedAll compare a calls) :
    ∃ b, insertAll compare a calls = some (b,objectsOf a.dataSize calls) := by
  induction calls generalizing a with
  | nil => exact ⟨a,rfl⟩
  | cons call calls ih =>
    obtain ⟨object,heap⟩ := call
    obtain ⟨hm,hw,hrest⟩ := hg
    obtain ⟨out,hout,hret,hinv,hd⟩ := insertSorted_granted h object compare hw
    obtain ⟨b,hb⟩ := ih hinv (hrest out hout)
    refine ⟨b,?_⟩
    rw [insertAll, hout, Option.bind_some, hb, Option.map_some, hret.mpr hm, hd]
    rfl

end Insertion

/-- For every comparison function that is a total preorder: a call that succeeds on an array in order puts the object
in front of its equals and keeps the order, a call succeeds just when memory is granted, and calls one after
another on a new array leave the objects that were taken, which are all objects when memory is granted, in order. -/
theorem sorted_insertion {compare : Mem → Mem → ℤ} (hc : TotalPreorder compare) :
    (∀ (a : DynArray) (object : Mem) (heap : Heap) (out : DynOutcome), a.Held → InOrder compare a.contents →
      dynArrayInsertSorted a (some object) (some compare) heap = some out → out.ret = true →
      PutInOrder compare a.contents (window object 0 a.dataSize) out.array.contents ∧ out.array.Held) ∧
    (∀ (a : DynArray) (object : Mem) (heap : Heap), a.Inv → ¬ GrowthWraps a heap →
      ∃ out, dynArrayInsertSorted a (some object) (some compare) heap = some out ∧
        (out.ret = true ↔ ¬ MemoryRefused a heap)) ∧
    ∀ (capacity dataSize : UInt64) (destructor granted : Bool) (heap : Heap) (a₀ : DynArray) (calls : List (Mem × Heap)),
      dynArrayCreate capacity.toNat dataSize.toNat destructor granted heap = some (some a₀) →
      (∀ b taken, insertAll compare a₀ calls = some (b,taken) → InOrder compare b.contents ∧ b.contents.Perm taken) ∧
      (a₀.capacity * dataSize.toNat < 2 ^ 64 → GrantedAll compare a₀ calls →
        ∃ b, insertAll compare a₀ calls = some (b,objectsOf dataSize.toNat calls) ∧ InOrder compare b.contents ∧
          b.contents.Perm (objectsOf dataSize.toNat calls)) := by
  refine ⟨fun a object heap out h hs hout hret => ?_,fun a object heap h hw => ?_,
    fun capacity dataSize _ _ _ a₀ calls hmade => ?_⟩
  · obtain ⟨hput,hheld,_⟩ := insertSorted_ret hc h hs hout hret
    exact ⟨hput,hheld⟩
  · obtain ⟨out,hout,hret,_⟩ := insertSorted_granted h object compare hw
    exact ⟨out,hout,hret⟩
  · obtain ⟨hheld,hnil⟩ := held_of_create dataSize.toNat_lt hmade
    have hempty : InOrder compare a₀.contents := by
      rw [hnil]
      exact List.Pairwise.nil
    have hall : ∀ b taken, insertAll compare a₀ calls = some (b,taken) →
        InOrder compare b.contents ∧ b.contents.Perm taken := by
      intro b taken hr
      have hsorted := insertAll_sorted hc hheld hempty hr
      rwa [hnil] at hsorted
    refine ⟨hall,fun hfit hg => ?_⟩
    obtain ⟨hinv,_,hd⟩ := inv_of_create hmade hfit
    obtain ⟨b,hb⟩ := insertAll_granted hinv hg
    rw [hd] at hb
    exact ⟨b,hb,hall b _ hb⟩

/-- The comparison of objects by their first byte. -/
def compareFirst (x y : Mem) : ℤ := (x 0).toNat - (y 0).toNat

theorem compareFirst_preorder : TotalPreorder compareFirst := by
  constructor
  · intro x y
    unfold compareFirst
    omega
  · intro x y z
    unfold compareFirst
    omega

/-- The executable counterpart of `GrantedAll`. -/
def grantedBy (compare : Mem → Mem → ℤ) : DynArray → List (Mem × Heap) → Bool
  | _, [] => true
  | a, (object,heap) :: calls => (a.size != a.capacity || decide (a.size < dynMaxCapacity) && (heap (growBytes a)).isSome &&
      decide (a.capacity * 2 * a.dataSize < 2 ^ 64)) &&
      (dynArrayInsertSorted a (some object) (some compare) heap).all fun out => grantedBy compare out.array calls

theorem grantedAll_of_check {compare : Mem → Mem → ℤ} {a : DynArray} {calls : List (Mem × Heap)}
    (h : grantedBy compare a calls = true) : GrantedAll compare a calls := by
  induction calls generalizing a with
  | nil => trivial
  | cons call calls ih =>
    obtain ⟨object,heap⟩ := call
    obtain ⟨hroom,hall⟩ := Bool.and_eq_true_iff.mp h
    simp only [Bool.or_eq_true, Bool.and_eq_true, bne_iff_ne, ne_eq, decide_eq_true_eq] at hroom
    refine ⟨?_,?_,fun out hout => ih ?_⟩
    · rintro ⟨hfull,hno⟩
      obtain ⟨⟨hmax,hsome⟩,_⟩ := hroom.resolve_left (not_not_intro hfull)
      rcases hno with hno | hno
      · omega
      · rw [hno] at hsome
        cases hsome
    · rintro ⟨hfull,_,hwrap,_⟩
      obtain ⟨_,hfit⟩ := hroom.resolve_left (not_not_intro hfull)
      omega
    · rwa [hout] at hall

/-- An object of two bytes. -/
def pairOf (first second : UInt8) : Mem := fun i => if i = 0 then first else second

/-- The array that `dyn_array_create(0, 2, NULL)` makes in zeroed memory. -/
def pairArray : DynArray := ⟨16,0,2,zeros,32,false⟩

theorem pairArray_create : dynArrayCreate 0 2 false true (fun _ => some zeros) = some (some pairArray) := rfl

/-- Seventeen objects, of which many are equal and the last finds the array full. -/
def seventeenPairs : List (Mem × Heap) := (List.range 17).map fun i =>
  (pairOf (UInt8.ofNat (i * 5 % 7)) (UInt8.ofNat i),fun _ => some zeros)

/-- All seventeen are in the array, in order, and equal ones stand the other way round. -/
theorem sorted_insertion_pairs : ∃ b, insertAll compareFirst pairArray seventeenPairs =
      some (b,objectsOf 2 seventeenPairs) ∧ InOrder compareFirst b.contents ∧ b.contents.Perm (objectsOf 2 seventeenPairs) ∧
    b.capacity = 32 ∧ b.contents.map (fun x => ((x 0).toNat,(x 1).toNat)) = [(0,14),(0,7),(0,0),(1,10),(1,3),(2,13),(2,6),
      (3,16),(3,9),(3,2),(4,12),(4,5),(5,15),(5,8),(5,1),(6,11),(6,4)] := by
  have hgrant : grantedBy compareFirst pairArray seventeenPairs = true := by decide +kernel
  have hrun : (insertAll compareFirst pairArray seventeenPairs).map (fun r =>
      (r.1.capacity,r.1.contents.map (fun x => ((x 0).toNat,(x 1).toNat)))) = some (32,[(0,14),(0,7),(0,0),(1,10),(1,3),
        (2,13),(2,6),(3,16),(3,9),(3,2),(4,12),(4,5),(5,15),(5,8),(5,1),(6,11),(6,4)]) := by decide +kernel
  obtain ⟨b,hb,hsorted,hperm⟩ := ((sorted_insertion compareFirst_preorder).2.2 0 2 false true _ _ _ pairArray_create).2
    (by decide) (grantedAll_of_check hgrant)
  have hb' : insertAll compareFirst pairArray seventeenPairs = some (b,objectsOf 2 seventeenPairs) := hb
  rw [hb', Option.map_some] at hrun
  obtain ⟨hcap,hbytes⟩ := Prod.mk.inj (Option.some.inj hrun)
  exact ⟨b,hb',hsorted,hperm,hcap,hbytes⟩

end LiteOSFS
