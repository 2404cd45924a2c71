import LiteOSFS.Containers.DynWhole
import LiteOSFS.Properties.CapacityExact
import LiteOSFS.Properties.SortedInsert
import Mathlib.Data.List.Perm.Basic

/-! # What becomes of the elements

With a destructor every element that is put into an array is once in it, was destructed once, or
was handed out once, whatever calls are made. An array that is sorted stays so under the
calls that put no element where the caller says.
-/
namespace LiteOSFS
open Memory Transition

/-- What `qsort` makes of a list: the same elements in order, those that compare equal in any. -/
structure Qsort where
  sort : (Mem → Mem → ℤ) → List Mem → List Mem
  perm : ∀ {compare}, TotalPreorder compare → ∀ l, (sort compare l).Perm l
  sorted : ∀ {compare}, TotalPreorder compare → ∀ l, InOrder compare (sort compare l)

inductive ArrayCall where
  | call (c : DynCall) (heap : Heap)
  | sort (compare : Option (Mem → Mem → ℤ))

def arrayStep (q : Qsort) (a : DynArray) : ArrayCall → Option DynArray
  | .call c heap => dynStep a (c,heap)
  | .sort compare => (dynArraySort q.sort a compare).map Prod.snd

/-- Arrays are sorted by total preorders. -/
def ArraySafe (a : DynArray) : ArrayCall → Prop
  | .call c heap => CallSafe a (c,heap)
  | .sort compare => ∀ c ∈ compare, TotalPreorder c

/-- The elements that were put in, given to the destructor, and handed out so far. -/
structure Ledger where
  entered : List Mem
  destroyed : List Mem
  extracted : List Mem

/-- The element that a call puts in, as far as the array takes it. -/
def entering (w : ℕ) : DynCall → List Mem
  | .pushFront object | .pushBack object | .insert _ object | .insertSorted object _ =>
    (object.map (fun o => window o 0 w)).toList
  | _ => []

def ledgerAfter (a : DynArray) (b : Ledger) : ArrayCall → Ledger
  | .call c heap => (dynCall a c heap).elim b (fun out =>
    ⟨b.entered ++ (if out.ret then entering a.dataSize c else []),b.destroyed ++ out.destroyed,
      b.extracted ++ out.extracted.toList⟩)
  | .sort _ => b

section Calls
variable {a b : DynArray} {call : DynCall} {heap : Heap} {out : DynOutcome} {l : List Mem} {next : ListOutcome} {w i : ℕ}

theorem perm_eraseIdx {x : Mem} (h : l[i]? = some x) : (l.eraseIdx i ++ [x]).Perm l := by
  obtain ⟨hi,rfl⟩ := List.getElem?_eq_some_iff.mp h
  exact (List.perm_append_singleton _ _).trans (List.getElem_cons_eraseIdx_perm hi)

theorem perm_tail {x : Mem} (h : l.head? = some x) : (l.tail ++ [x]).Perm l := by
  cases l with
  | nil => cases h
  | cons y l =>
    cases h
    exact List.perm_append_singleton x l

theorem perm_dropLast {x : Mem} (h : l.getLast? = some x) : (l.dropLast ++ [x]).Perm l :=
  List.Perm.of_eq (List.dropLast_append_getLast? x h)

/-- A call moves elements and loses none. -/
theorem listCall_ledger (h : listCall w l call = some next) :
    (next.list ++ (next.erased ++ next.extracted.toList)).Perm (l ++ entering w call) := by
  cases call with
  | pushFront object =>
    obtain ⟨o,rfl,rfl⟩ := Option.map_eq_some_iff.mp h
    simpa [entering] using (List.perm_append_singleton (window o 0 w) l).symm
  | pushBack object =>
    obtain ⟨o,rfl,rfl⟩ := Option.map_eq_some_iff.mp h
    simp [entering]
  | insert index object =>
    simp only [listCall] at h
    split_ifs at h with hi
    obtain ⟨o,rfl,rfl⟩ := Option.map_eq_some_iff.mp h
    simpa [entering] using (List.perm_insertIdx _ l hi).trans (List.perm_append_singleton (window o 0 w) l).symm
  | insertSorted object compare =>
    obtain ⟨o,rfl,h⟩ := Option.bind_eq_some_iff.mp h
    obtain ⟨c,rfl,rfl⟩ := Option.map_eq_some_iff.mp h
    simpa [entering] using (List.perm_orderedInsert _ _ l).trans (List.perm_append_singleton (window o 0 w) l).symm
  | popFront =>
    obtain ⟨x,hx,rfl⟩ := Option.map_eq_some_iff.mp h
    simpa [entering] using perm_tail hx
  | popBack =>
    obtain ⟨x,hx,rfl⟩ := Option.map_eq_some_iff.mp h
    simpa [entering] using perm_dropLast hx
  | erase index =>
    obtain ⟨x,hx,rfl⟩ := Option.map_eq_some_iff.mp h
    simpa [entering] using perm_eraseIdx hx
  | extract index object =>
    simp only [listCall] at h
    split_ifs at h
    obtain ⟨x,hx,rfl⟩ := Option.map_eq_some_iff.mp h
    simpa [entering] using perm_eraseIdx hx
  | extractFront object =>
    simp only [listCall] at h
    split_ifs at h
    obtain ⟨x,hx,rfl⟩ := Option.map_eq_some_iff.mp h
    simpa [entering] using perm_tail hx
  | extractBack object =>
    simp only [listCall] at h
    split_ifs at h
    obtain ⟨x,hx,rfl⟩ := Option.map_eq_some_iff.mp h
    simpa [entering] using perm_dropLast hx
  | clear =>
    cases h
    simp [entering]

/-- A safe call is refused, or does what it does to the list. -/
theorem DynArray.Inv.call_cases (h : a.Inv) (hs : CallSafe a (call,heap)) (hout : dynCall a call heap = some out) :
    out.array.Inv ∧ out.array.dataSize = a.dataSize ∧ (out = a.refuse ∨
      ∃ next, listCall a.dataSize a.contents call = some next ∧ out.ret = true ∧ out.array.contents = next.list ∧
        out.destroyed = (if a.destructor then next.erased else []) ∧ out.extracted = next.extracted) := by
  obtain ⟨out',hout',hinv,hd,hlaw⟩ := (h.law call heap).mpr hs
  obtain rfl := Option.some.inj (hout.symm.trans hout')
  refine ⟨hinv,hd,?_⟩
  cases hl : listCall a.dataSize a.contents call with
  | none =>
    rw [hl] at hlaw
    exact Or.inl hlaw
  | some next =>
    rw [hl] at hlaw
    by_cases hm : call.inserts ∧ MemoryRefused a heap
    · exact Or.inl (hlaw.1 hm)
    · obtain ⟨hret,hcon,hgone,hext⟩ := hlaw.2 hm
      exact Or.inr ⟨next,rfl,hret,hcon,hgone,hext⟩

theorem memmove_destructor {dst src len : ℕ} (h : a.memmove dst src len = some b) : b.destructor = a.destructor := by
  rw [DynArray.memmove, Option.ite_none_right_eq_some] at h
  cases h.2
  rfl

theorem memcpy_destructor {dst len : ℕ} {src : Mem} (h : a.memcpy dst src len = some b) : b.destructor = a.destructor := by
  rw [DynArray.memcpy, Option.ite_none_right_eq_some] at h
  cases h.2
  rfl

theorem request_destructor {c : ℕ} {r : Bool} (h : dynRequestSizeIncrease a c heap = some (r,b)) :
    b.destructor = a.destructor := by
  rw [dynRequestSizeIncrease] at h
  split_ifs at h
  · cases h
    rfl
  · obtain ⟨_,_,h⟩ := Option.bind_eq_some_iff.mp h
    obtain ⟨answer,_,h⟩ := Option.map_eq_some_iff.mp h
    cases answer with
    | none =>
      cases h
      rfl
    | some _ =>
      cases h
      rfl
  · cases h
    rfl

theorem shiftInsert_destructor {p c : ℕ} {mode : DynShiftMode} {src : Option Mem}
    (h : dynShiftInsert a p c mode src heap = some out) : out.array.destructor = a.destructor := by
  cases src with
  | none =>
    cases h
    rfl
  | some src =>
    rw [dynShiftInsert] at h
    split_ifs at h
    · obtain ⟨⟨granted,a₁⟩,hr,h⟩ := Option.bind_eq_some_iff.mp h
      have hd := request_destructor hr
      cases granted with
      | false =>
        cases h
        exact hd
      | true =>
        simp only [if_true] at h
        obtain ⟨a₂,hgap,h⟩ := Option.bind_eq_some_iff.mp h
        obtain ⟨a₃,hcopy,rfl⟩ := Option.map_eq_some_iff.mp h
        have hgap : a₂.destructor = a₁.destructor := by
          rw [DynArray.openGap] at hgap
          split_ifs at hgap
          · exact memmove_destructor hgap
          · rw [Option.some.inj hgap]
        exact (memcpy_destructor hcopy).trans (hgap.trans hd)
    · cases h
      rfl

theorem withSize_destructor (n : ℕ) : DynArray.destructor { a with size := n } = a.destructor := rfl

theorem shiftRemove_destructor {p c : ℕ} {mode : DynShiftMode} {dst : Bool}
    (h : dynShiftRemove a p c mode dst = some out) : out.array.destructor = a.destructor := by
  rw [dynShiftRemove] at h
  split_ifs at h
  · obtain ⟨⟨destroyed,extracted⟩,_,h⟩ := Option.bind_eq_some_iff.mp h
    obtain ⟨moved,hgap,rfl⟩ := Option.map_eq_some_iff.mp h
    refine (withSize_destructor _).trans ?_
    rw [DynArray.closeGap] at hgap
    split_ifs at hgap
    · exact memmove_destructor hgap
    · rw [Option.some.inj hgap]
  · cases h
    rfl
  · cases h
    rfl

/-- No call changes the destructor. -/
theorem dynCall_destructor (h : dynCall a call heap = some out) : out.array.destructor = a.destructor := by
  have hrefuse : some a.refuse = some out → out.array.destructor = a.destructor := by
    intro h
    cases h
    rfl
  cases call with
  | pushFront | pushBack => exact shiftInsert_destructor h
  | insert index object =>
    simp only [dynCall, dynArrayInsert] at h
    split_ifs at h
    · exact shiftInsert_destructor h
    · exact hrefuse h
  | insertSorted object compare =>
    cases compare with
    | none => exact hrefuse h
    | some compare =>
      cases object with
      | none => exact hrefuse h
      | some o =>
        obtain ⟨p,_,h⟩ := Option.bind_eq_some_iff.mp h
        exact shiftInsert_destructor h
  | popFront | erase | extractFront => exact shiftRemove_destructor h
  | popBack =>
    simp only [dynCall, dynArrayPopBack] at h
    split_ifs at h
    · exact shiftRemove_destructor h
    · exact hrefuse h
  | extract index object =>
    simp only [dynCall, dynArrayExtract] at h
    split_ifs at h
    · exact shiftRemove_destructor h
    · exact hrefuse h
  | extractBack object =>
    simp only [dynCall, dynArrayExtractBack] at h
    split_ifs at h
    · exact shiftRemove_destructor h
    · exact hrefuse h
  | clear =>
    simp only [dynCall, dynArrayClear] at h
    split_ifs at h
    · exact shiftRemove_destructor h
    · cases h
      rfl

end Calls

section Ledger
variable {q : Qsort} {a b : DynArray} {t : Ledger} {c : ArrayCall} {compare : Mem → Mem → ℤ} {heap : Heap}

/-- Every element is once in the array, with the destructor, or handed out. -/
structure Balanced (s : DynArray × Ledger) : Prop where
  inv : s.1.Inv
  destructor : s.1.destructor = true
  balance : (s.1.contents ++ (s.2.destroyed ++ s.2.extracted)).Perm s.2.entered

/-- Sorting an array, with or without elements. -/
theorem sort_cases (h : a.Inv) {r : Bool} (hc : TotalPreorder compare)
    (hs : dynArraySort q.sort a (some compare) = some (r,b)) :
    b.Inv ∧ b.dataSize = a.dataSize ∧ b.destructor = a.destructor ∧ b.contents.Perm a.contents ∧
      InOrder compare b.contents := by
  by_cases h0 : a.size = 0
  · rw [dynArraySort, if_pos h0] at hs
    cases hs
    refine ⟨h,rfl,rfl,List.Perm.refl _,?_⟩
    rw [contents_nil h0]
    exact List.Pairwise.nil
  · obtain ⟨b',hb,hinv,hd,hdes,hcon⟩ := dynArraySort_eq h h0 (q.perm hc a.contents)
    obtain ⟨_,rfl⟩ := Prod.mk.inj (Option.some.inj (hs.symm.trans hb))
    rw [hcon]
    exact ⟨hinv,hd,hdes,q.perm hc _,q.sorted hc _⟩

theorem Balanced.call {call : DynCall} (h : Balanced (a,t)) (hs : CallSafe a (call,heap)) {out : DynOutcome}
    (hout : dynCall a call heap = some out) : Balanced (out.array,⟨t.entered ++ (if out.ret then entering a.dataSize call else []),
      t.destroyed ++ out.destroyed,t.extracted ++ out.extracted.toList⟩) := by
  have hdes := h.destructor
  have hbal := h.balance
  obtain ⟨hinv,_,hcase⟩ := h.inv.call_cases hs hout
  refine ⟨hinv,(dynCall_destructor hout).trans hdes,?_⟩
  rcases hcase with rfl | ⟨next,hl,hret,hcon,hgone,hext⟩
  · simpa [DynArray.refuse] using hbal
  · rw [if_pos hdes] at hgone
    simp only [hcon, hgone, hext, hret, if_true]
    have hmoved := listCall_ledger hl
    -- the two permutations, counted element by element
    classical
    refine List.perm_iff_count.mpr (fun x => ?_)
    have hcount := List.perm_iff_count.mp hmoved x
    have hbefore := List.perm_iff_count.mp hbal x
    simp only [List.count_append] at hcount hbefore ⊢
    omega

theorem Balanced.step {s' : DynArray × Ledger} (h : Balanced (a,t)) (hs : ArraySafe a c)
    (hstep : ghost (arrayStep q) ledgerAfter (a,t) c = some s') : Balanced s' := by
  obtain ⟨b,t'⟩ := s'
  obtain ⟨hb,rfl⟩ := of_ghost hstep
  cases c with
  | call call heap =>
    obtain ⟨out,hout,rfl⟩ := Option.map_eq_some_iff.mp hb
    rw [ledgerAfter, show dynCall a call heap = some out from hout, Option.elim_some]
    exact h.call hs hout
  | sort compare =>
    obtain ⟨⟨r,b⟩,hsort,rfl⟩ := Option.map_eq_some_iff.mp hb
    cases compare with
    | none =>
      cases hsort
      exact h
    | some compare =>
      obtain ⟨hinv,_,hdes,hperm,_⟩ := sort_cases h.inv (hs compare rfl) hsort
      exact ⟨hinv,hdes.trans h.destructor,(hperm.append_right _).trans h.balance⟩

end Ledger

/-- In an array with a destructor, whatever calls are made: every element that was put in is once in the array, or was
destructed once, or handed out once; and `dyn_array_destroy` destructs those that are left. -/
theorem elements_accounted (q : Qsort) {capacity dataSize : UInt64} (hmax : capacity.toNat ≤ dynMaxCapacity)
    (hne : dataSize ≠ 0) (hfit : leastCapacity capacity.toNat * dataSize.toNat < 2 ^ 64) {a₀ a : DynArray} {t : Ledger}
    (hmade : MadeArray capacity.toNat dataSize.toNat a₀) (hdes : a₀.destructor = true)
    (hr : Reach (ghost (arrayStep q) ledgerAfter) (fun s => ArraySafe s.1) (a₀,⟨a₀.contents,[],[]⟩) (a,t)) :
    (a.contents ++ (t.destroyed ++ t.extracted)).Perm t.entered ∧
    ∃ rest, dynArrayDestroy a = some rest ∧ (t.destroyed ++ rest ++ t.extracted).Perm t.entered := by
  have hne' : dataSize.toNat ≠ 0 := fun h0 => hne (UInt64.toNat_inj.mp h0)
  have hstart : Balanced (a₀,⟨a₀.contents,[],[]⟩) :=
    ⟨(madeArray_inv hmax hne' hfit hmade).1,hdes,List.Perm.of_eq (List.append_nil _)⟩
  have hbal : Balanced (a,t) := hr.invariant (P := Balanced) hstart (fun hb hg hs => hb.step hg hs)
  refine ⟨hbal.balance,a.contents,?_,?_⟩
  · rw [dynArrayDestroy_eq hbal.inv, if_pos hbal.destructor]
  · refine List.Perm.trans ?_ hbal.balance
    rw [← List.append_assoc]
    exact List.perm_append_comm.append_right _

/-- `qsort` as insertion sort. -/
def insertionQsort : Qsort where
  sort compare l := l.insertionSort (fun x y => compare x y ≤ 0)
  perm _ l := List.perm_insertionSort _ l
  sorted {compare} hc l := by
    have htotal : Std.Total (fun y z => compare y z ≤ 0) := ⟨hc.total⟩
    have htrans : IsTrans Mem (fun y z => compare y z ≤ 0) := ⟨hc.trans⟩
    exact List.pairwise_insertionSort _ l

/-- The array that `dyn_array_create(0, 1, free)` makes in zeroed memory. -/
def owningArray : DynArray := ⟨16,0,1,zeros,16,true⟩

/-- The executable counterpart of `ArraySafe`, for runs that do not sort. -/
def arrayCheck (s : DynArray × Ledger) : ArrayCall → Bool
  | .call c heap => safeCheck s.1 (c,heap)
  | .sort _ => false

theorem arraySafe_of_check (s : DynArray × Ledger) (c : ArrayCall) (h : arrayCheck s c = true) : ArraySafe s.1 c := by
  cases c with
  | call c heap => exact callSafe_of_check s.1 _ h
  | sort _ => cases h

/-- Five elements are put in, and one is handed out. -/
def enterCalls : List ArrayCall :=
  [.call (.pushBack (some (byteOf 5))) (fun _ => none),.call (.pushBack (some (byteOf 3))) (fun _ => none),
    .call (.pushFront (some (byteOf 9))) (fun _ => none),.call (.insert 1 (some (byteOf 7))) (fun _ => none),
    .call (.extract 2 true) (fun _ => none),.call (.pushBack (some (byteOf 1))) (fun _ => none)]

/-- Of those left in order one is destructed, and one is handed out. -/
def leaveCalls : List ArrayCall := [.call .popFront (fun _ => none),.call (.extractBack true) (fun _ => none)]

theorem elements_accounted_five : ∃ s₁ s₂ a t,
    run (ghost (arrayStep insertionQsort) ledgerAfter) (owningArray,⟨[],[],[]⟩) enterCalls = some s₁ ∧
    ghost (arrayStep insertionQsort) ledgerAfter s₁ (.sort (some compareFirst)) = some s₂ ∧
    run (ghost (arrayStep insertionQsort) ledgerAfter) s₂ leaveCalls = some (a,t) ∧
    (t.entered.map firstByte = [5,3,9,7,1] ∧ bytesOf a = [3,7] ∧ t.destroyed.map firstByte = [1] ∧
      t.extracted.map firstByte = [5,9]) ∧
    (a.contents ++ (t.destroyed ++ t.extracted)).Perm t.entered ∧
    ∃ rest, dynArrayDestroy a = some rest ∧ (t.destroyed ++ rest ++ t.extracted).Perm t.entered := by
  have hrun : ((run (checked arrayCheck (ghost (arrayStep insertionQsort) ledgerAfter)) (owningArray,⟨[],[],[]⟩)
      enterCalls).bind fun s₁ => (ghost (arrayStep insertionQsort) ledgerAfter s₁ (.sort (some compareFirst))).bind fun s₂ =>
      (run (checked arrayCheck (ghost (arrayStep insertionQsort) ledgerAfter)) s₂ leaveCalls).map fun s =>
        decide (s.2.entered.map firstByte = [5,3,9,7,1] ∧ bytesOf s.1 = [3,7] ∧ s.2.destroyed.map firstByte = [1] ∧
          s.2.extracted.map firstByte = [5,9])) = some true := by
    decide +kernel
  obtain ⟨s₁,h₁,hrun⟩ := Option.bind_eq_some_iff.mp hrun
  obtain ⟨s₂,h₂,hrun⟩ := Option.bind_eq_some_iff.mp hrun
  obtain ⟨⟨a,t⟩,h₃,hbytes⟩ := Option.map_eq_some_iff.mp hrun
  have hsort : ArraySafe s₁.1 (.sort (some compareFirst)) := by
    rintro c hc
    cases hc
    exact compareFirst_preorder
  have hmade : MadeArray (0 : UInt64).toNat (1 : UInt64).toNat owningArray := ⟨true,true,fun _ => some zeros,Or.inl rfl⟩
  have hreach : Reach (ghost (arrayStep insertionQsort) ledgerAfter) (fun s => ArraySafe s.1)
      (owningArray,⟨owningArray.contents,[],[]⟩) (a,t) :=
    ((reach_of_checked_run arraySafe_of_check h₁).tail hsort h₂).trans (reach_of_checked_run arraySafe_of_check h₃)
  exact ⟨s₁,s₂,a,t,run_of_checked h₁,h₂,run_of_checked h₃,of_decide_eq_true hbytes,
    elements_accounted insertionQsort (by decide) (by decide) (by decide) hmade rfl hreach⟩

/-- The calls that put no element where the caller says. -/
def KeepsOrder (compare : Mem → Mem → ℤ) : ArrayCall → Prop
  | .call (.pushFront _) _ | .call (.pushBack _) _ | .call (.insert _ _) _ => False
  | .call (.insertSorted _ c) _ | .sort c => ∀ c' ∈ c, c' = compare
  | _ => True

section Order
variable {q : Qsort} {a b : DynArray} {c : ArrayCall} {call : DynCall} {compare : Mem → Mem → ℤ} {heap : Heap} {l : List Mem}
  {w : ℕ} {next : ListOutcome} {out : DynOutcome}

theorem listCall_order (hc : TotalPreorder compare) (hk : KeepsOrder compare (.call call heap))
    (h : listCall w l call = some next) (ho : InOrder compare l) : InOrder compare next.list := by
  cases call with
  | pushFront | pushBack | insert => exact hk.elim
  | insertSorted object c =>
    obtain ⟨o,rfl,h⟩ := Option.bind_eq_some_iff.mp h
    obtain ⟨c,rfl,rfl⟩ := Option.map_eq_some_iff.mp h
    obtain rfl := hk c rfl
    have htotal : Std.Total (fun y z => c y z ≤ 0) := ⟨hc.total⟩
    have htrans : IsTrans Mem (fun y z => c y z ≤ 0) := ⟨hc.trans⟩
    exact List.Pairwise.orderedInsert _ l ho
  | popFront =>
    obtain ⟨x,hx,rfl⟩ := Option.map_eq_some_iff.mp h
    exact ho.sublist (List.tail_sublist l)
  | popBack =>
    obtain ⟨x,hx,rfl⟩ := Option.map_eq_some_iff.mp h
    exact ho.sublist (List.dropLast_sublist l)
  | erase index =>
    obtain ⟨x,hx,rfl⟩ := Option.map_eq_some_iff.mp h
    exact ho.sublist (List.eraseIdx_sublist l _)
  | extract index object =>
    simp only [listCall] at h
    split_ifs at h
    obtain ⟨x,hx,rfl⟩ := Option.map_eq_some_iff.mp h
    exact ho.sublist (List.eraseIdx_sublist l _)
  | extractFront object =>
    simp only [listCall] at h
    split_ifs at h
    obtain ⟨x,hx,rfl⟩ := Option.map_eq_some_iff.mp h
    exact ho.sublist (List.tail_sublist l)
  | extractBack object =>
    simp only [listCall] at h
    split_ifs at h
    obtain ⟨x,hx,rfl⟩ := Option.map_eq_some_iff.mp h
    exact ho.sublist (List.dropLast_sublist l)
  | clear =>
    cases h
    exact List.Pairwise.nil

theorem arrayStep_inv (h : a.Inv) (hs : ArraySafe a c) (hb : arrayStep q a c = some b) : b.Inv := by
  cases c with
  | call call heap => exact (dynStep_inv h hs hb).1
  | sort compare =>
    obtain ⟨⟨r,b⟩,hsort,rfl⟩ := Option.map_eq_some_iff.mp hb
    cases compare with
    | none =>
      cases hsort
      exact h
    | some compare => exact (sort_cases h (hs compare rfl) hsort).1

theorem arrayStep_order (hc : TotalPreorder compare) (h : a.Inv) (hs : ArraySafe a c) (hk : KeepsOrder compare c)
    (hb : arrayStep q a c = some b) (ho : InOrder compare a.contents) : InOrder compare b.contents := by
  cases c with
  | call call heap =>
    obtain ⟨out,hout,rfl⟩ := Option.map_eq_some_iff.mp hb
    obtain ⟨_,_,rfl | ⟨next,hl,_,hcon,_,_⟩⟩ := h.call_cases hs hout
    · exact ho
    · rw [hcon]
      exact listCall_order hc hk hl ho
  | sort c =>
    obtain ⟨⟨r,b⟩,hsort,rfl⟩ := Option.map_eq_some_iff.mp hb
    cases c with
    | none =>
      cases hsort
      exact ho
    | some c =>
      obtain rfl := hk c rfl
      exact (sort_cases h hc hsort).2.2.2.2

/-- What is taken from the front of an array in order comes before the rest, and what is taken from its end after it. -/
theorem extract_order (h : a.Inv) (ho : InOrder compare a.contents) {x : Mem} (hx : out.extracted = some x) :
    (dynCall a (.extractFront true) heap = some out → ∀ y ∈ out.array.contents, compare x y ≤ 0) ∧
    (dynCall a (.extractBack true) heap = some out → ∀ y ∈ out.array.contents, compare y x ≤ 0) := by
  constructor
  · intro hout y hy
    have hsafe : CallSafe a (.extractFront true,heap) := ⟨fun h => (nomatch h.2.choose_spec.1),fun h => h.1⟩
    obtain ⟨_,_,rfl | ⟨next,hl,_,hcon,_,hext⟩⟩ := h.call_cases hsafe hout
    · cases hx
    · obtain ⟨z,hz,rfl⟩ := Option.map_eq_some_iff.mp hl
      cases hext.symm.trans hx
      rw [hcon] at hy
      obtain ⟨l,hl⟩ := List.head?_eq_some_iff.mp hz
      rw [hl] at ho hy
      exact (List.pairwise_cons.mp ho).1 y hy
  · intro hout y hy
    have hsafe : CallSafe a (.extractBack true,heap) := ⟨fun h => (nomatch h.2.choose_spec.1),fun h => h.1⟩
    obtain ⟨_,_,rfl | ⟨next,hl,_,hcon,_,hext⟩⟩ := h.call_cases hsafe hout
    · cases hx
    · obtain ⟨z,hz,rfl⟩ := Option.map_eq_some_iff.mp hl
      cases hext.symm.trans hx
      rw [hcon] at hy
      rw [← List.dropLast_append_getLast? x hz] at ho
      exact (List.pairwise_append.mp ho).2.2 y hy x (List.mem_singleton_self x)

end Order

/-- An array that is sorted, in any run of calls, stays in order under those that put no element where the caller
says; then `dyn_array_extract_front` hands out a least element and `dyn_array_extract_back` a greatest. -/
theorem sorted_queue (q : Qsort) {compare : Mem → Mem → ℤ} (hc : TotalPreorder compare) {capacity dataSize : UInt64}
    (hmax : capacity.toNat ≤ dynMaxCapacity) (hne : dataSize ≠ 0)
    (hfit : leastCapacity capacity.toNat * dataSize.toNat < 2 ^ 64) {a₀ a₁ a₂ a : DynArray} {r : Bool}
    (hmade : MadeArray capacity.toNat dataSize.toNat a₀) (h₁ : Reach (arrayStep q) ArraySafe a₀ a₁)
    (hsort : dynArraySort q.sort a₁ (some compare) = some (r,a₂))
    (h₂ : Reach (arrayStep q) (fun a c => ArraySafe a c ∧ KeepsOrder compare c) a₂ a) :
    InOrder compare a.contents ∧ ∀ heap out x, out.extracted = some x →
      (dynCall a (.extractFront true) heap = some out → ∀ y ∈ out.array.contents, compare x y ≤ 0) ∧
      (dynCall a (.extractBack true) heap = some out → ∀ y ∈ out.array.contents, compare y x ≤ 0) := by
  have hne' : dataSize.toNat ≠ 0 := fun h0 => hne (UInt64.toNat_inj.mp h0)
  have hinv : a₁.Inv := h₁.invariant (P := DynArray.Inv) (madeArray_inv hmax hne' hfit hmade).1
    (fun hi hg hs => arrayStep_inv hi hg hs)
  obtain ⟨hinv₂,_,_,_,ho₂⟩ := sort_cases hinv hc hsort
  have hboth : a.Inv ∧ InOrder compare a.contents := by
    refine h₂.invariant (P := fun b => b.Inv ∧ InOrder compare b.contents) ⟨hinv₂,ho₂⟩ (fun hi hg hs => ?_)
    exact ⟨arrayStep_inv hi.1 hg.1 hs,arrayStep_order hc hi.1 hg.1 hg.2 hs hi.2⟩
  exact ⟨hboth.2,fun heap out x hx => extract_order hboth.1 hboth.2 hx⟩

/-- Calls without sorting. -/
theorem reach_calls {q : Qsort} {a₀ a : DynArray} (h : Reach dynStep CallSafe a₀ a) : Reach (arrayStep q) ArraySafe a₀ a := by
  induction h with
  | refl => exact Reach.refl
  | tail _ hg hs ih => exact ih.tail (a := .call _ _) hg hs

/-- 9, 5 and 3 are sorted, 4 is put between them, and then 3 comes out in front and 9 at the end. -/
theorem sorted_queue_four : ∃ a₁ r a₂ a front back x y, run dynStep smallArray threePushes = some a₁ ∧
    dynArraySort insertionQsort.sort a₁ (some compareFirst) = some (r,a₂) ∧
    arrayStep insertionQsort a₂ (.call (.insertSorted (some (byteOf 4)) (some compareFirst)) (fun _ => none)) = some a ∧
    dynCall a (.extractFront true) (fun _ => none) = some front ∧ front.extracted = some x ∧
    dynCall a (.extractBack true) (fun _ => none) = some back ∧ back.extracted = some y ∧
    (bytesOf a = [3,4,5,9] ∧ firstByte x = 3 ∧ bytesOf front.array = [4,5,9] ∧ firstByte y = 9 ∧
      bytesOf back.array = [3,4,5]) ∧
    InOrder compareFirst a.contents ∧ (∀ z ∈ front.array.contents, compareFirst x z ≤ 0) ∧
    ∀ z ∈ back.array.contents, compareFirst z y ≤ 0 := by
  have hrun : ((run (checked safeCheck dynStep) smallArray threePushes).bind fun a₁ =>
      (dynArraySort insertionQsort.sort a₁ (some compareFirst)).bind fun s =>
      (arrayStep insertionQsort s.2 (.call (.insertSorted (some (byteOf 4)) (some compareFirst)) (fun _ => none))).bind fun a =>
      (dynCall a (.extractFront true) (fun _ => none)).bind fun front => front.extracted.bind fun x =>
      (dynCall a (.extractBack true) (fun _ => none)).bind fun back => back.extracted.map fun y =>
      safeCheck s.2 (.insertSorted (some (byteOf 4)) (some compareFirst),fun _ => none) &&
        decide (bytesOf a = [3,4,5,9] ∧ firstByte x = 3 ∧ bytesOf front.array = [4,5,9] ∧ firstByte y = 9 ∧
          bytesOf back.array = [3,4,5])) = some true := by
    decide +kernel
  obtain ⟨a₁,h₁,hrun⟩ := Option.bind_eq_some_iff.mp hrun
  obtain ⟨⟨r,a₂⟩,hsort,hrun⟩ := Option.bind_eq_some_iff.mp hrun
  obtain ⟨a,hstep,hrun⟩ := Option.bind_eq_some_iff.mp hrun
  obtain ⟨front,hfront,hrun⟩ := Option.bind_eq_some_iff.mp hrun
  obtain ⟨x,hx,hrun⟩ := Option.bind_eq_some_iff.mp hrun
  obtain ⟨back,hback,hrun⟩ := Option.bind_eq_some_iff.mp hrun
  obtain ⟨y,hy,hrun⟩ := Option.map_eq_some_iff.mp hrun
  obtain ⟨hsafe,hbytes⟩ := Bool.and_eq_true_iff.mp hrun
  have hkeeps : KeepsOrder compareFirst (.call (.insertSorted (some (byteOf 4)) (some compareFirst)) (fun _ => none)) := by
    rintro c hc
    cases hc
    rfl
  have hinsert : ArraySafe a₂ (.call (.insertSorted (some (byteOf 4)) (some compareFirst)) (fun _ => none)) :=
    callSafe_of_check a₂ _ hsafe
  have hlast : Reach (arrayStep insertionQsort) (fun a c => ArraySafe a c ∧ KeepsOrder compareFirst c) a₂ a :=
    Reach.refl.tail ⟨hinsert,hkeeps⟩ hstep
  obtain ⟨horder,hout⟩ := sorted_queue insertionQsort compareFirst_preorder (by decide) (by decide) (by decide) smallArray_made
    (reach_calls (reach_of_checked_run callSafe_of_check h₁)) hsort hlast
  exact ⟨a₁,r,a₂,a,front,back,x,y,run_of_checked h₁,hsort,hstep,hfront,hx,hback,hy,of_decide_eq_true hbytes,horder,
    (hout _ front x hx).1 hfront,(hout _ back y hy).2 hback⟩

/-- In an array after any run of calls `dyn_array_for_each` visits each element once, in order, and hands `arg` from
one to the next; what it leaves is an array that follows its list again. -/
theorem for_each_visits (q : Qsort) {capacity dataSize : UInt64} (hmax : capacity.toNat ≤ dynMaxCapacity)
    (hne : dataSize ≠ 0) (hfit : leastCapacity capacity.toNat * dataSize.toNat < 2 ^ 64) {a₀ a : DynArray}
    (hmade : MadeArray capacity.toNat dataSize.toNat a₀) (hr : Reach (arrayStep q) ArraySafe a₀ a) {σ : Type*}
    (func : Mem → σ → Mem × σ) (arg : σ) :
    ∃ b, dynArrayForEach a (some func) arg = some (true,b,(visit a.dataSize func a.contents arg).2) ∧
      b.contents = (visit a.dataSize func a.contents arg).1 ∧ Views b ∧
      ∀ call heap, ListLaw b call heap ↔ CallSafe b (call,heap) := by
  have hne' : dataSize.toNat ≠ 0 := fun h0 => hne (UInt64.toNat_inj.mp h0)
  have hinv : a.Inv := hr.invariant (P := DynArray.Inv) (madeArray_inv hmax hne' hfit hmade).1
    (fun hi hg hs => arrayStep_inv hi hg hs)
  obtain ⟨b,arg',hrun,hb,_,_,_,hcon,harg⟩ := forEachFrom_eq func hinv (Nat.zero_add a.size) arg
  rw [List.take_zero, List.nil_append, List.drop_zero] at hcon
  rw [List.drop_zero] at harg
  rw [Nat.zero_mul] at hrun
  refine ⟨b,?_,hcon,hb.views,hb.law⟩
  rw [dynArrayForEach, hrun, harg]
  rfl

/-- The visits read off the bytes as the digits of a number, and each element becomes the number read so far. -/
theorem for_each_visits_three : ∃ a b, run dynStep smallArray threePushes = some a ∧
    dynArrayForEach a (some (fun x (n : ℕ) => (byteOf (UInt8.ofNat (n * 10 + firstByte x)),n * 10 + firstByte x))) 0 =
      some (true,b,953) ∧ bytesOf b = [9,95,953 % 256] := by
  have hrun : (run (checked safeCheck dynStep) smallArray threePushes).map (fun a => decide
      ((visit a.dataSize (fun x (n : ℕ) => (byteOf (UInt8.ofNat (n * 10 + firstByte x)),n * 10 + firstByte x)) a.contents 0).2 =
        953 ∧ (visit a.dataSize (fun x (n : ℕ) => (byteOf (UInt8.ofNat (n * 10 + firstByte x)),n * 10 + firstByte x))
          a.contents 0).1.map firstByte = [9,95,953 % 256])) = some true := by
    decide +kernel
  obtain ⟨a,ha,hr⟩ := Option.map_eq_some_iff.mp hrun
  obtain ⟨harg,hbytes⟩ := of_decide_eq_true hr
  obtain ⟨b,hb,hcon,_⟩ := for_each_visits insertionQsort (by decide) (by decide) (by decide) smallArray_made
    (reach_calls (reach_of_checked_run callSafe_of_check ha))
    (fun x (n : ℕ) => (byteOf (UInt8.ofNat (n * 10 + firstByte x)),n * 10 + firstByte x)) 0
  rw [harg] at hb
  exact ⟨a,b,run_of_checked ha,hb,by rw [bytesOf, hcon, hbytes]⟩

end LiteOSFS
