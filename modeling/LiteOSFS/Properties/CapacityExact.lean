import LiteOSFS.Containers.DynImport
import LiteOSFS.Properties.DynRefinement

/-! # The arithmetic of capacities

The doubling loops always end, at the least power of two that is enough. The number of bytes and the
sum of a request are computed in `size_t` without a test, and the buffer holds its
capacity as long as neither wraps.
-/
namespace LiteOSFS
open Memory Transition

/-- The capacity is a power of two from 16 on that is enough, and `malloc` is asked for exactly its bytes. -/
def CreateExact (capacity dataSize : ℕ) : Prop :=
  ∃ k ≥ 4, capacity ≤ 2 ^ k ∧ ∀ destructor heap, dynArrayCreate capacity dataSize destructor true heap =
    some ((heap (2 ^ k * dataSize)).map fun array => ⟨2 ^ k,0,dataSize,array,2 ^ k * dataSize,destructor⟩)

/-- A request that the capacity covers is granted, one for more than `DYN_MAX_CAPACITY` is not, and for another
`realloc` is asked for exactly the bytes of a power of two that is enough. -/
def RequestExact (a : DynArray) (increment : ℕ) : Prop :=
  if a.size + increment ≤ a.capacity then ∀ heap, dynRequestSizeIncrease a increment heap = some (true,a)
  else if a.size + increment ≤ dynMaxCapacity then
    ∃ k ≥ 4, a.size + increment ≤ 2 ^ k ∧ ∀ heap, dynRequestSizeIncrease a increment heap =
      some (match heap (2 ^ k * a.dataSize) with
        | some newArray => (true,{ a with
            array := copyIn newArray 0 a.allocated a.array, capacity := 2 ^ k, allocated := 2 ^ k * a.dataSize })
        | none => (false,a))
  else ∀ heap, dynRequestSizeIncrease a increment heap = some (false,a)

/-- The sum does not wrap, and the bytes do not where more are needed. -/
def RequestFits (a : DynArray) (increment : ℕ) : Prop :=
  a.size + increment < 2 ^ 64 ∧ (a.capacity < a.size + increment → a.size + increment ≤ dynMaxCapacity →
    leastCapacity (a.size + increment) * a.dataSize < 2 ^ 64)

/-- The buffer has the bytes of the capacity, which is a power of two from 16 on. -/
structure HoldsCapacity (a : DynArray) : Prop where
  power : ∃ k ≥ 4, a.capacity = 2 ^ k
  bytes : a.allocated = a.capacity * a.dataSize
  room : a.size ≤ a.capacity

/-- A call on the array, or a request by itself. -/
inductive GrowthCall where
  | call (c : DynCall)
  | request (increment : UInt64)

def growthStep (a : DynArray) (action : GrowthCall × Heap) : Option DynArray :=
  match action.1 with
  | .call c => dynStep a (c,action.2)
  | .request increment => (dynRequestSizeIncrease a increment.toNat action.2).map Prod.snd

def GrowthSafe (a : DynArray) (action : GrowthCall × Heap) : Prop :=
  match action.1 with
  | .call c => CallSafe a (c,action.2)
  | .request increment => RequestFits a increment.toNat

/-- An array that one of the two constructors returns. -/
def MadeArray (capacity dataSize : ℕ) (a : DynArray) : Prop :=
  ∃ destructor granted heap, dynArrayCreate capacity dataSize destructor granted heap = some (some a) ∨
    ∃ src, dynArrayImport (some src) capacity dataSize destructor granted heap = some (some a)

section Exact
variable {a : DynArray} {capacity dataSize increment : ℕ} {heap : Heap}

theorem createExact_iff (hmax : capacity ≤ dynMaxCapacity) (hne : dataSize ≠ 0) :
    CreateExact capacity dataSize ↔ leastCapacity capacity * dataSize < 2 ^ 64 := by
  constructor
  · rintro ⟨k,_,_,he⟩
    have hmade := he false (fun _ => some zeros)
    rw [dynArrayCreate_eq hmax hne] at hmade
    have hsame : createdArray capacity dataSize false zeros = ⟨2 ^ k,0,dataSize,zeros,2 ^ k * dataSize,false⟩ :=
      Option.some.inj (Option.some.inj hmade)
    have hcap : leastCapacity capacity = 2 ^ k := congrArg DynArray.capacity hsame
    have hbytes : sizeMod (leastCapacity capacity * dataSize) = 2 ^ k * dataSize := congrArg DynArray.allocated hsame
    rw [hcap, ← hbytes]
    exact sizeMod_lt _
  · intro hfit
    refine ⟨max 4 (Nat.clog 2 capacity),le_max_left _ _,le_leastCapacity capacity,fun destructor heap => ?_⟩
    have hmade : createdArray capacity dataSize destructor = fun array =>
        ⟨leastCapacity capacity,0,dataSize,array,leastCapacity capacity * dataSize,destructor⟩ := by
      funext array
      rw [createdArray, sizeMod_eq hfit]
    rw [dynArrayCreate_eq hmax hne, sizeMod_eq hfit, if_pos rfl, hmade]
    rfl

/-- `realloc` of an exact number of bytes. -/
theorem request_realloc (h : a.Inv) (hlt : a.capacity < a.size + increment) (hmax : a.size + increment ≤ dynMaxCapacity)
    (hfit : leastCapacity (a.size + increment) * a.dataSize < 2 ^ 64) (heap : Heap) :
    dynRequestSizeIncrease a increment heap =
      some (match heap (leastCapacity (a.size + increment) * a.dataSize) with
        | some newArray => (true,{ a with
            array := copyIn newArray 0 a.allocated a.array
            capacity := leastCapacity (a.size + increment)
            allocated := leastCapacity (a.size + increment) * a.dataSize })
        | none => (false,a)) := by
  have hle := le_leastCapacity (a.size + increment)
  have hold : a.allocated ≤ leastCapacity (a.size + increment) * a.dataSize := by
    rw [h.allocated_eq]
    exact Nat.mul_le_mul_right _ (by omega)
  have hpos : leastCapacity (a.size + increment) * a.dataSize ≠ 0 := by
    have hmul := Nat.mul_pos (show 0 < leastCapacity (a.size + increment) by omega) h.dataSize_pos
    omega
  rw [h.request_eq hlt hmax, sizeMod_eq hfit, DynArray.realloc, if_neg hpos, min_eq_right hold]
  cases heap (leastCapacity (a.size + increment) * a.dataSize) <;> rfl

theorem requestExact_iff (h : a.Inv) (hinc : increment < 2 ^ 64) :
    RequestExact a increment ↔ RequestFits a increment := by
  have hcap := h.capacity_le
  have hbound : dynMaxCapacity = 2 ^ 56 := rfl
  rw [RequestExact, RequestFits]
  by_cases hfits : a.size + increment ≤ a.capacity
  · rw [if_pos hfits]
    exact iff_of_true (fun heap => h.request_fits hfits) ⟨by omega,fun hlt => by omega⟩
  rw [if_neg hfits]
  by_cases hmax : a.size + increment ≤ dynMaxCapacity
  swap
  · rw [if_neg hmax]
    constructor
    · intro he
      refine ⟨?_,fun _ hle => absurd hle hmax⟩
      by_contra hwrap
      have hgranted : dynRequestSizeIncrease a increment (fun _ => none) = some (true,a) :=
        h.request_wraps hinc (Nat.not_lt.mp hwrap)
      rw [he] at hgranted
      cases hgranted
    · exact fun hsum heap => h.request_past (Nat.not_le.mp hmax) hsum.1
  rw [if_pos hmax]
  have hlt : a.capacity < a.size + increment := Nat.not_le.mp hfits
  constructor
  · rintro ⟨k,_,_,he⟩
    refine ⟨by omega,fun _ _ => ?_⟩
    have hgrown := he (fun _ => some zeros)
    rw [h.request_eq hlt hmax, DynArray.realloc] at hgrown
    split_ifs at hgrown with h0
    · cases hgrown
    have hsame := congrArg Prod.snd (Option.some.inj hgrown)
    have hpow : leastCapacity (a.size + increment) = 2 ^ k := congrArg DynArray.capacity hsame
    have hbytes : sizeMod (leastCapacity (a.size + increment) * a.dataSize) = 2 ^ k * a.dataSize :=
      congrArg DynArray.allocated hsame
    rw [hpow, ← hbytes]
    exact sizeMod_lt _
  · rintro ⟨_,hfit⟩
    exact ⟨max 4 (Nat.clog 2 (a.size + increment)),le_max_left _ _,le_leastCapacity _,
      fun heap => request_realloc h hlt hmax (hfit hlt hmax) heap⟩

theorem request_inv (h : a.Inv) (hinc : increment < 2 ^ 64) (hf : RequestFits a increment) {r : Bool} {b : DynArray}
    (hr : dynRequestSizeIncrease a increment heap = some (r,b)) : b.Inv ∧ b.dataSize = a.dataSize := by
  have hlaw := (requestExact_iff h hinc).mpr hf
  rw [RequestExact] at hlaw
  split_ifs at hlaw with hfits hmax
  · rw [hlaw] at hr
    cases hr
    exact ⟨h,rfl⟩
  · have hlt : a.capacity < a.size + increment := Nat.not_le.mp hfits
    have hfit := hf.2 hlt hmax
    rw [request_realloc h hlt hmax hfit] at hr
    cases hh : heap (leastCapacity (a.size + increment) * a.dataSize) with
    | none =>
      rw [hh] at hr
      cases hr
      exact ⟨h,rfl⟩
    | some newArray =>
      rw [hh] at hr
      cases hr
      have hle := le_leastCapacity (a.size + increment)
      exact ⟨⟨(Nat.le_add_right _ _).trans hle,h.dataSize_pos,leastCapacity_eq hmax,rfl,hfit⟩,rfl⟩
  · rw [hlaw] at hr
    cases hr
    exact ⟨h,rfl⟩

theorem growthStep_inv {action : GrowthCall × Heap} {b : DynArray} (h : a.Inv) (hs : GrowthSafe a action)
    (hb : growthStep a action = some b) : b.Inv ∧ b.dataSize = a.dataSize := by
  obtain ⟨c,heap⟩ := action
  cases c with
  | call c => exact dynStep_inv h hs hb
  | request increment =>
    obtain ⟨⟨r,b'⟩,hr,rfl⟩ := Option.map_eq_some_iff.mp hb
    exact request_inv h increment.toNat_lt hs hr

theorem madeArray_inv (hmax : capacity ≤ dynMaxCapacity) (hne : dataSize ≠ 0)
    (hfit : leastCapacity capacity * dataSize < 2 ^ 64) (h : MadeArray capacity dataSize a) :
    a.Inv ∧ a.dataSize = dataSize := by
  obtain ⟨destructor,granted,heap,hc | ⟨src,hc⟩⟩ := h
  · rw [dynArrayCreate_eq hmax hne] at hc
    cases granted with
    | false => cases hc
    | true =>
      obtain ⟨array,_,rfl⟩ := Option.map_eq_some_iff.mp (Option.some.inj hc)
      exact ⟨createdArray_inv hmax hne hfit destructor array,rfl⟩
  · by_cases h0 : capacity = 0
    · subst h0
      cases hc
    rw [dynArrayImport_eq hmax hne h0 hfit] at hc
    cases granted with
    | false => cases hc
    | true =>
      obtain ⟨array,_,rfl⟩ := Option.map_eq_some_iff.mp (Option.some.inj hc)
      refine ⟨(createdArray_inv hmax hne hfit destructor array).inserted ?_,rfl⟩
      have hle := le_leastCapacity capacity
      change 0 + capacity ≤ leastCapacity capacity
      omega

theorem DynArray.Inv.holdsCapacity (h : a.Inv) : HoldsCapacity a := by
  refine ⟨?_,h.allocated_eq,h.size_le⟩
  obtain ⟨k,_,hk⟩ := h.capacity_eq
  refine ⟨k + 4,by omega,?_⟩
  rw [hk, pow_add, Nat.mul_comm]
  rfl

end Exact

/-- For every capacity and element size that `dyn_array_create` accepts: it asks for the exact number of bytes if and
only if that number fits, and then, after any calls and requests whose numbers fit, the buffer holds the
capacity and a request of any size is exact if and only if its numbers fit. -/
theorem capacity_exact {capacity dataSize : UInt64} (hmax : capacity.toNat ≤ dynMaxCapacity) (hne : dataSize ≠ 0) :
    (CreateExact capacity.toNat dataSize.toNat ↔ leastCapacity capacity.toNat * dataSize.toNat < 2 ^ 64) ∧
    (leastCapacity capacity.toNat * dataSize.toNat < 2 ^ 64 →
      ∀ a₀ a, MadeArray capacity.toNat dataSize.toNat a₀ → Reach growthStep GrowthSafe a₀ a →
        HoldsCapacity a ∧ a.dataSize = dataSize.toNat ∧
        ∀ increment : UInt64, RequestExact a increment.toNat ↔ RequestFits a increment.toNat) := by
  have hne' : dataSize.toNat ≠ 0 := fun h0 => hne (UInt64.toNat_inj.mp h0)
  refine ⟨createExact_iff hmax hne',fun hfit a₀ a hmade hr => ?_⟩
  have hinv : a.Inv ∧ a.dataSize = dataSize.toNat := by
    refine Reach.invariant (P := fun b => b.Inv ∧ b.dataSize = dataSize.toNat) hr (madeArray_inv hmax hne' hfit hmade)
      fun hi hg hs => ?_
    obtain ⟨hb,hd⟩ := growthStep_inv hi.1 hg hs
    exact ⟨hb,hd.trans hi.2⟩
  exact ⟨hinv.1.holdsCapacity,hinv.2,fun increment => requestExact_iff hinv.1 increment.toNat_lt⟩

theorem smallArray_made : MadeArray (0 : UInt64).toNat (1 : UInt64).toNat smallArray :=
  ⟨false,true,fun _ => some zeros,Or.inl smallArray_create⟩

theorem capacity_exact_small : CreateExact 100 8 ∧ ¬ RequestExact smallArrayOne 18446744073709551615 := by
  have hrun : Reach growthStep GrowthSafe smallArray smallArrayOne :=
    Reach.refl.tail (a := (.call (.pushBack (some zeros)),fun _ => some zeros)) smallArray_safe smallArray_push
  have hmax : (0 : UInt64).toNat ≤ dynMaxCapacity := by decide
  have hne : (1 : UInt64) ≠ 0 := by decide
  obtain ⟨_,_,hexact⟩ := (capacity_exact hmax hne).2 (by decide) _ _ smallArray_made hrun
  have hmax' : (100 : UInt64).toNat ≤ dynMaxCapacity := by decide
  have hne' : (8 : UInt64) ≠ 0 := by decide
  refine ⟨(capacity_exact hmax' hne').1.mpr (by decide),fun he => ?_⟩
  -- one element and `SIZE_MAX` more
  exact absurd ((hexact 18446744073709551615).mp he).1 (by decide)

/-- At the capacity that is allowed at most, the bytes of 256-byte elements wrap to zero. -/
theorem capacity_exact_fails : ¬ ∀ capacity dataSize : UInt64, capacity.toNat ≤ dynMaxCapacity → dataSize ≠ 0 →
    CreateExact capacity.toNat dataSize.toNat := by
  intro h
  have hmax : (72057594037927936 : UInt64).toNat ≤ dynMaxCapacity := by decide
  have hcreate := (createExact_iff hmax (show (256 : UInt64).toNat ≠ 0 by decide)).mp
    (h 72057594037927936 256 hmax (by decide))
  have hle : 72057594037927936 ≤ leastCapacity 72057594037927936 := le_leastCapacity _
  have hnum : (72057594037927936 : UInt64).toNat = 72057594037927936 := rfl
  have hsize : (256 : UInt64).toNat = 256 := rfl
  rw [hnum, hsize] at hcreate
  omega

end LiteOSFS
