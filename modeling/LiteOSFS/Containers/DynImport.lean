import LiteOSFS.Containers.DynGrowth
import Mathlib.Data.Nat.Log

/-! # Import, and requests of any size

The capacity that is asked for is the least power of two from 16 on that holds what is needed.
Requests may be for any number of elements, and the sum with those that are there is taken in
`size_t` like the number of bytes.
-/
namespace LiteOSFS
open Memory

/-- When nothing can be shifted in, the array is destroyed. -/
def dynArrayImport (data : Option Mem) (count dataTypeSize : ℕ) (destructor granted : Bool) (heap : Heap) :
    Option (Option DynArray) :=
  match data with
  | none => some none
  | some src =>
    if count ≠ 0 then
      (dynArrayCreate count dataTypeSize destructor granted heap).bind fun
        | none => some none
        | some a => (dynShiftInsert a 0 count .insert (some src) heap).map fun out =>
          if out.ret then some out.array else none
    else some none

/-- The least power of two from 16 on that is at least `n`. -/
def leastCapacity (n : ℕ) : ℕ := 2 ^ max 4 (Nat.clog 2 n)

variable {a b : DynArray} {p c n : ℕ} {heap : Heap}

theorem le_leastCapacity (n : ℕ) : n ≤ leastCapacity n :=
  (Nat.clog_le_iff_le_pow Nat.one_lt_two).mp (le_max_right _ _)

theorem leastCapacity_eq (h : n ≤ dynMaxCapacity) : ∃ k ≤ 52, leastCapacity n = 16 * 2 ^ k := by
  have hlog : Nat.clog 2 n ≤ 56 := (Nat.clog_le_iff_le_pow Nat.one_lt_two).mpr h
  refine ⟨max 4 (Nat.clog 2 n) - 4,by omega,?_⟩
  rw [leastCapacity, show (16 : ℕ) = 2 ^ 4 from rfl, ← pow_add]
  congr 1
  omega

/-- The doubling loop ends at the least power of two, if it starts below what is needed or at 16. -/
theorem doubleUntil_least {k : ℕ} (hk : k ≤ 52) (hn : n ≤ dynMaxCapacity) (hstart : k = 0 ∨ 2 ^ (k + 3) < n) :
    doubleUntil 64 (16 * 2 ^ k) n = some (leastCapacity n) := by
  obtain ⟨j,_,he,hle,hbelow⟩ := doubleUntil_spec hk (show 52 ≤ k + 64 by omega) hn
  have hpow : ∀ i, 16 * 2 ^ i = 2 ^ (i + 4) := by
    intro i
    rw [show (16 : ℕ) = 2 ^ 4 from rfl, ← pow_add, Nat.add_comm]
  have hkj : k ≤ j := by
    by_contra hlt
    have h16 : 16 * 2 ^ j ≤ 2 ^ (k + 3) := by
      rw [hpow]
      exact Nat.pow_le_pow_right (by omega) (by omega)
    rcases hstart with h0 | hk'
    · omega
    · omega
  have hlast : j = 0 ∨ 2 ^ (j + 3) < n := by
    rcases Nat.eq_or_lt_of_le hkj with rfl | hlt
    · exact hstart
    · have hb := hbelow (j - 1) (by omega) (by omega)
      rw [hpow, show j - 1 + 4 = j + 3 by omega] at hb
      exact Or.inr hb
  rw [he, hpow, leastCapacity]
  congr 2
  have hup : Nat.clog 2 n ≤ j + 4 := (Nat.clog_le_iff_le_pow Nat.one_lt_two).mpr (by rw [← hpow]; exact hle)
  rcases hlast with h0 | hlt
  · omega
  · have hlow : j + 3 < Nat.clog 2 n := (Nat.lt_clog_iff_pow_lt Nat.one_lt_two).mpr hlt
    omega

/-- The array that `dyn_array_create` makes. -/
def createdArray (capacity dataSize : ℕ) (destructor : Bool) (array : Mem) : DynArray :=
  ⟨leastCapacity capacity,0,dataSize,array,sizeMod (leastCapacity capacity * dataSize),destructor⟩

theorem dynArrayCreate_eq {capacity dataSize : ℕ} {destructor granted : Bool} (hmax : capacity ≤ dynMaxCapacity)
    (hne : dataSize ≠ 0) : dynArrayCreate capacity dataSize destructor granted heap =
      some (if granted then
        (heap (sizeMod (leastCapacity capacity * dataSize))).map (createdArray capacity dataSize destructor)
        else none) := by
  have hloop := doubleUntil_least (Nat.zero_le 52) hmax (Or.inl rfl)
  rw [pow_zero, Nat.mul_one] at hloop
  rw [dynArrayCreate]
  cases granted with
  | false => rw [if_neg (fun hc => Bool.false_ne_true hc.2.2), if_neg Bool.false_ne_true]
  | true =>
    rw [if_pos ⟨hne,hmax,rfl⟩, if_pos rfl, hloop, Option.map_some, Nat.mul_comm]
    rfl

theorem createdArray_inv {capacity dataSize : ℕ} (hmax : capacity ≤ dynMaxCapacity) (hne : dataSize ≠ 0)
    (hfit : leastCapacity capacity * dataSize < 2 ^ 64) (destructor : Bool) (array : Mem) :
    (createdArray capacity dataSize destructor array).Inv :=
  ⟨Nat.zero_le _,Nat.pos_of_ne_zero hne,leastCapacity_eq hmax,sizeMod_eq hfit,hfit⟩

/-- An array into which `dyn_array_import` copies what it is given. -/
theorem dynArrayImport_eq {src : Mem} {count dataSize : ℕ} {destructor granted : Bool} (hmax : count ≤ dynMaxCapacity)
    (hne : dataSize ≠ 0) (hc : count ≠ 0) (hfit : leastCapacity count * dataSize < 2 ^ 64) :
    dynArrayImport (some src) count dataSize destructor granted heap =
      some (if granted then (heap (leastCapacity count * dataSize)).map (fun array =>
        (createdArray count dataSize destructor array).inserted 0 count src) else none) := by
  have hcreate : dynArrayCreate count dataSize destructor granted heap = _ := dynArrayCreate_eq hmax hne
  rw [sizeMod_eq hfit] at hcreate
  rw [dynArrayImport, if_pos hc, hcreate, Option.bind_some]
  cases granted with
  | false => rfl
  | true =>
    rw [if_pos rfl, if_pos rfl]
    cases heap (leastCapacity count * dataSize) with
    | none => rfl
    | some array =>
      have hinv := createdArray_inv hmax hne hfit destructor array
      have hroom : (createdArray count dataSize destructor array).size + count ≤
          (createdArray count dataSize destructor array).capacity := by
        change 0 + count ≤ leastCapacity count
        have hle := le_leastCapacity count
        omega
      have hreq : dynRequestSizeIncrease (createdArray count dataSize destructor array) count heap =
          some (true,createdArray count dataSize destructor array) := by
        rw [dynRequestSizeIncrease, hinv.sizeMod_eq (by omega), if_pos hroom]
      have hins := shiftInsert_granted (o := src) hc (Nat.zero_le _) hinv rfl hroom hreq
      rw [Option.map_some, Option.map_some]
      simp only
      rw [hins]
      rfl

namespace DynArray.Inv

/-- A request that needs another buffer. -/
theorem request_eq (h : a.Inv) (hlt : a.capacity < a.size + c) (hmax : a.size + c ≤ dynMaxCapacity) :
    dynRequestSizeIncrease a c heap =
      (a.realloc (sizeMod (leastCapacity (a.size + c) * a.dataSize)) heap).map fun
        | some newArray => (true,{ a with
            array := newArray, capacity := leastCapacity (a.size + c)
            allocated := sizeMod (leastCapacity (a.size + c) * a.dataSize) })
        | none => (false,a) := by
  obtain ⟨k,hk,hcap⟩ := h.capacity_eq
  have hbound : dynMaxCapacity = 16 * 2 ^ 52 := by decide
  have hsum : sizeMod (a.size + c) = a.size + c := LiteOSFS.sizeMod_eq (by rw [hbound] at hmax; omega)
  have hk1 : k < 52 := by
    by_contra hge
    have hk52 : k = 52 := by omega
    subst hk52
    omega
  have hdouble : sizeMod (a.capacity * 2) = 16 * 2 ^ (k + 1) := by
    have hpow : 2 ^ (k + 1) ≤ 2 ^ 52 := Nat.pow_le_pow_right (by omega) hk1
    rw [hcap, Nat.mul_assoc, ← pow_succ]
    exact LiteOSFS.sizeMod_eq (by omega)
  have hloop : doubleUntil 64 (16 * 2 ^ (k + 1)) (a.size + c) = some (leastCapacity (a.size + c)) := by
    refine doubleUntil_least hk1 hmax (Or.inr ?_)
    have h16 : 2 ^ (k + 1 + 3) = 16 * 2 ^ k := by
      rw [show (16 : ℕ) = 2 ^ 4 from rfl, ← pow_add]
      congr 1
      omega
    rw [h16, ← hcap]
    exact hlt
  rw [dynRequestSizeIncrease, hsum, if_neg (by omega), if_pos hmax, hdouble, hloop]
  show (a.realloc (sizeMod (leastCapacity (a.size + c) * a.dataSize)) heap).map _ = _
  cases a.realloc (sizeMod (leastCapacity (a.size + c) * a.dataSize)) heap with
  | none => rfl
  | some answer => cases answer <;> rfl

theorem request_fits (h : a.Inv) (hle : a.size + c ≤ a.capacity) : dynRequestSizeIncrease a c heap = some (true,a) := by
  have hcap := h.capacity_le
  rw [dynMaxCapacity] at hcap
  rw [dynRequestSizeIncrease, LiteOSFS.sizeMod_eq (by omega), if_pos hle]

/-- More than `DYN_MAX_CAPACITY` is refused, unless the sum wraps. -/
theorem request_past (h : a.Inv) (hmax : dynMaxCapacity < a.size + c) (hc : a.size + c < 2 ^ 64) :
    dynRequestSizeIncrease a c heap = some (false,a) := by
  have hcap := h.capacity_le
  rw [dynRequestSizeIncrease, LiteOSFS.sizeMod_eq hc, if_neg (by omega), if_neg (by omega)]

theorem request_wraps (h : a.Inv) (hc : c < 2 ^ 64) (hwrap : 2 ^ 64 ≤ a.size + c) :
    dynRequestSizeIncrease a c heap = some (true,a) := by
  have hle := h.size_le
  rw [dynRequestSizeIncrease, sizeMod, if_pos (by omega)]

end DynArray.Inv

end LiteOSFS
