import LiteOSFS.Containers.DynShift

/-! # Capacity

The capacity is always 16 times a power of two and the doubling loops end. A full
array below `DYN_MAX_CAPACITY` is doubled; the number of bytes that is asked for then
is computed in `size_t`, and the growth is exact where that does not wrap. Where
it wraps, the bytes are fewer than the array had and the insertion leaves them.
-/
namespace LiteOSFS
open Memory

variable {a b : DynArray} {p c i n : ℕ} {o : Mem} {heap : Heap}

theorem doubleUntil_spec {fuel k needed : ℕ} (hk : k ≤ 52) (hf : 52 ≤ k + fuel) (hn : needed ≤ dynMaxCapacity) :
    ∃ j ≤ 52, doubleUntil fuel (16 * 2 ^ k) needed = some (16 * 2 ^ j) ∧ needed ≤ 16 * 2 ^ j ∧
      ∀ i, k ≤ i → i < j → 16 * 2 ^ i < needed := by
  have hmax : dynMaxCapacity = 16 * 2 ^ 52 := by decide
  induction fuel generalizing k with
  | zero =>
    have hk52 : k = 52 := by omega
    subst hk52
    refine ⟨52,le_rfl,?_,by omega,fun i _ hi => by omega⟩
    rw [doubleUntil, if_neg (by omega)]
  | succ fuel ih =>
    rw [doubleUntil]
    split_ifs with hlt
    · have hk1 : k < 52 := by
        by_contra hge
        have hk52 : k = 52 := by omega
        subst hk52
        omega
      have hpow : 2 ^ (k + 1) ≤ 2 ^ 52 := Nat.pow_le_pow_right (by omega) hk1
      have hnext : sizeMod (16 * 2 ^ k * 2) = 16 * 2 ^ (k + 1) := by
        rw [Nat.mul_assoc, ← pow_succ]
        exact sizeMod_eq (by omega)
      rw [hnext]
      obtain ⟨j,hj,he,hle,hbelow⟩ := ih hk1 (by omega)
      refine ⟨j,hj,he,hle,fun i hi hij => ?_⟩
      rcases Nat.eq_or_lt_of_le hi with heq | hki
      · rwa [← heq]
      · exact hbelow i hki hij
    · exact ⟨k,hk,rfl,by omega,fun i _ hi => by omega⟩

theorem dynArrayCreate_spec (capacity dataSize : ℕ) (destructor granted : Bool) (heap : Heap) :
    dynArrayCreate capacity dataSize destructor granted heap = some none ∨
    ∃ k ≤ 52, ∃ array, dataSize ≠ 0 ∧ capacity ≤ 16 * 2 ^ k ∧
      heap (sizeMod (dataSize * (16 * 2 ^ k))) = some array ∧
      dynArrayCreate capacity dataSize destructor granted heap =
        some (some ⟨16 * 2 ^ k,0,dataSize,array,sizeMod (dataSize * (16 * 2 ^ k)),destructor⟩) := by
  rw [dynArrayCreate]
  split_ifs with hok
  · obtain ⟨j,hj,he,hle,_⟩ := doubleUntil_spec (Nat.zero_le 52) (show 52 ≤ 0 + 64 by omega) hok.2.1
    rw [show 16 = 16 * 2 ^ 0 from rfl, he, Option.map_some]
    cases hh : heap (sizeMod (dataSize * (16 * 2 ^ j))) with
    | none => exact Or.inl rfl
    | some array => exact Or.inr ⟨j,hj,array,hok.1,hle,hh,rfl⟩
  · exact Or.inl rfl

theorem inv_of_create {capacity dataSize : ℕ} {destructor granted : Bool}
    (hc : dynArrayCreate capacity dataSize destructor granted heap = some (some a))
    (hfit : a.capacity * dataSize < 2 ^ 64) : a.Inv ∧ a.contents = [] ∧ a.dataSize = dataSize := by
  rcases dynArrayCreate_spec capacity dataSize destructor granted heap with hnone | ⟨k,hk,array,hd,_,_,he⟩
  · rw [hnone] at hc
    cases hc
  · rw [he] at hc
    cases hc
    refine ⟨⟨Nat.zero_le _,Nat.pos_of_ne_zero hd,⟨k,hk,rfl⟩,?_,hfit⟩,rfl,rfl⟩
    rw [Nat.mul_comm] at hfit
    exact (sizeMod_eq hfit).trans (Nat.mul_comm _ _)

/-- The bytes asked for when the capacity is doubled. -/
def growBytes (a : DynArray) : ℕ := sizeMod (a.capacity * 2 * a.dataSize)

def DynArray.grown (a : DynArray) (junk : Mem) : DynArray :=
  { a with
    array := copyIn junk 0 (min (growBytes a) a.allocated) a.array
    capacity := a.capacity * 2
    allocated := growBytes a }

namespace DynArray.Inv

theorem request_room (h : a.Inv) (hroom : a.size < a.capacity) : dynRequestSizeIncrease a 1 heap = some (true,a) := by
  rw [dynRequestSizeIncrease, h.sizeMod_eq (by omega), if_pos (Nat.succ_le_of_lt hroom)]

theorem request_capped (h : a.Inv) (hfull : a.size = a.capacity) (hmax : dynMaxCapacity ≤ a.size) :
    dynRequestSizeIncrease a 1 heap = some (false,a) := by
  rw [dynRequestSizeIncrease, h.sizeMod_eq (by omega), if_neg (by omega), if_neg (by omega)]

theorem request_grow (h : a.Inv) (hfull : a.size = a.capacity) (hmax : a.size < dynMaxCapacity) :
    dynRequestSizeIncrease a 1 heap = if growBytes a = 0 then none
      else some (match heap (growBytes a) with | some junk => (true,a.grown junk) | none => (false,a)) := by
  have hpos := h.capacity_pos
  have hcap := h.capacity_le
  have hbound : dynMaxCapacity = 2 ^ 56 := rfl
  have hdouble : sizeMod (a.capacity * 2) = a.capacity * 2 := LiteOSFS.sizeMod_eq (by omega)
  have hloop : doubleUntil 64 (a.capacity * 2) (a.size + 1) = some (a.capacity * 2) := by
    rw [doubleUntil, if_neg (by omega)]
  rw [dynRequestSizeIncrease, h.sizeMod_eq (by omega), if_neg (by omega), if_pos (Nat.succ_le_of_lt hmax),
    hdouble, hloop, Option.bind_some, DynArray.realloc]
  change Option.map _ (if growBytes a = 0 then none else _) = _
  split_ifs with h0
  · rfl
  · cases hh : heap (growBytes a) with
    | none =>
      rw [growBytes] at hh
      rw [hh]
      rfl
    | some junk =>
      rw [growBytes] at hh
      rw [hh]
      rfl

theorem grown (h : a.Inv) (hfull : a.size = a.capacity) (hmax : a.size < dynMaxCapacity)
    (hfit : a.capacity * 2 * a.dataSize < 2 ^ 64) (junk : Mem) :
    (a.grown junk).Inv ∧ (a.grown junk).contents = a.contents := by
  have hbytes : growBytes a = a.capacity * 2 * a.dataSize := LiteOSFS.sizeMod_eq hfit
  obtain ⟨k,hk,he⟩ := h.capacity_eq
  have hk1 : k < 52 := by
    by_contra hge
    have hk52 : k = 52 := by omega
    subst hk52
    have hbound : dynMaxCapacity = 16 * 2 ^ 52 := by decide
    omega
  refine ⟨⟨?_,h.dataSize_pos,⟨k + 1,hk1,?_⟩,hbytes,hfit⟩,?_⟩
  · change a.size ≤ a.capacity * 2
    omega
  · change a.capacity * 2 = _
    rw [he, pow_succ, Nat.mul_assoc]
  · refine cells_congr fun i hi => window_congr fun x hx hx' => ?_
    have hi' : i < a.size := hi
    have hcell := h.mul_le (show i + 1 ≤ a.capacity by omega)
    have hd : (a.grown junk).dataSize = a.dataSize := rfl
    rw [hd] at hx hx'
    rw [Nat.succ_mul] at hcell
    have hmin : min (growBytes a) a.allocated = a.allocated := by
      rw [hbytes, h.allocated_eq, Nat.mul_right_comm]
      omega
    change copyIn junk 0 (min (growBytes a) a.allocated) a.array x = a.array x
    rw [hmin, copyIn_inside (Nat.zero_le _) (by omega), Nat.sub_zero]

/-- Grown to a number of bytes that has wrapped, the array does not hold its elements. -/
theorem grown_wraps (h : a.Inv) (hfull : a.size = a.capacity) (hfit : 2 ^ 64 ≤ a.capacity * 2 * a.dataSize)
    (hp : p ≤ a.size) (junk : Mem) : ((a.grown junk).openGap p 1).bind (fun b =>
      b.memcpy (b.position p) o (b.sizeNElems 1)) = none := by
  have hlt := h.allocated_lt
  have hbytes : growBytes a < a.allocated := by
    have hsum : a.capacity * 2 * a.dataSize = a.allocated + a.allocated := by
      rw [h.allocated_eq, Nat.mul_right_comm, Nat.mul_two]
    rw [growBytes, sizeMod]
    omega
  have hcap : a.capacity * a.dataSize = a.allocated := h.allocated_eq.symm
  have hposition : ∀ n ≤ a.capacity, (a.grown junk).position n = n * a.dataSize := fun n hn => h.position_eq hn
  have helems : ∀ n ≤ a.capacity, (a.grown junk).sizeNElems n = n * a.dataSize := fun n hn => h.sizeNElems_eq hn
  have hsize : (a.grown junk).size = a.size := rfl
  have halloc : (a.grown junk).allocated = growBytes a := rfl
  rw [DynArray.openGap, hsize]
  split_ifs with hne
  · have hsplit : (p + 1) * a.dataSize + (a.size - p) * a.dataSize = a.capacity * a.dataSize + a.dataSize := by
      rw [← Nat.add_mul, ← Nat.succ_mul]
      congr 1
      omega
    have hmove : (a.grown junk).memmove ((a.grown junk).position (sizeMod (p + 1))) ((a.grown junk).position p)
        ((a.grown junk).sizeNElems (a.size - p)) = none := by
      rw [DynArray.memmove, if_neg]
      rintro ⟨hd,_⟩
      rw [h.sizeMod_eq (by omega), hposition _ (by omega), helems _ (by omega), halloc] at hd
      omega
    rw [hmove]
    rfl
  · have hpe : p = a.capacity := by omega
    rw [Option.bind_some, DynArray.memcpy, if_neg]
    rw [hposition _ (by omega), helems _ h.capacity_pos, halloc, hpe]
    omega

end DynArray.Inv

/-- A full array cannot be made larger. -/
def MemoryRefused (a : DynArray) (heap : Heap) : Prop :=
  a.size = a.capacity ∧ (dynMaxCapacity ≤ a.size ∨ heap (growBytes a) = none)

/-- A full array is made larger by a number of bytes that has wrapped. -/
def GrowthWraps (a : DynArray) (heap : Heap) : Prop :=
  a.size = a.capacity ∧ a.size < dynMaxCapacity ∧ 2 ^ 64 ≤ a.capacity * 2 * a.dataSize ∧
    (growBytes a = 0 ∨ heap (growBytes a) ≠ none)

theorem shiftInsert_cases (h : a.Inv) (hp : p ≤ a.size) (o : Mem) (heap : Heap) :
    GrowthWraps a heap ∧ dynShiftInsert a p 1 .insert (some o) heap = none ∨
    ¬ GrowthWraps a heap ∧ (MemoryRefused a heap ∧ dynShiftInsert a p 1 .insert (some o) heap = some a.refuse ∨
      ¬ MemoryRefused a heap ∧ ∃ b : DynArray, b.Inv ∧ b.size = a.size ∧ b.size < b.capacity ∧
        b.dataSize = a.dataSize ∧ b.contents = a.contents ∧
        dynShiftInsert a p 1 .insert (some o) heap = some ⟨true,b.inserted p 1 o,[],none⟩) := by
  rcases Nat.lt_or_eq_of_le h.size_le with hroom | hfull
  · refine Or.inr ⟨fun hw => by have := hw.1; omega,Or.inr ⟨fun hm => by have := hm.1; omega,
      a,h,rfl,hroom,rfl,rfl,?_⟩⟩
    exact shiftInsert_granted Nat.one_ne_zero hp h rfl hroom (h.request_room hroom)
  rcases Nat.lt_or_ge a.size dynMaxCapacity with hmax | hmax
  · have hreq : dynRequestSizeIncrease a 1 heap = _ := h.request_grow hfull hmax
    by_cases h0 : growBytes a = 0
    · refine Or.inl ⟨⟨hfull,hmax,?_,Or.inl h0⟩,?_⟩
      · have hpos := Nat.mul_pos (Nat.mul_pos h.capacity_pos (show 0 < 2 by omega)) h.dataSize_pos
        by_contra hlt
        rw [growBytes, sizeMod_eq (by omega)] at h0
        omega
      · rw [if_pos h0] at hreq
        rw [dynShiftInsert, if_pos ⟨Nat.one_ne_zero,rfl,hp⟩, hreq]
        rfl
    rw [if_neg h0] at hreq
    cases hh : heap (growBytes a) with
    | none =>
      rw [hh] at hreq
      refine Or.inr ⟨fun hw => ?_,Or.inl ⟨⟨hfull,Or.inr hh⟩,shiftInsert_denied hreq⟩⟩
      rcases hw.2.2.2 with hz | hn
      · exact h0 hz
      · exact hn hh
    | some junk =>
      rw [hh] at hreq
      rcases Nat.lt_or_ge (a.capacity * 2 * a.dataSize) (2 ^ 64) with hfit | hwrap
      · obtain ⟨hb,hcontents⟩ := h.grown hfull hmax hfit junk
        have hpos := h.capacity_pos
        have hroom : (a.grown junk).size < (a.grown junk).capacity := by
          change a.size < a.capacity * 2
          omega
        refine Or.inr ⟨fun hw => absurd hw.2.2.1 (Nat.not_le.mpr hfit),Or.inr ⟨?_,
          a.grown junk,hb,rfl,hroom,rfl,hcontents,
          shiftInsert_granted Nat.one_ne_zero hp hb rfl hroom hreq⟩⟩
        rintro ⟨_,hge | hn⟩
        · omega
        · rw [hh] at hn
          cases hn
      · have hsome : heap (growBytes a) ≠ none := by
          rw [hh]
          exact Option.some_ne_none junk
        refine Or.inl ⟨⟨hfull,hmax,hwrap,Or.inr hsome⟩,?_⟩
        rw [dynShiftInsert, if_pos ⟨Nat.one_ne_zero,rfl,hp⟩, hreq, Option.bind_some]
        simp only [if_true]
        exact Option.map_bind.symm.trans (congrArg (Option.map _) (h.grown_wraps hfull hwrap hp junk))
  · refine Or.inr ⟨fun hw => by have := hw.2.1; omega,Or.inl ⟨⟨hfull,Or.inl hmax⟩,?_⟩⟩
    exact shiftInsert_denied (h.request_capped hfull hmax)

end LiteOSFS
