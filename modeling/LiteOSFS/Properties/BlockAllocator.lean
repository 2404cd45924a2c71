import LiteOSFS.Storage.System
import LiteOSFS.Library.Reach
import Mathlib.Data.Finset.Card
import Mathlib.Data.Finset.Range

/-! # The block allocator as a pool of numbers

The free-block bitmap of a store is the set of the block ids obtained and not
released since. Id 65528, which the range checks admit, is no block: its bit
lies in the guard byte past the bitmap.
-/
namespace LiteOSFS
open Memory Transition

inductive StoreCall where
  | allocate
  | request (id : ℕ)
  | release (id : ℕ)

/-- The memory of the whole store after a call. -/
def storeAfter (m : Mem) : StoreCall → Mem
  | .allocate => (blockStoreAllocate m wholeStore).2
  | .request id => (blockStoreRequest m wholeStore id).2
  | .release id => blockStoreRelease m wholeStore id

/-- The ids live after a call, going by what the call returned. -/
def liveAfter (m : Mem) (live : Finset ℕ) : StoreCall → Finset ℕ
  | .allocate =>
    if (blockStoreAllocate m wholeStore).1 = sizeMax then live
    else insert (blockStoreAllocate m wholeStore).1 live
  | .request id => if (blockStoreRequest m wholeStore id).1 then insert id live else live
  | .release id => live.erase id

def storeStep (s : Mem × Finset ℕ) (c : StoreCall) : Option (Mem × Finset ℕ) :=
  some (storeAfter s.1 c,liveAfter s.1 s.2 c)

/-- What a call does when the live ids are those of the set. -/
def Lawful (m : Mem) (live : Finset ℕ) : StoreCall → Prop
  | .allocate =>
    ((blockStoreAllocate m wholeStore).1 = sizeMax ∧ ∀ j < blockStoreGetTotalBlocks, j ∈ live) ∨
    ((blockStoreAllocate m wholeStore).1 < blockStoreGetTotalBlocks ∧
      (blockStoreAllocate m wholeStore).1 ∉ live ∧ ∀ j < (blockStoreAllocate m wholeStore).1, j ∈ live)
  | .request id => (blockStoreRequest m wholeStore id).1 = true ↔ id < blockStoreGetTotalBlocks ∧ id ∉ live
  | .release id => id ∉ live → blockStoreRelease m wholeStore id = m

/-- The bitmap holds the set, and the bit past it is set. -/
structure Represents (m : Mem) (live : Finset ℕ) : Prop where
  bits : ∀ id < 65528, used m id = true ↔ id ∈ live
  bound : ∀ id ∈ live, id < 65528
  guardBit : used m 65528 = true

section Calls
variable {m : Mem} {live : Finset ℕ} {id : ℕ}

theorem represents_create : Represents blockStoreCreate ∅ := by
  refine ⟨fun id hid => ?_,fun id hid => ?_,?_⟩
  · have hz : blockStoreCreate (wholeStore.fbm.data + id / 8) = 0 := if_neg (by simp only [wholeStore]; omega)
    rw [used, bitmapTest_eq, hz]
    simp
  · simp at hid
  · have hg : blockStoreCreate (wholeStore.fbm.data + 65528 / 8) = 0xff := if_pos rfl
    rw [used, bitmapTest_eq, hg]
    decide

theorem Represents.insert (h : Represents m live) (hid : id < 65528) : Represents (setUsed m id) (insert id live) := by
  refine ⟨fun j hj => ?_,fun j hj => ?_,?_⟩
  · rw [used_setUsed, Finset.mem_insert, Bool.or_eq_true, decide_eq_true_eq, h.bits j hj, eq_comm]
  · rcases Finset.mem_insert.mp hj with rfl | hj
    · exact hid
    · exact h.bound j hj
  · rw [used_setUsed, h.guardBit, Bool.or_true]

theorem Represents.erase (h : Represents m live) (hid : id < 65528) : Represents (clearUsed m id) (live.erase id) := by
  refine ⟨fun j hj => ?_,fun j hj => h.bound j (Finset.mem_of_mem_erase hj),?_⟩
  · rw [used_clearUsed, Finset.mem_erase, Bool.and_eq_true, h.bits j hj, Bool.not_eq_true', decide_eq_false_iff_not,
      ne_comm]
  · rw [used_clearUsed, h.guardBit, decide_eq_false (by omega)]
    rfl

theorem blockStoreRequest_whole (h : id ≤ 65528) : blockStoreRequest m wholeStore id =
    if used m id then (false,m) else (true,setUsed m id) := by
  rw [blockStoreRequest, if_neg (by omega)]
  rfl

theorem blockStoreRequest_past (h : 65528 < id) : blockStoreRequest m wholeStore id = (false,m) := if_pos h

theorem blockStoreRelease_past (h : 65528 < id) : blockStoreRelease m wholeStore id = m := if_neg (by omega)

theorem Represents.allocate (h : Represents m live) :
    (blockStoreAllocate m wholeStore = (sizeMax,m) ∧ ∀ j < 65528, j ∈ live) ∨
    ∃ id < 65528, blockStoreAllocate m wholeStore = (id,setUsed m id) ∧ id ∉ live ∧ ∀ j < id, j ∈ live := by
  rcases blockStoreAllocate_spec m wholeStore (by decide) with ⟨he,hall⟩ | ⟨id,hlt,he,hf,hall⟩
  · exact Or.inl ⟨he,fun j hj => (h.bits j hj).mp (hall j hj)⟩
  · have hlt' : id < 65528 := hlt
    refine Or.inr ⟨id,hlt',he,fun hl => ?_,fun j hj => (h.bits j (by omega)).mp (hall j hj)⟩
    have hu := (h.bits id hlt').mpr hl
    rw [used, hf] at hu
    cases hu

theorem Represents.step (h : Represents m live) {c : StoreCall} (hc : c ≠ .release 65528) :
    Represents (storeAfter m c) (liveAfter m live c) := by
  cases c with
  | allocate =>
    rcases h.allocate with ⟨he,_⟩ | ⟨id,hlt,he,_⟩
    · rwa [storeAfter, liveAfter, he, if_pos rfl]
    · have hne : id ≠ sizeMax := by
        unfold sizeMax
        omega
      rw [storeAfter, liveAfter, he, if_neg hne]
      exact h.insert hlt
  | request id =>
    rw [storeAfter, liveAfter]
    by_cases hid : id ≤ 65528
    · rw [blockStoreRequest_whole hid]
      cases hu : used m id with
      | true => exact h
      | false =>
        have hne : id ≠ 65528 := by
          rintro rfl
          rw [h.guardBit] at hu
          cases hu
        exact h.insert (by omega)
    · rw [blockStoreRequest_past (by omega)]
      exact h
  | release id =>
    have hne : id ≠ 65528 := fun he => hc (he ▸ rfl)
    rw [storeAfter, liveAfter]
    by_cases hid : id < 65528
    · rw [blockStoreRelease_whole hid.le]
      cases hu : used m id with
      | true => exact h.erase hid
      | false =>
        have hnl : id ∉ live := fun hl => by
          rw [(h.bits id hid).mpr hl] at hu
          cases hu
        rwa [Finset.erase_eq_of_notMem hnl]
    · rw [blockStoreRelease_past (by omega), Finset.erase_eq_of_notMem (fun hl => hid (h.bound id hl))]
      exact h

theorem Represents.lawful (h : Represents m live) (c : StoreCall) : Lawful m live c ↔ c ≠ .release 65528 := by
  constructor
  · rintro hl rfl
    have hnl : 65528 ∉ live := fun hm => absurd (h.bound _ hm) (by decide)
    have he := hl hnl
    rw [blockStoreRelease_whole le_rfl, h.guardBit, if_pos rfl] at he
    have hu := h.guardBit
    rw [← he, used_clearUsed] at hu
    simp at hu
  · intro hc
    cases c with
    | allocate =>
      rcases h.allocate with ⟨he,hall⟩ | ⟨id,hlt,he,hfree,hall⟩
      · exact Or.inl ⟨by rw [he],hall⟩
      · exact Or.inr (by rw [he]; exact ⟨hlt,hfree,hall⟩)
    | request id =>
      rw [Lawful, blockStoreGetTotalBlocks]
      by_cases hid : id ≤ 65528
      · rw [blockStoreRequest_whole hid]
        by_cases hlt : id < 65528
        · rw [← h.bits id hlt]
          cases used m id <;> simp [hlt]
        · obtain rfl : id = 65528 := by omega
          simp [h.guardBit]
      · rw [blockStoreRequest_past (by omega)]
        simp
        omega
    | release id =>
      intro hnl
      have hne : id ≠ 65528 := fun he => hc (he ▸ rfl)
      by_cases hid : id < 65528
      · have hu : used m id = false := by
          by_contra hu
          exact hnl ((h.bits id hid).mp (by simpa using hu))
        rw [blockStoreRelease_whole hid.le, hu]
        rfl
      · exact blockStoreRelease_past (by omega)

theorem Represents.card (h : Represents m live) : blockStoreGetUsedBlocks m wholeStore = live.card := by
  have hl : live = ((List.range 65528).filter (used m)).toFinset := by
    ext id
    rw [List.mem_toFinset, List.mem_filter, List.mem_range]
    exact ⟨fun hm => ⟨h.bound id hm,(h.bits id (h.bound id hm)).mpr hm⟩,fun hm => (h.bits id hm.1).mp hm.2⟩
  rw [blockStoreGetUsedBlocks, bitmapTotalSet_eq, hl, List.toFinset_card_of_nodup (List.nodup_range.filter _),
    ← List.countP_eq_length_filter]
  rfl

end Calls

/-- In every run that never releases id 65528, a call behaves as on the set of the live ids exactly when
it is not that release, and the counts are those of the set. -/
theorem allocator_law {m : Mem} {live : Finset ℕ}
    (h : Reach storeStep (fun _ c => c ≠ .release 65528) (blockStoreCreate,∅) (m,live)) :
    (∀ c, Lawful m live c ↔ c ≠ .release 65528) ∧ (∀ id ∈ live, id < blockStoreGetTotalBlocks) ∧
      blockStoreGetUsedBlocks m wholeStore = live.card ∧
      blockStoreGetFreeBlocks m wholeStore = blockStoreGetTotalBlocks - live.card := by
  have hr : Represents m live := by
    refine h.invariant (P := fun s => Represents s.1 s.2) represents_create (fun hp hc hs => ?_)
    cases hs
    exact hp.step hc
  refine ⟨hr.lawful,hr.bound,hr.card,?_⟩
  rw [blockStoreGetFreeBlocks, ← hr.card]
  rfl

theorem allocator_law_allocate : ∃ m, storeStep (blockStoreCreate,∅) .allocate = some (m,{0}) ∧
    blockStoreGetUsedBlocks m wholeStore = 1 ∧ blockStoreGetFreeBlocks m wholeStore = 65527 := by
  have ha : (blockStoreAllocate blockStoreCreate wholeStore).1 = 0 := by decide +kernel
  have hs : storeStep (blockStoreCreate,∅) .allocate = some (storeAfter blockStoreCreate .allocate,{0}) := by
    rw [storeStep, liveAfter, ha, if_neg (by decide)]
    rfl
  have hl := allocator_law (Reach.refl.tail (a := .allocate) (by simp) hs)
  refine ⟨_,hs,?_,?_⟩
  · rw [hl.2.2.1]
    rfl
  · rw [hl.2.2.2]
    rfl

/-- Once the guard bit is released it can be requested: an id past the last block is obtained. -/
theorem allocator_law_fails : ¬ ∀ m live, Reach storeStep (fun _ _ => True) (blockStoreCreate,∅) (m,live) →
    ∀ id ∈ live, id < blockStoreGetTotalBlocks := by
  intro h
  have hr : (blockStoreRequest (blockStoreRelease blockStoreCreate wholeStore 65528) wholeStore 65528).1 = true := by
    decide +kernel
  have h₁ : Reach storeStep (fun _ _ => True) (blockStoreCreate,∅) (storeAfter blockStoreCreate (.release 65528),∅) :=
    Reach.refl.tail (a := .release 65528) trivial (by rw [storeStep, liveAfter, Finset.erase_empty])
  have hl : liveAfter (storeAfter blockStoreCreate (.release 65528)) ∅ (.request 65528) = {65528} := by
    rw [liveAfter, storeAfter, hr, if_pos rfl]
    rfl
  have h₂ := h _ _ (h₁.tail (a := .request 65528) trivial rfl) 65528 (by rw [hl]; exact Finset.mem_singleton_self _)
  exact absurd h₂ (by decide)

end LiteOSFS
