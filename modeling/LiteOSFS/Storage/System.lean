import LiteOSFS.Storage.Image
import Mathlib.Logic.Relation

/-! # The changes that an image may undergo

A `SysStep` is one call of a block store operation with a block id from 17 to
65527 or an inode id below 256. Along such steps the system area (the inode
bitmap, the inode table and the free-block bitmap) changes in the intended way.
-/
namespace LiteOSFS
open Memory

inductive SysStep (m : Mem) : Mem → Prop where
  | allocate : SysStep m (blockStoreAllocate m wholeStore).2
  | release {id : ℕ} (h : DataId id) : SysStep m (blockStoreRelease m wholeStore id)
  | write {id : ℕ} (h : DataId id) (b : Mem) : SysStep m (blockStoreWrite m wholeStore id b).2
  | inodeAllocate : SysStep m (blockStoreAllocate m inodeStore).2
  | inodeRelease {i : ℕ} (h : i < 256) : SysStep m (blockStoreRelease m inodeStore i)
  | inodeWrite {i : ℕ} (h : i < 256) (x : Inode) : SysStep m (blockStoreInodeWrite m inodeStore i x).2

abbrev SysSteps : Mem → Mem → Prop := Relation.ReflTransGen SysStep

/-- Blocks 0 to 16 are marked used. -/
def SysUsed (m : Mem) : Prop := ∀ b < 17, used m b = true

theorem blockStoreWrite_data {m b : Mem} {id : ℕ} (h : id ≤ 65528) :
    blockStoreWrite m wholeStore id b = (1024,putBlock m id b) := by
  rw [blockStoreWrite, if_pos h, putBlock, wholeStore, Nat.zero_add]

theorem blockStoreRead_data {m : Mem} {id : ℕ} (h : id ≤ 65528) :
    blockStoreRead m wholeStore id = some (blockAt m id) := by
  rw [blockStoreRead, if_pos h, blockAt, wholeStore, Nat.zero_add]

theorem blockStoreInodeRead_table {m : Mem} {i : ℕ} (h : i < 256) :
    blockStoreInodeRead m inodeStore i = some (inodeAt m i) := by
  rw [blockStoreInodeRead, if_pos (by omega)]
  rfl

theorem blockStoreInodeWrite_table {m : Mem} {i : ℕ} {x : Inode} (h : i < 256) :
    blockStoreInodeWrite m inodeStore i x = (64,putInode m i x) := by
  rw [blockStoreInodeWrite, if_pos h]
  rfl

theorem blockStoreRelease_whole {m : Mem} {id : ℕ} (h : id ≤ 65528) :
    blockStoreRelease m wholeStore id = if used m id then clearUsed m id else m := by
  rw [blockStoreRelease, if_pos h]
  rfl

theorem blockStoreRelease_inode {m : Mem} {i : ℕ} (h : i < 256) :
    blockStoreRelease m inodeStore i = if inodeUsed m i then clearInodeUsed m i else m := by
  rw [blockStoreRelease, if_pos (by omega)]
  rfl

/-- The number that `block_store_allocate` of the whole store returns. -/
def firstFree (m : Mem) : ℕ := bitmapFfz m wholeStore.fbm
def firstFreeInode (m : Mem) : ℕ := bitmapFfz m inodeStore.fbm

theorem blockStoreAllocate_whole (m : Mem) :
    blockStoreAllocate m wholeStore =
      if firstFree m = sizeMax then (sizeMax,m) else (firstFree m,setUsed m (firstFree m)) := rfl

theorem blockStoreAllocate_inode (m : Mem) :
    blockStoreAllocate m inodeStore =
      if firstFreeInode m = sizeMax then (sizeMax,m)
      else (firstFreeInode m,setInodeUsed m (firstFreeInode m)) := rfl

/-- A block that is allocated is a data block that was free, the first one. -/
theorem firstFree_spec {m : Mem} (hs : SysUsed m) (h : firstFree m ≠ sizeMax) :
    DataId (firstFree m) ∧ used m (firstFree m) = false ∧ ∀ b < firstFree m, used m b = true := by
  rcases bitmapFfz_spec m wholeStore.fbm with ⟨he,_⟩ | ⟨hlt,hf,hall⟩
  · exact absurd he h
  · refine ⟨⟨?_,hlt⟩,hf,hall⟩
    by_contra hn
    have hu := hs (firstFree m) (by omega)
    rw [used, firstFree, hf] at hu
    cases hu

theorem firstFree_congr {m m' : Mem} (h : ∀ b < 65528, used m b = used m' b) : firstFree m = firstFree m' :=
  bitmapFfz_congr h

theorem firstFree_eq_sizeMax {m : Mem} (h : firstFree m = sizeMax) : ∀ b < 65528, used m b = true := by
  rcases bitmapFfz_spec m wholeStore.fbm with ⟨_,hall⟩ | ⟨hlt,_,_⟩
  · exact hall
  · have hlt' : firstFree m < 65528 := hlt
    rw [h] at hlt'
    exact absurd hlt' (by decide)

theorem firstFreeInode_spec {m : Mem} (h : firstFreeInode m ≠ sizeMax) :
    firstFreeInode m < 256 ∧ inodeUsed m (firstFreeInode m) = false ∧
      ∀ i < firstFreeInode m, inodeUsed m i = true := by
  rcases bitmapFfz_spec m inodeStore.fbm with ⟨he,_⟩ | h
  · exact absurd he h
  · exact h

theorem firstFreeInode_eq_sizeMax {m : Mem} : firstFreeInode m = sizeMax ↔ ∀ i < 256, inodeUsed m i = true := by
  rcases bitmapFfz_spec m inodeStore.fbm with ⟨he,hall⟩ | ⟨hlt,hf,_⟩
  · exact ⟨fun _ => hall,fun _ => he⟩
  · have hlt' : firstFreeInode m < 256 := hlt
    constructor
    · intro h
      rw [h] at hlt'
      exact absurd hlt' (by decide)
    · intro h
      have hf : inodeUsed m (firstFreeInode m) = false := hf
      rw [h _ hlt'] at hf
      cases hf

/-- The first free inode, when those before it are in use. -/
theorem firstFreeInode_eq {m : Mem} {n : ℕ} (hn : n < 256) (hfree : inodeUsed m n = false)
    (hall : ∀ i < n, inodeUsed m i = true) : firstFreeInode m = n := by
  have hne : firstFreeInode m ≠ sizeMax := fun he => by
    rw [firstFreeInode_eq_sizeMax.mp he n hn] at hfree
    cases hfree
  obtain ⟨_,hf,hbefore⟩ := firstFreeInode_spec hne
  rcases Nat.lt_trichotomy (firstFreeInode m) n with hlt | heq | hlt
  · rw [hall _ hlt] at hf
    cases hf
  · exact heq
  · rw [hbefore n hlt] at hfree
    cases hfree

section Steps
variable {m m' : Mem}

theorem SysSteps.setUsed (h : firstFree m ≠ sizeMax) : SysSteps m (setUsed m (firstFree m)) := by
  have hs := SysStep.allocate (m := m)
  rw [blockStoreAllocate_whole, if_neg h] at hs
  exact Relation.ReflTransGen.single hs

theorem SysSteps.putBlock {id : ℕ} (h : DataId id) (b : Mem) : SysSteps m (putBlock m id b) := by
  have hs := SysStep.write (m := m) h b
  rw [blockStoreWrite_data h.2.le] at hs
  exact Relation.ReflTransGen.single hs

theorem SysSteps.putInode {i : ℕ} (h : i < 256) (x : Inode) : SysSteps m (putInode m i x) := by
  have hs := SysStep.inodeWrite (m := m) h x
  rw [blockStoreInodeWrite_table h] at hs
  exact Relation.ReflTransGen.single hs

theorem SysSteps.setInodeUsed (h : firstFreeInode m ≠ sizeMax) :
    SysSteps m (setInodeUsed m (firstFreeInode m)) := by
  have hs := SysStep.inodeAllocate (m := m)
  rw [blockStoreAllocate_inode, if_neg h] at hs
  exact Relation.ReflTransGen.single hs

theorem SysStep.sysUsed (h : SysStep m m') (hs : SysUsed m) : SysUsed m' := by
  intro b hb
  have hu := hs b hb
  cases h with
  | allocate =>
    rw [blockStoreAllocate_whole]
    split_ifs with hf
    · exact hu
    · rw [used_setUsed, hu, Bool.or_true]
  | release h =>
    obtain ⟨h17,_⟩ := h
    rw [blockStoreRelease_whole (by omega)]
    split_ifs with hf
    · rw [used_clearUsed, hu, decide_eq_false (by omega)]
      rfl
    · exact hu
  | write h c => rwa [blockStoreWrite_data h.2.le, used_putBlock h (by omega)]
  | inodeAllocate =>
    rw [blockStoreAllocate_inode]
    split_ifs with hf
    · exact hu
    · rwa [used_setInodeUsed (firstFreeInode_spec hf).1 (by omega)]
  | inodeRelease h =>
    rw [blockStoreRelease_inode h]
    split_ifs
    · rwa [used_clearInodeUsed h (by omega)]
    · exact hu
  | inodeWrite h x => rwa [blockStoreInodeWrite_table h, used_putInode h (by omega)]

theorem SysSteps.sysUsed (h : SysSteps m m') (hs : SysUsed m) : SysUsed m' := by
  induction h with
  | refl => exact hs
  | tail _ hs' ih => exact hs'.sysUsed ih

end Steps

end LiteOSFS
