import LiteOSFS.Storage.Serialize
import LiteOSFS.Properties.StoreCalls

/-! # Serialization loses the store

What `block_store_deserialize` returns is never the store that was serialized:
its bitmap has no bits, so no block counts as used and none can be allocated.
-/
namespace LiteOSFS
open Memory

/-- A process with a store that `block_store_create` has made. -/
structure OpenStore where
  memory : Mem
  dataBlocks : ℕ
  fbm : ℕ
  overlay : leNat memory (fbm + 8) 8 = dataBlocks + 65528 * 1024
  bitCount : leNat memory (fbm + 16) 8 = 65528

def OpenStore.store (s : OpenStore) : BlockStore := mappedStore s.memory s.dataBlocks s.fbm

/-- The block is among those of the bitmap, and its bit is set. -/
def inUse (m : Mem) (bs : BlockStore) (id : ℕ) : Prop := id < bs.fbm.bitCount ∧ bitmapTest m bs.fbm id = true

/-- Two stores have the same blocks, used blocks and counts, and allocate the same block next. -/
structure SameStore (m : Mem) (bs : BlockStore) (m' : Mem) (bs' : BlockStore) : Prop where
  blocks : ∀ id < 65528, blockStoreRead m' bs' id = blockStoreRead m bs id
  inUse : ∀ id < 65528, inUse m' bs' id ↔ inUse m bs id
  usedBlocks : blockStoreGetUsedBlocks m' bs' = blockStoreGetUsedBlocks m bs
  freeBlocks : blockStoreGetFreeBlocks m' bs' = blockStoreGetFreeBlocks m bs
  allocate : (blockStoreAllocate m' bs').1 = (blockStoreAllocate m bs).1

/-- The store is serialized over `f` and deserialized in a process with memory `m`, to the given addresses. -/
def RoundTrip (s : OpenStore) (f : Option PosixFile) (m : Mem) (dataBlocks fbm : ℕ) : Prop :=
  let file := (blockStoreSerialize s.memory s.dataBlocks s.fbm f).2
  let m' := blockStoreDeserialize m file dataBlocks fbm
  SameStore s.memory s.store m' (mappedStore m' dataBlocks fbm)

/-- A store without bits has no used block, and none to give. -/
theorem empty_store {m : Mem} {bs : BlockStore} (h : bs.fbm.bitCount = 0) :
    blockStoreGetUsedBlocks m bs = 0 ∧ (blockStoreAllocate m bs).1 = sizeMax := by
  have hle := bitmapTotalSet_le m bs.fbm
  have hn : bs.fbm.bitCount < sizeMax := by
    rw [h]
    decide
  rw [blockStoreGetUsedBlocks, (blockStoreAllocate_count m hn).1]
  omega

/-- A store of no bits agrees with no other: one that has blocks to give differs in the next allocation, a
full one in the number of used blocks. -/
theorem SameStore.bitCount {m m' : Mem} {bs bs' : BlockStore} (h : SameStore m bs m' bs')
    (h0 : bs'.fbm.bitCount = 0) (hn : bs.fbm.bitCount < sizeMax) : bs.fbm.bitCount = 0 := by
  obtain ⟨hused,halloc⟩ := empty_store (m := m') h0
  have hfull := (blockStoreAllocate_count m hn).1.mp (h.allocate.symm.trans halloc)
  have hcount : bitmapTotalSet m bs.fbm = 0 := h.usedBlocks.symm.trans hused
  rw [← hfull, hcount]

theorem round_trip_never (s : OpenStore) (f : Option PosixFile) (m : Mem) (dataBlocks fbm : ℕ) :
    ¬ RoundTrip s f m dataBlocks fbm := by
  intro h
  have hcount : s.store.fbm.bitCount = 65528 := s.bitCount
  have h0 := h.bitCount (deserialize_bitCount m dataBlocks fbm _) (by rw [hcount]; decide)
  omega

/-- A process that has just made a store. -/
def freshStore : OpenStore where
  memory := (blockStoreInit zeros none 4096 (2 ^ 32)).1
  dataBlocks := 4096
  fbm := 2 ^ 32
  overlay := by decide +kernel
  bitCount := by decide +kernel

/-- The new store gives block 0 next, the one read back nothing. -/
theorem round_trip_fails : ¬ RoundTrip freshStore none zeros 4096 (2 ^ 32) := by
  intro h
  have h₁ : (blockStoreAllocate freshStore.memory freshStore.store).1 = 0 := by decide +kernel
  have hs := h.allocate.symm.trans (empty_store (deserialize_bitCount zeros 4096 (2 ^ 32)
    (blockStoreSerialize freshStore.memory freshStore.dataBlocks freshStore.fbm none).2)).2
  rw [h₁] at hs
  exact absurd hs (by decide)

end LiteOSFS
