import LiteOSFS.Storage.Records

/-! # Block stores

`block_store.c`: a store is the address of its data and a free-block bitmap. The
whole store and the inode store overlay the same image; the descriptor store has
a memory of its own, where its bitmap lies past its 256 records.
-/
namespace LiteOSFS
open Memory

structure BlockStore where
  dataBlocks : ℕ
  fbm : Bitmap

/-- `BlockStore_whole`: 65536 blocks, the last eight holding the bitmap of the other 65528. -/
def wholeStore : BlockStore := ⟨0,⟨65528 * 1024,65528⟩⟩

/-- `BlockStore_inode`: the bitmap in block 0 and the table in blocks 1 to 16. -/
def inodeStore : BlockStore := ⟨1024,⟨0,256⟩⟩

/-- `BlockStore_fd`, in the descriptor memory. -/
def fdStore : BlockStore := ⟨0,⟨4096,256⟩⟩

def blockStoreAllocate (m : Mem) (bs : BlockStore) : ℕ × Mem :=
  let id := bitmapFfz m bs.fbm
  if id = sizeMax then (sizeMax,m) else (id,bitmapSet m bs.fbm id)

def blockStoreSubAllocate (m : Mem) (bs : BlockStore) : ℕ × Mem := blockStoreAllocate m bs

def releaseBit (m : Mem) (bs : BlockStore) (blockId : ℕ) : Mem :=
  if bitmapTest m bs.fbm blockId then bitmapReset m bs.fbm blockId else m

def blockStoreRelease (m : Mem) (bs : BlockStore) (blockId : ℕ) : Mem :=
  if blockId ≤ 65528 then releaseBit m bs blockId else m

/-- The result and the memory after `block_store_request`. -/
def blockStoreRequest (m : Mem) (bs : BlockStore) (blockId : ℕ) : Bool × Mem :=
  if blockId > 65528 then (false,m)
  else if bitmapTest m bs.fbm blockId then (false,m)
  else (true,bitmapSet m bs.fbm blockId)

def blockStoreSubRelease (m : Mem) (bs : BlockStore) (blockId : ℕ) : Mem :=
  if blockId < 256 then releaseBit m bs blockId else m

def blockStoreSubTest (m : Mem) (bs : BlockStore) (blockId : ℕ) : Bool :=
  if blockId > 255 then false else bitmapTest m bs.fbm blockId

def blockStoreGetUsedBlocks (m : Mem) (bs : BlockStore) : ℕ := bitmapTotalSet m bs.fbm

def blockStoreGetTotalBlocks : ℕ := 65528

def blockStoreGetFreeBlocks (m : Mem) (bs : BlockStore) : ℕ := 65528 - bitmapTotalSet m bs.fbm

/-- The buffer that is filled, or `none` for the return value 0 that leaves it alone. -/
def blockStoreRead (m : Mem) (bs : BlockStore) (blockId : ℕ) : Option Mem :=
  if blockId ≤ 65528 then some (window m (bs.dataBlocks + blockId * 1024) 1024) else none

def blockStoreWrite (m : Mem) (bs : BlockStore) (blockId : ℕ) (buffer : Mem) : ℕ × Mem :=
  if blockId ≤ 65528 then (1024,copyIn m (bs.dataBlocks + blockId * 1024) 1024 buffer) else (0,m)

def blockStoreInodeRead (m : Mem) (bs : BlockStore) (blockId : ℕ) : Option Inode :=
  if blockId ≤ 255 then some (Inode.ofBytes (window m (bs.dataBlocks + blockId * 64) 64)) else none

def blockStoreInodeWrite (m : Mem) (bs : BlockStore) (blockId : ℕ) (buffer : Inode) : ℕ × Mem :=
  if blockId < 256 then (64,copyIn m (bs.dataBlocks + blockId * 64) 64 buffer.toBytes) else (0,m)

def blockStoreFdRead (m : Mem) (bs : BlockStore) (blockId : ℕ) : Option FileDescriptor :=
  if blockId ≤ 255 then some (FileDescriptor.ofBytes (window m (bs.dataBlocks + blockId * 6) 6)) else none

def blockStoreFdWrite (m : Mem) (bs : BlockStore) (blockId : ℕ) (buffer : FileDescriptor) : ℕ × Mem :=
  if blockId < 256 then (6,copyIn m (bs.dataBlocks + blockId * 6) 6 buffer.toBytes) else (0,m)

/-- `block_store_init(true, fname)`: zeroed, with a guard byte past the last bit of the bitmap. -/
def blockStoreCreate : Mem := fun a => if a = 65536 * 1024 - 1 then 0xff else 0

/-- `block_store_fd_create`. -/
def blockStoreFdCreate : Mem := zeros

/-- Allocation returns the least clear bit and sets it, or `SIZE_MAX` on a full store. -/
theorem blockStoreAllocate_spec (m : Mem) (bs : BlockStore) (hn : bs.fbm.bitCount < sizeMax) :
    (blockStoreAllocate m bs = (sizeMax,m) ∧ ∀ i < bs.fbm.bitCount, bitmapTest m bs.fbm i = true) ∨
    ∃ id < bs.fbm.bitCount, blockStoreAllocate m bs = (id,bitmapSet m bs.fbm id) ∧
      bitmapTest m bs.fbm id = false ∧ ∀ i < id, bitmapTest m bs.fbm i = true := by
  rcases bitmapFfz_spec m bs.fbm with ⟨he,hall⟩ | ⟨hlt,hf,hall⟩
  · exact Or.inl ⟨by simp [blockStoreAllocate,he],hall⟩
  · refine Or.inr ⟨_,hlt,?_,hf,hall⟩
    simp only [blockStoreAllocate]
    rw [if_neg (by omega)]

end LiteOSFS
