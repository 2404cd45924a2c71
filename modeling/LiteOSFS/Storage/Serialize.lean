import LiteOSFS.Storage.BlockStore

/-! # Serialization of a block store

`block_store_serialize` and `block_store_deserialize` over POSIX files. The
memory is that of the whole process: a store is the address of its mapped image
and the address of its `bitmap_t`, whose fields lie at their offsets. Both
functions take the bytes at the `bitmap_t` for those of the bitmap.
-/
namespace LiteOSFS
open Memory

/-- A regular file: its length, and its bytes, zero from there on. -/
structure PosixFile where
  length : ℕ
  bytes : Mem

namespace PosixFile

/-- `open` with `O_CREAT`. -/
def openCreat : Option PosixFile → PosixFile
  | some f => f
  | none => ⟨0,zeros⟩

/-- `open` with `O_TRUNC` too. -/
def openTrunc (f : Option PosixFile) : PosixFile := { openCreat f with length := 0, bytes := zeros }

def ftruncate (f : PosixFile) (n : ℕ) : PosixFile := ⟨n,fun a => if a < min f.length n then f.bytes a else 0⟩

/-- `write` of all `n` bytes. -/
def write (f : PosixFile) (offset n : ℕ) (buf : Mem) : PosixFile :=
  ⟨max f.length (offset + n),copyIn f.bytes offset n buf⟩

/-- The number of bytes that `read` of `n` transfers. -/
def readCount (f : PosixFile) (offset n : ℕ) : ℕ := min n (f.length - offset)

/-- The memory after `read` to `dst`. -/
def read (f : PosixFile) (offset n : ℕ) (m : Mem) (dst : ℕ) : Mem :=
  copyIn m dst (f.readCount offset n) (shift f.bytes offset)

end PosixFile

/-- `struct bitmap` as it lies in memory: two ints, the data pointer and two sizes. -/
def bitmapObject (flags data bitCount : ℕ) : Mem := fun i =>
  if i < 4 then leByte (bitCount % 8) i
  else if i < 8 then leByte flags (i - 4)
  else if i < 16 then leByte data (i - 8)
  else if i < 24 then leByte bitCount (i - 16)
  else leByte ((bitCount + 7) / 8) (i - 24)

/-- The store whose image is mapped at one address and whose `bitmap_t` is at the other. -/
def mappedStore (m : Mem) (dataBlocks fbm : ℕ) : BlockStore := ⟨dataBlocks,⟨leNat m (fbm + 8) 8,leNat m (fbm + 16) 8⟩⟩

/-- `create_file`. -/
def createFile (f : Option PosixFile) : PosixFile := (PosixFile.openTrunc f).ftruncate (65536 * 1024)

/-- `block_store_init(true, fname)` in a process with memory `m`: the file is mapped shared at `dataBlocks`
and cleared through the mapping, and `bitmap_overlay` makes the object at `fbm`. -/
def blockStoreInit (m : Mem) (f : Option PosixFile) (dataBlocks fbm : ℕ) : Mem × PosixFile :=
  let file := createFile f
  let file := file.write 0 (65536 * 1024) blockStoreCreate
  let m := copyIn m dataBlocks (65536 * 1024) file.bytes
  (copyIn m fbm 32 (bitmapObject 1 (dataBlocks + 65528 * 1024) 65528),file)

/-- The result and the file after `block_store_serialize`, `f` being what was there under the name. -/
def blockStoreSerialize (m : Mem) (dataBlocks fbm : ℕ) (f : Option PosixFile) : ℕ × PosixFile :=
  let file := PosixFile.openCreat f
  let file := file.write 0 (65528 * 1024) (shift m dataBlocks)
  let file := file.write (65528 * 1024) 8192 (shift m fbm)
  (blockStoreGetUsedBlocks m (mappedStore m dataBlocks fbm) * 1024,file)

/-- The memory after `block_store_deserialize`, `dataBlocks` and `fbm` being where `block_store_create` puts
the new store. The descriptor it reads from is of the file that `block_store_create` truncates and maps. -/
def blockStoreDeserialize (m : Mem) (f : PosixFile) (dataBlocks fbm : ℕ) : Mem :=
  let s := blockStoreInit m (some f) dataBlocks fbm
  let m := s.2.read 0 (65528 * 1024) s.1 dataBlocks
  s.2.read (s.2.readCount 0 (65528 * 1024)) 8192 m fbm

section Deserialize
variable (m : Mem) (f : Option PosixFile) (dataBlocks fbm : ℕ)

/-- `O_TRUNC` leaves nothing of what was serialized. -/
theorem blockStoreInit_file : ((blockStoreInit m f dataBlocks fbm).2).length = 65536 * 1024 ∧
    ∀ a < 65536 * 1024, (blockStoreInit m f dataBlocks fbm).2.bytes a = blockStoreCreate a := by
  refine ⟨rfl,fun a ha => ?_⟩
  exact copyIn_inside (Nat.zero_le a) (by omega)

/-- The zeros of the new file's bitmap go over the `bitmap_t`. -/
theorem deserialize_object (f : PosixFile) {k : ℕ} (hk : k < 8191) :
    blockStoreDeserialize m f dataBlocks fbm (fbm + k) = 0 := by
  obtain ⟨hlen,hbytes⟩ := blockStoreInit_file m (some f) dataBlocks fbm
  have hc : (blockStoreInit m (some f) dataBlocks fbm).2.readCount 0 (65528 * 1024) = 65528 * 1024 := by
    rw [PosixFile.readCount, hlen]
    rfl
  have hc' : (blockStoreInit m (some f) dataBlocks fbm).2.readCount (65528 * 1024) 8192 = 8192 := by
    rw [PosixFile.readCount, hlen]
    rfl
  simp only [blockStoreDeserialize]
  rw [hc]
  simp only [PosixFile.read]
  rw [hc', copyIn_inside (by omega) (by omega), Nat.add_sub_cancel_left, shift, hbytes _ (by omega)]
  exact if_neg (by omega)

/-- The store that `block_store_deserialize` returns has a bitmap of no bits. -/
theorem deserialize_bitCount (f : PosixFile) :
    (mappedStore (blockStoreDeserialize m f dataBlocks fbm) dataBlocks fbm).fbm.bitCount = 0 :=
  leNat_zero (fun k hk => by rw [Nat.add_assoc]; exact deserialize_object m dataBlocks fbm f (by omega))

end Deserialize
end LiteOSFS
