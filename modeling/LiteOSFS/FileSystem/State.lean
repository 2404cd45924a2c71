import LiteOSFS.Storage.BlockStore

/-! # The mounted file system

`struct F19FS`: the image that `BlockStore_whole` and `BlockStore_inode` share,
and the descriptor memory of `BlockStore_fd`.
-/
namespace LiteOSFS
open Memory

structure F19FS where
  image : Mem
  fdTable : Mem

/-- `file_t`, with the values that are not enumerators of it. -/
inductive FileT where
  | regular
  | directory
  | invalid
  deriving DecidableEq

/-- `seek_t`, likewise. -/
inductive SeekT where
  | set
  | cur
  | tail
  | invalid
  deriving DecidableEq

def allocateTimes (m : Mem) (bs : BlockStore) : ℕ → Mem
  | 0 => m
  | n + 1 => (blockStoreAllocate (allocateTimes m bs n) bs).2

/-- The record that `fs_format` gives the root; its block is not allocated yet. -/
def rootInode : Inode := { Inode.cleared with fileType := typeDirectory, inodeNumber := 0, linkCount := 1 }

/-- `fs_format` on a non-empty file name. The first two of the 17 blocks allocated are 0 and 1,
which is where `inodeStore` lies. -/
def fsFormat : F19FS where
  image :=
    let image := allocateTimes blockStoreCreate wholeStore 17
    let image := (blockStoreSubAllocate image inodeStore).2
    (blockStoreInodeWrite image inodeStore 0 rootInode).2
  fdTable := blockStoreFdCreate

/-- `fs_unmount` followed by `fs_mount` of the same file. -/
def fsMount (s : F19FS) : F19FS := { s with fdTable := blockStoreFdCreate }

end LiteOSFS
