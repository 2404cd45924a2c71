import LiteOSFS.FileSystem.Directory
import LiteOSFS.FileSystem.Write

/-! # fs_remove -/
namespace LiteOSFS
open Memory CString

/-- `block_store_release` of each non-zero pointer among the first `n`. -/
def releaseAll (m : Mem) (ptrs : ℕ → UInt16) (n : ℕ) : Mem :=
  (List.range n).foldl (fun m i =>
    if ptrs i ≠ 0 then blockStoreRelease m wholeStore (ptrs i).toNat else m) m

/-- The pointers of an index block, as the 512-element buffer that they are read into; a failed read
leaves the buffer unset. -/
def readPointers (m : Mem) (blockID : ℕ) : Option (ℕ → UInt16) :=
  (blockStoreRead m wholeStore blockID).map pointersOf

/-- An index block's targets and then the block itself. -/
def releaseIndirect (m : Mem) (blockID : UInt16) : Option Mem :=
  if blockID = 0 then some m
  else (readPointers m blockID.toNat).map fun ptrs =>
    blockStoreRelease (releaseAll m ptrs 512) wholeStore blockID.toNat

def releaseDouble (m : Mem) (blockID : UInt16) : Option Mem :=
  if blockID = 0 then some m
  else (readPointers m blockID.toNat).bind fun ptrs =>
    ((List.range 512).foldlM (fun m i => releaseIndirect m (ptrs i)) m).map fun m =>
      blockStoreRelease m wholeStore blockID.toNat

/-- The blocks of a regular file: direct, indirect, double-indirect. -/
def releaseFile (m : Mem) (inode : Inode) : Option Mem :=
  let m := releaseAll m (fun i => if h : i < 6 then inode.directPointer ⟨i,h⟩ else 0) 6
  (releaseIndirect m inode.indirectPointer).bind fun m => releaseDouble m inode.doubleIndirectPointer

/-- An empty directory: only its first entry is zeroed before its block is released. A directory that
never had an entry has block number 0. -/
def releaseDirectory (m : Mem) (inode : Inode) : ℤ × Mem :=
  if !isDirectoryEmpty inode then (-8,m)
  else match blockStoreRead m wholeStore inode.dirBlock with
    | none => (-9,m)
    | some dir =>
      let m := (blockStoreWrite m wholeStore inode.dirBlock (copyIn dir 0 33 zeros)).2
      (0,blockStoreRelease m wholeStore inode.dirBlock)

/-- The inode is zeroed and released, then the entry found by `getFileIndexInDir` is taken out of the
parent as it was read before. -/
def unlinkInode (m : Mem) (dirID fileID : ℕ) (parent : Inode) (dir : Mem) (fileName : CStr) : ℤ × Mem :=
  let m := (blockStoreInodeWrite m inodeStore fileID Inode.cleared).2
  let m := blockStoreRelease m inodeStore fileID
  match getFileIndexInDir parent dir fileName with
  | none => (-8,m)
  | some entryIndex =>
    let m := (blockStoreWrite m wholeStore parent.dirBlock (clearEntry dir entryIndex)).2
    (0,(blockStoreInodeWrite m inodeStore dirID (parent.unmarkEntry entryIndex)).2)

/-- `fs_remove` once the parent and the inode of the file are known. -/
def removeIn (m : Mem) (dirID fileID : ℕ) (fileName : CStr) : Option (ℤ × Mem) :=
  match readDir m dirID with
  | none => some (-6,m)
  | some (parent,dir) =>
    match blockStoreInodeRead m inodeStore fileID with
    | none => some (-7,m)
    | some file =>
      if file.fileType = typeRegular then
        if file.linkCount > 1 then
          some (0,(blockStoreInodeWrite m inodeStore fileID { file with linkCount := file.linkCount - 1 }).2)
        else (releaseFile m file).map fun m => unlinkInode m dirID fileID parent dir fileName
      else
        let r := releaseDirectory m file
        if r.1 ≠ 0 then some r else some (unlinkInode r.2 dirID fileID parent dir fileName)

def fsRemove (s : F19FS) (path : Option CStr) : Option (ℤ × F19FS) :=
  match path with
  | none => some (-1,s)
  | some path =>
    if path = [] then some (-1,s)
    else if !isValidPath path then some (-2,s)
    else if (basename path).length ≥ 32 then some (-3,s)
    else
      let dirID := parentOf s.image path
      if dirID = sizeMax then some (-4,s)
      else
        let fileID := getFileInodeID s.image dirID (basename path)
        if fileID = 0 then some (-5,s)
        else (removeIn s.image dirID fileID (basename path)).map fun r => (r.1,{ s with image := r.2 })

end LiteOSFS
