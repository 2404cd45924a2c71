import LiteOSFS.FileSystem.Create
import LiteOSFS.FileSystem.Cursor

/-! # fs_move and fs_link -/
namespace LiteOSFS
open Memory CString

/-- A buffer that a read may leave as it was, and an inode likewise; the ids used here were read
before, so neither happens. -/
def blockOr (m : Mem) (blockID : ℕ) : Mem := (blockStoreRead m wholeStore blockID).getD zeros
def inodeOr (m : Mem) (inodeID : ℕ) : Inode := (blockStoreInodeRead m inodeStore inodeID).getD Inode.cleared

/-- The two directory updates of `fs_move`. The destination's `vacantFile` is not changed, and its
name is stored without a terminator. With a full destination the entry would lie before the buffer. -/
def moveEntry (m : Mem) (srcParentID srcFileID dstFileID : ℕ) (srcName : CStr) : Option (ℤ × Mem) :=
  let srcParent := inodeOr m srcParentID
  let dstFile := inodeOr m dstFileID
  let srcDir := blockOr m srcParent.dirBlock
  match getFileIndexInDir srcParent srcDir srcName with
  | none => some (-13,m)
  | some index =>
    let m := (blockStoreWrite m wholeStore srcParent.dirBlock (clearEntry srcDir index)).2
    let m := (blockStoreInodeWrite m inodeStore srcParentID (srcParent.unmarkEntry index)).2
    let location := dstFile.firstVacant
    if location = sizeMax then none
    else
      let dstDir := setEntryInode (blockOr m dstFile.dirBlock) location srcFileID
      let dstDir := strncpy dstDir (33 * location) srcName srcName.length
      some (0,(blockStoreWrite m wholeStore dstFile.dirBlock dstDir).2)

/-- `fs_move` once both parents are known. -/
def moveIn (m : Mem) (srcParentID dstParentID : ℕ) (src dst : CStr) (junk : Inode) : Option (ℤ × Mem) :=
  let r := if checkFileExist m dstParentID (basename dst) then (0,m)
    else fsCreate2 m (some dst) .directory junk
  if r.1 ≠ 0 then some (-10,r.2)
  else
    let srcFileID := getFileInodeID r.2 srcParentID (basename src)
    let dstFileID := getFileInodeID r.2 dstParentID (basename dst)
    if srcParentID = dstFileID then some (-14,r.2)
    else moveEntry r.2 srcParentID srcFileID dstFileID (basename src)

/-- `fs_move` on the image. `junk` is the stack memory that `fs_create2` finds. -/
def fsMoveImage (m : Mem) (src dst : CStr) (junk : Inode) : Option (ℤ × Mem) :=
  if src.length ≤ 1 ∨ dst.length ≤ 1 then some (-2,m)
  else if !isValidPath src then some (-3,m)
  else if !isValidPath dst then some (-4,m)
  else if src.length = dst.length ∧ src ≠ dst then some (-11,m)
  else if (basename src).length ≥ 32 then some (-5,m)
  else if (basename dst).length ≥ 32 then some (-6,m)
  else if (strtok slash (dirname dst)).any
      (fun token => strncmpEq (basename src) token (basename src).length) then some (-14,m)
  else
    let srcParentID := parentOf m src
    if srcParentID = sizeMax then some (-7,m)
    else if !checkFileExist m srcParentID (basename src) then some (-8,m)
    else
      let dstParentID := parentOf m dst
      if dstParentID = sizeMax then some (-9,m)
      else moveIn m srcParentID dstParentID src dst junk

def fsMove (s : F19FS) (src dst : Option CStr) (junk : Inode) : Option (ℤ × F19FS) :=
  match src, dst with
  | some src, some dst => (fsMoveImage s.image src dst junk).map fun r => (r.1,{ s with image := r.2 })
  | _, _ => some (-1,s)

/-- The stores of `fs_link`. When the source is the destination's parent the second inode write
replaces the first. -/
def linkEntry (m : Mem) (srcFileID dstParentID : ℕ) (dstName : CStr) : ℤ × Mem :=
  let dstParent := inodeOr m dstParentID
  let dir := blockOr m dstParent.dirBlock
  let srcFile := inodeOr m srcFileID
  if srcFile.linkCount ≥ 255 then (-14,m)
  else
    let index := dstParent.firstVacant
    let dir := strncpy (setEntryInode dir index srcFileID) (33 * index) dstName 32
    let linkCount := srcFile.linkCount + 1
    let linkCount := if srcFileID = dstParentID then linkCount + 1 else linkCount
    let m := (blockStoreInodeWrite m inodeStore srcFileID { srcFile with linkCount := linkCount }).2
    let m := (blockStoreInodeWrite m inodeStore dstParentID (dstParent.markEntry index)).2
    (0,(blockStoreWrite m wholeStore dstParent.dirBlock dir).2)

def fsLinkImage (m : Mem) (src dst : CStr) : ℤ × Mem :=
  if src.length ≤ 1 ∨ dst.length ≤ 1 then (-2,m)
  else if !isValidPath src then (-3,m)
  else if !isValidPath dst then (-4,m)
  else if (basename src).length ≥ 32 then (-5,m)
  else if (basename dst).length ≥ 32 then (-6,m)
  else
    let srcParentID := parentOf m src
    if srcParentID = sizeMax then (-7,m)
    else if !checkFileExist m srcParentID (basename src) then (-8,m)
    else
      let dstParentID := parentOf m dst
      if dstParentID = sizeMax then (-9,m)
      else if checkFileExist m dstParentID (basename dst) then (-10,m)
      else if (inodeOr m dstParentID).entryCount = 31 then (-13,m)
      else linkEntry m (getFileInodeID m srcParentID (basename src)) dstParentID (basename dst)

def fsLink (s : F19FS) (src dst : Option CStr) : ℤ × F19FS :=
  match src, dst with
  | some src, some dst =>
    let r := fsLinkImage s.image src dst
    (r.1,{ s with image := r.2 })
  | _, _ => (-1,s)

end LiteOSFS
