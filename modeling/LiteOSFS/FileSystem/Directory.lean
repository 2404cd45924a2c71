import LiteOSFS.FileSystem.State
import LiteOSFS.FileSystem.Path

/-! # Directory blocks and the searches in them

A directory block is 31 entries of 33 bytes (`struct directoryFile`). A name
without a terminator is read on into the following bytes, as `strlen` and
`strcmp` do, but not past the end of the block.
-/
namespace LiteOSFS
open Memory CString

def entryName (dir : Mem) (i : ℕ) : CStr := CString.read dir 1024 (33 * i)
def entryInode (dir : Mem) (i : ℕ) : ℕ := (dir (33 * i + 32)).toNat

def setEntryInode (dir : Mem) (i inodeNumber : ℕ) : Mem :=
  copyIn dir (33 * i + 32) 1 (fun _ => UInt8.ofNat inodeNumber)

/-- `strcpy((dir + i)->filename, name)` and `(dir + i)->inodeNumber = inodeNumber`. -/
def putEntry (dir : Mem) (i : ℕ) (name : CStr) (inodeNumber : ℕ) : Mem :=
  setEntryInode (strcpy dir (33 * i) name) i inodeNumber

/-- The entry's inode number and name are zeroed. -/
def clearEntry (dir : Mem) (i : ℕ) : Mem := copyIn (setEntryInode dir i 0) (33 * i) 32 zeros

/-- `(vacantFile >> j) & 1`. -/
def Inode.vacantBit (x : Inode) (j : ℕ) : Bool := x.vacantFile.toNat >>> j &&& 1 == 1

/-- The block of a directory. -/
def Inode.dirBlock (x : Inode) : ℕ := (x.directPointer firstDirect).toNat

/-- `bitmap_set` and `bitmap_reset` through the overlay of `vacantFile`. -/
def Inode.markEntry (x : Inode) (i : ℕ) : Inode :=
  { x with vacantFile := vacantOf (bitmapSet (vacantBytes x.vacantFile) entryBitmap i) }
def Inode.unmarkEntry (x : Inode) (i : ℕ) : Inode :=
  { x with vacantFile := vacantOf (bitmapReset (vacantBytes x.vacantFile) entryBitmap i) }

section Entries
variable (x : Inode) (i : ℕ)

@[simp] theorem Inode.markEntry_fileType : (x.markEntry i).fileType = x.fileType := rfl
@[simp] theorem Inode.markEntry_inodeNumber : (x.markEntry i).inodeNumber = x.inodeNumber := rfl
@[simp] theorem Inode.markEntry_dirBlock : (x.markEntry i).dirBlock = x.dirBlock := rfl
@[simp] theorem Inode.unmarkEntry_fileType : (x.unmarkEntry i).fileType = x.fileType := rfl
@[simp] theorem Inode.unmarkEntry_inodeNumber : (x.unmarkEntry i).inodeNumber = x.inodeNumber := rfl
@[simp] theorem Inode.unmarkEntry_dirBlock : (x.unmarkEntry i).dirBlock = x.dirBlock := rfl

theorem Inode.links_fileType (links : UInt64) : ({ x with linkCount := links } : Inode).fileType = x.fileType := rfl
theorem Inode.links_dirBlock (links : UInt64) : ({ x with linkCount := links } : Inode).dirBlock = x.dirBlock := rfl

theorem Inode.links_inodeNumber (links : UInt64) : ({ x with linkCount := links } : Inode).inodeNumber = x.inodeNumber := rfl

end Entries

/-- `bitmap_total_set` and `bitmap_ffz` of the overlay. -/
def Inode.entryCount (x : Inode) : ℕ := bitmapTotalSet (vacantBytes x.vacantFile) entryBitmap
def Inode.firstVacant (x : Inode) : ℕ := bitmapFfz (vacantBytes x.vacantFile) entryBitmap

/-- `strncmp` of entry `i` and `name` over the longer of the two lengths. -/
def sameName (dir : Mem) (i : ℕ) (name : CStr) : Bool :=
  strncmpEq (entryName dir i) name (max (entryName dir i).length name.length)

/-- The loop over the entries that stops at the first match. -/
def firstEntry (inode : Inode) (test : ℕ → Bool) : Option ℕ :=
  (List.range 31).find? (fun i => inode.live i && test i)

/-- The inode and the block of a directory, when both reads succeed. -/
def readDir (m : Mem) (inodeID : ℕ) : Option (Inode × Mem) :=
  (blockStoreInodeRead m inodeStore inodeID).bind fun inode =>
    (blockStoreRead m wholeStore inode.dirBlock).map fun dir => (inode,dir)

/-- One component of `getParentDirInodeID`; the last matching directory wins. -/
def stepDir (m : Mem) (inode : Inode) (dir : Mem) (name : CStr) : Option ℕ :=
  (List.range 31).foldl (fun found i =>
    if inode.live i && sameName dir i name then
      match blockStoreInodeRead m inodeStore (entryInode dir i) with
      | some next => if next.fileType = typeDirectory then some next.inodeNumber.toNat else found
      | none => found
    else found) none

def getParentDirInodeID (m : Mem) : (tokens : List CStr) → (curInodeID : ℕ) → ℕ
  | [], cur => cur
  | token :: tokens, cur =>
    match blockStoreInodeRead m inodeStore cur with
    | none => sizeMax
    | some inode =>
      if inode.fileType = typeRegular then sizeMax
      else match blockStoreRead m wholeStore inode.dirBlock with
        | none => sizeMax
        | some dir =>
          match stepDir m inode dir token with
          | none => sizeMax
          | some next => getParentDirInodeID m tokens next

/-- `getParentDirInodeID(fs, dirname(path))`. -/
def parentOf (m : Mem) (path : CStr) : ℕ := getParentDirInodeID m (strtok slash (dirname path)) 0

def checkFileExist (m : Mem) (parentDirInodeID : ℕ) (fileName : CStr) : Bool :=
  match readDir m parentDirInodeID with
  | none => false
  | some (inode,dir) => (firstEntry inode (sameName dir · fileName)).isSome

def getFileInodeID (m : Mem) (parentDirInodeID : ℕ) (fileName : CStr) : ℕ :=
  match readDir m parentDirInodeID with
  | none => 0
  | some (inode,dir) =>
    match firstEntry inode (sameName dir · fileName) with
    | none => 0
    | some i => entryInode dir i

/-- Compares only `strlen(fileName)` bytes; `none` is the return value -1. -/
def getFileIndexInDir (inode : Inode) (dir : Mem) (fileName : CStr) : Option ℕ :=
  firstEntry inode (fun i => strncmpEq (entryName dir i) fileName fileName.length)

def isDirectoryEmpty (inode : Inode) : Bool := inode.entryCount = 0

end LiteOSFS
