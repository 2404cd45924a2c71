import LiteOSFS.FileSystem.Directory

/-! # fs_create, fs_create2, fs_open and fs_close

`none` is undefined behaviour: the path does not fit the buffers it is copied to.
A null path is `none` among the arguments.
-/
namespace LiteOSFS
open Memory CString

/-- The variables of the walk in `fs_create` and `fs_open`: `parent_inode_ID`, `indicator` and the
buffer `parent_data`. -/
structure Walk where
  inodeID : ℕ
  indicator : ℕ
  data : Mem

/-- One component. Every match counts, and the walk goes on after a miss. -/
def walkStep (m : Mem) (w : Walk) (token : CStr) : Walk :=
  let parent := (blockStoreInodeRead m inodeStore w.inodeID).getD Inode.cleared
  if parent.fileType = typeDirectory then
    let data := (blockStoreRead m wholeStore parent.dirBlock).getD w.data
    (List.range 31).foldl (fun w j =>
      if parent.vacantBit j && entryName data j == token then
        { w with inodeID := entryInode data j, indicator := w.indicator + 1 }
      else w) { w with data := data }
  else w

def walk (m : Mem) (tokens : List CStr) : Walk := tokens.foldl (walkStep m) ⟨0,0,zeros⟩

/-- The loop that looks for the first vacant slot; 31 when there is none. -/
def firstClear (inode : Inode) : ℕ := ((List.range 31).find? (fun k => !inode.vacantBit k)).getD 31

/-- The loop that compares the new name with every live entry. -/
def hasEntry (m : Mem) (parent : Inode) (data : Mem) (name : CStr) : Bool :=
  let data := (blockStoreRead m wholeStore parent.dirBlock).getD data
  (List.range 31).any (fun j => parent.vacantBit j && entryName data j == name)

def childInode (type : FileT) (inodeNumber : ℕ) : Inode :=
  { Inode.cleared with
    fileType := if type = .regular then typeRegular else typeDirectory
    inodeNumber := UInt64.ofNat inodeNumber
    linkCount := 1 }

/-- The stores of `fs_create` once slot `k` and inode `child` are taken. -/
def storeChild (m : Mem) (parentID : ℕ) (parent : Inode) (data : Mem) (k child : ℕ) (name : CStr)
    (type : FileT) : Mem :=
  let parent := { parent with vacantFile := UInt32.ofNat (parent.vacantFile.toNat ||| 1 <<< k) }
  let m := (blockStoreInodeWrite m inodeStore parentID parent).2
  let data := (blockStoreRead m wholeStore parent.dirBlock).getD data
  let m := (blockStoreWrite m wholeStore parent.dirBlock (putEntry data k name child)).2
  (blockStoreInodeWrite m inodeStore child (childInode type child)).2

/-- `fs_create` below a parent directory that the walk found. -/
def createIn (m : Mem) (parentID : ℕ) (parent : Inode) (data : Mem) (name : CStr) (type : FileT) : ℤ × Mem :=
  if hasEntry m parent data name then (-1,m)
  else
    let k := firstClear parent
    -- a directory whose slot 0 is vacant is taken to have no block yet
    let block := if k = 0 then blockStoreAllocate m wholeStore else (parent.dirBlock,m)
    if k = 0 ∧ ¬ block.1 < 65528 then (-1,m)
    else
      let parent := if k = 0 then
        { parent with directPointer := Function.update parent.directPointer firstDirect (UInt16.ofNat block.1) }
        else parent
      if k < 31 then
        let child := blockStoreAllocate block.2 inodeStore
        if child.1 = sizeMax then (-1,block.2)
        else (0,storeChild child.2 parentID parent data k child.1 name type)
      else (-1,block.2)

def fsCreate (s : F19FS) (path : Option CStr) (type : FileT) : Option (ℤ × F19FS) :=
  match path with
  | none => some (-1,s)
  | some path =>
    if path = [] ∨ type = .invalid then some (-1,s)
    else match splitPath path with
      | none => none
      | some none => some (-1,s)
      | some (some tokens) =>
        if !tokens.all isValidFileName then some (-1,s)
        else
          let w := walk s.image tokens.dropLast
          let parent := (blockStoreInodeRead s.image inodeStore w.inodeID).getD Inode.cleared
          if w.indicator = tokens.length - 1 ∧ parent.fileType = typeDirectory then
            let r := createIn s.image w.inodeID parent w.data (tokens.getLastD []) type
            some (r.1,{ s with image := r.2 })
          else some (-1,s)

/-- The inode that `fs_create2` stores. `junk` is what its stack frame held: only the fields named
here are assigned. -/
def newInode (type : FileT) (junk : Inode) (inodeNumber block : ℕ) : Inode :=
  let inode := { junk with linkCount := 1, inodeNumber := UInt64.ofNat inodeNumber }
  if type = .directory then
    { inode with
      vacantFile := 0
      owner := fun k => ([114,111,111,116] : List UInt8).getD k (junk.owner k)
      fileType := typeDirectory
      directPointer := Function.update junk.directPointer firstDirect (UInt16.ofNat block)
      fileSize := 1024 }
  else
    { inode with
      fileSize := 0
      fileType := typeRegular
      directPointer := fun _ => 0
      indirectPointer := 0
      doubleIndirectPointer := 0 }

/-- `fs_create2` once the slot `next` of the parent is taken. -/
def create2In (m : Mem) (parentID : ℕ) (parent : Inode) (dir : Mem) (fileName : CStr) (type : FileT)
    (junk : Inode) : ℤ × Mem :=
  let next := parent.firstVacant
  let parent := parent.markEntry next
  let child := blockStoreAllocate m inodeStore
  let block := if type = .directory then blockStoreAllocate child.2 wholeStore else (0,child.2)
  if type = .directory ∧ block.1 = sizeMax then (-10,block.2)
  else
    let m := if type = .directory then (blockStoreWrite block.2 wholeStore block.1 zeros).2 else block.2
    let w := blockStoreInodeWrite m inodeStore child.1 (newInode type junk child.1 block.1)
    if w.1 ≠ 64 then (-11,w.2)
    else
      let w := blockStoreInodeWrite w.2 inodeStore parentID parent
      if w.1 ≠ 64 then (-12,w.2)
      else
        let w := blockStoreWrite w.2 wholeStore parent.dirBlock (putEntry dir next fileName child.1)
        if w.1 ≠ 1024 then (-13,w.2) else (0,w.2)

def fsCreate2 (m : Mem) (path : Option CStr) (type : FileT) (junk : Inode) : ℤ × Mem :=
  match path with
  | none => (-1,m)
  | some path =>
    if path = [] ∨ type = .invalid then (-1,m)
    else if path.length ≤ 1 then (-2,m)
    else if blockStoreGetFreeBlocks m inodeStore = 0 then (-3,m)
    else if !isValidPath path then (-4,m)
    else if (basename path).length ≥ 32 then (-5,m)
    else
      let parentID := parentOf m path
      if parentID = sizeMax then (-6,m)
      else if checkFileExist m parentID (basename path) then (-7,m)
      else match readDir m parentID with
        | none => (-8,m)
        | some (parent,dir) =>
          if parent.entryCount = 31 then (-9,m)
          else create2In m parentID parent dir (basename path) type junk

def fsOpen (s : F19FS) (path : Option CStr) : Option (ℤ × F19FS) :=
  match path with
  | none => some (-1,s)
  | some path =>
    if path = [] then some (-1,s)
    else match splitPath path with
      | none => none
      | some none => some (-1,s)
      | some (some tokens) =>
        if !tokens.all isValidFileName then some (-1,s)
        else
          let w := walk s.image tokens
          if w.indicator = tokens.length then
            let fd := blockStoreSubAllocate s.fdTable fdStore
            if fd.1 < 256 then
              let file := (blockStoreInodeRead s.image inodeStore w.inodeID).getD Inode.cleared
              -- the slot stays taken when the path names a directory
              if file.fileType = typeDirectory then some (-1,{ s with fdTable := fd.2 })
              else some (fd.1,{ s with
                fdTable := (blockStoreFdWrite fd.2 fdStore fd.1 ⟨UInt8.ofNat w.inodeID,1,0,0⟩).2 })
            else some (-1,{ s with fdTable := fd.2 })
          else some (-1,s)

def fsClose (s : F19FS) (fd : ℤ) : ℤ × F19FS :=
  if 0 ≤ fd ∧ fd < 256 then
    if blockStoreSubTest s.fdTable fdStore fd.toNat then
      (0,{ s with fdTable := blockStoreSubRelease s.fdTable fdStore fd.toNat })
    else (-1,s)
  else (-1,s)

end LiteOSFS
