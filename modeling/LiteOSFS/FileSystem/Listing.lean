import LiteOSFS.FileSystem.Create

/-! # fs_get_dir

`none` is undefined behaviour: the path does not fit its buffer of 200 bytes or does
not begin with a slash, or a name does not fit a record.
-/
namespace LiteOSFS
open Memory CString

/-- `file_record_t`. -/
structure FileRecord where
  name : CStr
  type : FileT

/-- The type of a record is zero, which is `FS_REGULAR`, unless the inode is a directory's: the other
branch of the source tests for a letter that no inode has. -/
def fileRecord (m : Mem) (dir : Mem) (j : ℕ) : FileRecord :=
  let member := (blockStoreInodeRead m inodeStore (entryInode dir j)).getD Inode.cleared
  ⟨entryName dir j,if member.fileType = typeDirectory then .directory else .regular⟩

/-- `fs_get_dir` once the walk has ended. Each record is pushed to the front of the array. -/
def listDir (m : Mem) (inodeID : ℕ) : Option (Option (List FileRecord)) :=
  let inode := (blockStoreInodeRead m inodeStore inodeID).getD Inode.cleared
  if inode.fileType = typeDirectory then
    let dir := (blockStoreRead m wholeStore inode.dirBlock).getD zeros
    let members := (List.range 31).filter inode.vacantBit
    if members.any (fun j => (entryName dir j).length ≥ 32) then none
    else some (some (members.map (fileRecord m dir)).reverse)
  else some none

def fsGetDir (s : F19FS) (path : Option CStr) : Option (Option (List FileRecord)) :=
  match path with
  | none => some none
  | some path =>
    if path = [] then some none
    else if path.length ≥ 200 then none
    else match strSplit path with
      | none => none
      -- the source reads through the null pointer
      | some none => none
      | some (some tokens) =>
        let slashOnly := tokens.headD [] = []
        if ¬ slashOnly ∧ tokens.all isValidFileName = false then some none
        else
          let names := if slashOnly then tokens.dropLast else tokens
          let w := walk s.image names
          if w.indicator = names.length then listDir s.image w.inodeID else some none

end LiteOSFS
