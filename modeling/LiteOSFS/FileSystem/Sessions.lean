import LiteOSFS.FileSystem.Calls
import LiteOSFS.FileSystem.Listing
import LiteOSFS.Storage.Serialize

/-! # Mounted files

A host has files, found under paths, and a process has `F19FS` objects, each with a file
that is mapped shared. `fs_format`, `fs_mount` and `fs_unmount` make and free the objects.
Objects with the same file share its bytes; each has a descriptor memory of its own.
-/
namespace LiteOSFS
open Memory CString

/-- An object: the place of the file that `BlockStore_whole` maps, none when it is `NULL`, and the memory of
`BlockStore_fd`. -/
structure Mounted (F : Type*) where
  whole : Option F
  fdTable : Mem

/-- The regular files by place, and the objects by address. -/
structure Host (F : Type*) where
  files : F → Option PosixFile
  mounted : ℕ → Option (Mounted F)

/-- The test of `check_file`. -/
def checkFile : Option PosixFile → Bool
  | none => false
  | some f => decide (65536 * 1024 ≤ f.length ∧ f.length ≤ 65536 * 1024 + 65536 * 1024 / 8)

/-- The file that `block_store_create` maps, and clears through the mapping. -/
def blockStoreCreateFile (f : Option PosixFile) : PosixFile := (createFile f).write 0 (65536 * 1024) blockStoreCreate

/-- What `fs_format` does to the new store. -/
def formatStore (image : Mem) : Mem :=
  let image := allocateTimes image wholeStore 17
  let image := (blockStoreSubAllocate image inodeStore).2
  (blockStoreInodeWrite image inodeStore 0 rootInode).2

/-- What a call of the interface gives back. -/
inductive Reply where
  | code (ret : ℤ)
  | bytes (ret : ℤ) (stored : List UInt8)
  | records (list : Option (List FileRecord))
  | object (address : Option ℕ)

/-- The calls on an object, `fs_get_dir` being the one that is no `Call`. -/
def reply (s : F19FS) : Call ⊕ Option PathArg → Option (Reply × F19FS)
  | .inl (.read fd dstNull nbyte) => (fsRead s fd dstNull nbyte).map (fun r => (.bytes r.1 r.2.1,r.2.2))
  | .inl c => (call s c).map (fun r => (.code r.1,r.2))
  | .inr path => (fsGetDir s (pathOf path)).map (fun list => (.records list,s))

/-- The calls of a process; `address` is where `calloc` puts the object. -/
inductive HostCall where
  | format (path : Option PathArg) (address : ℕ)
  | mount (path : Option PathArg) (address : ℕ)
  | unmount (fs : Option ℕ)
  | api (fs : ℕ) (c : Call ⊕ Option PathArg)

section Host
variable {F : Type*} [DecidableEq F] (locate : CStr → F)

/-- `fs_format`, on a host that can create every file. -/
def fsFormatOn (h : Host F) (path : Option CStr) (address : ℕ) : Option ℕ × Host F :=
  match path with
  | none => (none,h)
  | some path =>
    if path = [] then (none,h)
    else
      let file := blockStoreCreateFile (h.files (locate path))
      (some address,{ files := Function.update h.files (locate path) (some { file with bytes := formatStore file.bytes }),
                      mounted := Function.update h.mounted address (some ⟨some (locate path),blockStoreFdCreate⟩) })

/-- The file that `block_store_open` maps, or none for `NULL`. -/
def blockStoreOpen (h : Host F) (path : CStr) : Option F :=
  if checkFile (h.files (locate path)) then some (locate path) else none

/-- `fs_mount`: an object is made also when `block_store_open` returns `NULL`. -/
def fsMountOn (h : Host F) (path : Option CStr) (address : ℕ) : Option ℕ × Host F :=
  match path with
  | none => (none,h)
  | some path =>
    if path = [] then (none,h)
    else
      let o := ⟨blockStoreOpen locate h path,blockStoreFdCreate⟩
      (some address,{ h with mounted := Function.update h.mounted address (some o) })

/-- `none` when the object is freed already. -/
def fsUnmount (h : Host F) (fs : Option ℕ) : Option (ℤ × Host F) :=
  match fs with
  | none => some (-1,h)
  | some a => (h.mounted a).map (fun _ => (0,{ h with mounted := Function.update h.mounted a none }))

/-- The place of an object's file and the file system that calls on it see. -/
def Host.object (h : Host F) (a : ℕ) : Option (F × F19FS) :=
  (h.mounted a).bind (fun o => o.whole.bind (fun f => (h.files f).map (fun file => (f,⟨file.bytes,o.fdTable⟩))))

/-- What a call on the object leaves in the file and the descriptor memory. -/
def Host.store (h : Host F) (a : ℕ) (f : F) (s : F19FS) : Host F :=
  { files := Function.update h.files f ((h.files f).map (fun file => { file with bytes := s.image })),
    mounted := Function.update h.mounted a (some ⟨some f,s.fdTable⟩) }

/-- What a call gives back and the host after it. `none` is undefined behaviour; calls on an object without a file
are left out. -/
def hostCall (h : Host F) : HostCall → Option (Reply × Host F)
  | .format path a => if (h.mounted a).isSome then none
      else some (.object (fsFormatOn locate h (pathOf path) a).1,(fsFormatOn locate h (pathOf path) a).2)
  | .mount path a => if (h.mounted a).isSome then none
      else some (.object (fsMountOn locate h (pathOf path) a).1,(fsMountOn locate h (pathOf path) a).2)
  | .unmount fs => (fsUnmount h fs).map (fun r => (.code r.1,r.2))
  | .api _ (.inl .remount) => none
  | .api a c => (h.object a).bind (fun p => (reply p.2 c).map (fun r => (r.1,h.store a p.1 r.2)))

def hostStep (h : Host F) (c : HostCall) : Option (Host F) := (hostCall locate h c).map Prod.snd

end Host

section Lemmas
variable {s s' : F19FS} {r : Reply}

theorem formatStore_create : formatStore blockStoreCreate = fsFormat.image := rfl

theorem blockStoreCreateFile_bytes (f : Option PosixFile) : (blockStoreCreateFile f).bytes = blockStoreCreate := by
  funext a
  by_cases ha : a < 65536 * 1024
  · exact copyIn_inside (Nat.zero_le a) (by omega)
  · have hout : (blockStoreCreateFile f).bytes a = (createFile f).bytes a := copyIn_outside (Or.inr (by omega))
    have hcut : (createFile f).bytes a = if a < min 0 (65536 * 1024) then zeros a else 0 := rfl
    rw [hout, hcut, if_neg (by omega), blockStoreCreate, if_neg (by omega)]

theorem blockStoreCreateFile_length (f : Option PosixFile) : (blockStoreCreateFile f).length = 65536 * 1024 := by
  show max (65536 * 1024) (0 + 65536 * 1024) = 65536 * 1024
  omega

theorem reply_call {c : Call} (h : reply s (.inl c) = some (r,s')) : step s c = some s' := by
  unfold reply at h
  split at h
  · rename_i fd dstNull nbyte he
    obtain rfl := Sum.inl.inj he
    obtain ⟨x,hx,he⟩ := Option.map_eq_some_iff.mp h
    cases he
    rw [step, call, hx]
    rfl
  · rename_i he
    obtain rfl := Sum.inl.inj he
    obtain ⟨x,hx,he⟩ := Option.map_eq_some_iff.mp h
    cases he
    exact step_of_call hx
  · rename_i he
    cases he

/-- `fs_get_dir` only reads. -/
theorem reply_getDir {path : Option PathArg} (h : reply s (.inr path) = some (r,s')) : s' = s := by
  obtain ⟨_,_,he⟩ := Option.map_eq_some_iff.mp h
  exact (congrArg Prod.snd he).symm

theorem reply_remount : reply s (.inl .remount) = some (.code 0,fsMount s) := rfl

end Lemmas

end LiteOSFS
