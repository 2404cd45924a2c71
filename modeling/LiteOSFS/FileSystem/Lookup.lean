import LiteOSFS.FileSystem.Entries
import LiteOSFS.FileSystem.Invariant
import LiteOSFS.FileSystem.Relocate

/-! # What the searches find -/
namespace LiteOSFS
open Memory CString

theorem firstEntry_some {inode : Inode} {test : ℕ → Bool} {k : ℕ} (h : firstEntry inode test = some k) :
    k < 31 ∧ inode.live k = true ∧ test k = true ∧ ∀ j < k, ¬ (inode.live j = true ∧ test j = true) := by
  obtain ⟨hp,hmem,hall⟩ := List.find?_range_eq_some.mp h
  obtain ⟨hlive,htest⟩ := Bool.and_eq_true_iff.mp hp
  refine ⟨List.mem_range.mp hmem,hlive,htest,fun j hj hc => ?_⟩
  have hn := hall j hj
  rw [hc.1, hc.2] at hn
  cases hn

theorem firstEntry_none {inode : Inode} {test : ℕ → Bool} (h : firstEntry inode test = none) {j : ℕ} (hj : j < 31) :
    ¬ (inode.live j = true ∧ test j = true) := by
  have hn := List.find?_eq_none.mp h j (List.mem_range.mpr hj)
  simpa using hn

theorem firstEntry_isSome {inode : Inode} {test : ℕ → Bool} {j : ℕ} (hj : j < 31) (hlive : inode.live j = true)
    (ht : test j = true) : ∃ k, firstEntry inode test = some k := by
  cases hf : firstEntry inode test with
  | none => exact absurd ⟨hlive,ht⟩ (firstEntry_none hf hj)
  | some k => exact ⟨k,rfl⟩

theorem entryInode_lt (dir : Mem) (i : ℕ) : entryInode dir i < 256 := UInt8.toNat_lt _

/-- A loop that overwrites its result finds the last match. -/
theorem foldl_last {α β : Type*} (p : α → Bool) (f : α → β) (l : List α) :
    l.foldl (fun found a => if p a then some (f a) else found) none = (l.filter p).getLast?.map f := by
  induction l using List.reverseRecOn with
  | nil => rfl
  | append_singleton l a ih =>
    rw [List.foldl_append, ih, List.filter_append]
    cases hp : p a with
    | true => simp [hp]
    | false => simp [hp]

theorem readDir_some {m : Mem} {d : ℕ} {x : Inode} {dir : Mem} (h : readDir m d = some (x,dir)) :
    d < 256 ∧ x = inodeAt m d ∧ x.dirBlock ≤ 65528 ∧ dir = blockAt m x.dirBlock := by
  obtain ⟨y,hy,h⟩ := Option.bind_eq_some_iff.mp h
  obtain ⟨dir',hdir,he⟩ := Option.map_eq_some_iff.mp h
  cases he
  have hd : d < 256 := by
    unfold blockStoreInodeRead at hy
    split_ifs at hy with hd
    omega
  have hb : x.dirBlock ≤ 65528 := by
    unfold blockStoreRead at hdir
    split_ifs at hdir with hb
    exact hb
  rw [blockStoreInodeRead_table hd] at hy
  rw [blockStoreRead_data hb] at hdir
  exact ⟨hd,(Option.some.inj hy).symm,hb,(Option.some.inj hdir).symm⟩

section Lookup
variable {m : Mem}

/-- The entries that one component of a path may be. -/
def dirMatch (m : Mem) (inode : Inode) (dir : Mem) (name : CStr) (i : ℕ) : Bool :=
  inode.live i && sameName dir i name && (inodeAt m (entryInode dir i)).fileType == typeDirectory

/-- The last directory among them is taken, when its inode knows its own number. -/
theorem stepDir_filter {inode : Inode} {dir : Mem} {name : CStr} (hself : ∀ i < 31, inode.live i = true →
    (inodeAt m (entryInode dir i)).fileType = typeDirectory →
    (inodeAt m (entryInode dir i)).inodeNumber.toNat = entryInode dir i) : stepDir m inode dir name =
    ((List.range 31).filter (dirMatch m inode dir name)).getLast?.map (entryInode dir) := by
  rw [← foldl_last, stepDir]
  refine List.foldl_ext _ _ none (fun found i hi => ?_)
  rw [blockStoreInodeRead_table (entryInode_lt dir i)]
  have hself := hself i (List.mem_range.mp hi)
  cases hlive : inode.live i <;> cases hname : sameName dir i name <;>
    by_cases hd : (inodeAt m (entryInode dir i)).fileType = typeDirectory <;>
    simp [dirMatch, hlive, hname, hd]
  exact hself hlive hd

/-- The root is a directory, and directories know their numbers and have blocks that can be read. -/
structure DirsSound (m : Mem) : Prop where
  root : (inodeAt m 0).fileType = typeDirectory
  self : ∀ d < 256, (inodeAt m d).fileType = typeDirectory → (inodeAt m d).inodeNumber.toNat = d
  readable : ∀ d < 256, (inodeAt m d).fileType = typeDirectory → (inodeAt m d).dirBlock ≤ 65528

theorem ImageInv.dirsSound (h : ImageInv m) : DirsSound m :=
  ⟨h.root,fun d hd => (h.record d hd).self,fun _ hd _ => h.dirBlock_le hd⟩

theorem stepDir_spec (h : DirsSound m) {inode : Inode} {dir : Mem} {name : CStr} {next : ℕ}
    (hs : stepDir m inode dir name = some next) :
    next < 256 ∧ (inodeAt m next).fileType = typeDirectory ∧
      ∃ j < 31, inode.live j = true ∧ sameName dir j name = true ∧ entryInode dir j = next := by
  rw [stepDir_filter (fun i _ _ hd => h.self _ (entryInode_lt dir i) hd)] at hs
  obtain ⟨j,hj,rfl⟩ := Option.map_eq_some_iff.mp hs
  obtain ⟨hmem,hmatch⟩ := List.mem_filter.mp (List.mem_of_getLast? hj)
  simp only [dirMatch, Bool.and_eq_true, beq_iff_eq] at hmatch
  exact ⟨entryInode_lt dir j,hmatch.2,j,List.mem_range.mp hmem,hmatch.1.1,hmatch.1.2,rfl⟩

theorem getParentDirInodeID_cons {token : CStr} {tokens : List CStr} {cur : ℕ} (hcur : cur < 256)
    (hdir : (inodeAt m cur).fileType = typeDirectory) (hb : (inodeAt m cur).dirBlock ≤ 65528) :
    getParentDirInodeID m (token :: tokens) cur =
      (stepDir m (inodeAt m cur) (blockAt m (inodeAt m cur).dirBlock) token).elim sizeMax
        (getParentDirInodeID m tokens) := by
  have hreg : (inodeAt m cur).fileType ≠ typeRegular := by
    rw [hdir]
    decide
  rw [getParentDirInodeID, blockStoreInodeRead_table hcur]
  simp only [if_neg hreg, blockStoreRead_data hb]
  cases stepDir m (inodeAt m cur) (blockAt m (inodeAt m cur).dirBlock) token with
  | none => rfl
  | some next => rfl

/-- The walk of `getParentDirInodeID` ends at a directory. -/
theorem getParentDirInodeID_spec (h : DirsSound m) {tokens : List CStr} {cur : ℕ} (hcur : cur < 256)
    (hdir : (inodeAt m cur).fileType = typeDirectory) (hne : getParentDirInodeID m tokens cur ≠ sizeMax) :
    getParentDirInodeID m tokens cur < 256 ∧
      (inodeAt m (getParentDirInodeID m tokens cur)).fileType = typeDirectory := by
  induction tokens generalizing cur with
  | nil => exact ⟨hcur,hdir⟩
  | cons token tokens ih =>
    rw [getParentDirInodeID_cons hcur hdir (h.readable cur hcur hdir)] at hne ⊢
    cases hs : stepDir m (inodeAt m cur) (blockAt m (inodeAt m cur).dirBlock) token with
    | none =>
      rw [hs] at hne
      exact absurd rfl hne
    | some next =>
      obtain ⟨hlt,hd,_⟩ := stepDir_spec h hs
      rw [hs] at hne
      exact ih hlt hd hne

theorem parentOf_dir (h : DirsSound m) {path : CStr} (hne : parentOf m path ≠ sizeMax) :
    parentOf m path < 256 ∧ (inodeAt m (parentOf m path)).fileType = typeDirectory :=
  getParentDirInodeID_spec h (by omega) h.root hne

theorem parentOf_spec (h : ImageInv m) {path : CStr} (hne : parentOf m path ≠ sizeMax) :
    parentOf m path < 256 ∧ (inodeAt m (parentOf m path)).fileType = typeDirectory := parentOf_dir h.dirsSound hne

theorem readDir_data {d : ℕ} (hd : d < 256) (hb : (inodeAt m d).dirBlock ≤ 65528) :
    readDir m d = some (inodeAt m d,blockAt m (inodeAt m d).dirBlock) := by
  rw [readDir, blockStoreInodeRead_table hd, Option.bind_some, blockStoreRead_data hb, Option.map_some]

theorem getFileInodeID_of_readDir {i : ℕ} {x : Inode} {dir : Mem} (h : readDir m i = some (x,dir)) (name : CStr) :
    getFileInodeID m i name = (firstEntry x (sameName dir · name)).elim 0 (entryInode dir) := by
  simp only [getFileInodeID, h]
  cases firstEntry x (sameName dir · name) with
  | none => rfl
  | some k => rfl

theorem checkFileExist_eq (h : ImageInv m) {i : ℕ} (hi : i < 256) (name : CStr) : checkFileExist m i name =
    (firstEntry (inodeAt m i) (sameName (blockAt m (inodeAt m i).dirBlock) · name)).isSome := by
  rw [checkFileExist, h.readDir hi]

theorem getFileInodeID_eq (h : ImageInv m) {i : ℕ} (hi : i < 256) (name : CStr) : getFileInodeID m i name =
    (firstEntry (inodeAt m i) (sameName (blockAt m (inodeAt m i).dirBlock) · name)).elim 0
      (entryInode (blockAt m (inodeAt m i).dirBlock)) :=
  getFileInodeID_of_readDir (h.readDir hi) name

theorem getFileInodeID_lt (m : Mem) (i : ℕ) (name : CStr) : getFileInodeID m i name < 256 := by
  unfold getFileInodeID
  split
  · exact Nat.zero_lt_succ 255
  · split
    · exact Nat.zero_lt_succ 255
    · exact entryInode_lt _ _

theorem inodeOr_eq {i : ℕ} (hi : i < 256) : inodeOr m i = inodeAt m i := by
  rw [inodeOr, blockStoreInodeRead_table hi]
  rfl

theorem blockOr_eq {id : ℕ} (hid : id ≤ 65528) : blockOr m id = blockAt m id := by
  rw [blockOr, blockStoreRead_data hid]
  rfl

end Lookup

/-- The two readings of an entry bit agree. -/
theorem Inode.vacantBit_eq (x : Inode) {j : ℕ} (hj : j < 31) : x.vacantBit j = x.live j := by
  rw [x.live_eq hj, vacantBit]
  rw [Nat.testBit, Nat.and_comm]
  rcases Nat.mod_two_eq_zero_or_one (x.vacantFile.toNat >>> j) with h | h <;>
    simp [Nat.one_and_eq_mod_two, h]

end LiteOSFS
