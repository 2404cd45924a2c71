import LiteOSFS.FileSystem.Resolve

/-! # The search by parent and name follows a path

`getParentDirInodeID` stops at the first component that is no directory, and takes a
child's number from its inode. `checkFileExist` and `getFileInodeID` look for the last
component. Where directories know their numbers and names are distinct this is the
path that the counting walk follows.
-/
namespace LiteOSFS
open Memory CString Ownership EntryGraph

/-- What both kinds of search rely on. -/
structure Searchable (m : Mem) : Prop where
  root : (inodeAt m 0).fileType = typeDirectory
  distinct : Distinct (entryAt m)
  readable : DirsReadable m
  self : ∀ d j a i, entryAt m d j = some (a,i) → (inodeAt m i).fileType = typeDirectory →
    (inodeAt m i).inodeNumber.toNat = i

theorem ImageInv.searchable {m : Mem} (h : ImageInv m) (hE : Distinct (entryAt m)) : Searchable m :=
  ⟨h.root,hE,h.dirsReadable,fun _ _ _ _ he hd => (h.record _ (entryAt_lt he)).self hd⟩

section Parent
variable {m : Mem} {d i cur : ℕ} {name : CStr} {tokens : List CStr}

theorem mem_dirMatch {j : ℕ} (hd : d < 256) (hdir : (inodeAt m d).fileType = typeDirectory) (hname : 0 ∉ name) :
    j ∈ (List.range 31).filter (dirMatch m (inodeAt m d) (blockAt m (inodeAt m d).dirBlock) name) ↔
      ∃ i, entryAt m d j = some (name,i) ∧ (inodeAt m i).fileType = typeDirectory := by
  rw [List.mem_filter, List.mem_range, dirMatch, Bool.and_eq_true, Bool.and_eq_true, beq_iff_eq, sameName_iff hname]
  constructor
  · rintro ⟨hj,⟨hlive,rfl⟩,ht⟩
    exact ⟨_,entryAt_live hd hj hdir hlive,ht⟩
  · rintro ⟨i,he,ht⟩
    obtain ⟨⟨_,hj,_,hlive⟩,hn,rfl⟩ := entryAt_eq_some.mp he
    exact ⟨hj,⟨hlive,hn⟩,ht⟩

/-- One component of the search goes along an entry to a directory. -/
theorem Searchable.stepDir_eq_some (h : Searchable m) (hd : d < 256) (hdir : (inodeAt m d).fileType = typeDirectory)
    (hname : 0 ∉ name) : stepDir m (inodeAt m d) (blockAt m (inodeAt m d).dirBlock) name = some i ↔
      Edge (entryAt m) d name i ∧ (inodeAt m i).fileType = typeDirectory := by
  have hself : ∀ j < 31, (inodeAt m d).live j = true →
      (inodeAt m (entryInode (blockAt m (inodeAt m d).dirBlock) j)).fileType = typeDirectory →
      (inodeAt m (entryInode (blockAt m (inodeAt m d).dirBlock) j)).inodeNumber.toNat =
        entryInode (blockAt m (inodeAt m d).dirBlock) j :=
    fun j hj hlive ht => h.self d j _ _ (entryAt_live hd hj hdir hlive) ht
  rw [stepDir_filter hself]
  constructor
  · intro hs
    obtain ⟨j,hj,rfl⟩ := Option.map_eq_some_iff.mp hs
    obtain ⟨i,he,ht⟩ := (mem_dirMatch hd hdir hname).mp (List.mem_of_getLast? hj)
    rw [(entryAt_eq_some.mp he).2.2]
    exact ⟨⟨j,he⟩,ht⟩
  · rintro ⟨⟨j,he⟩,ht⟩
    have hmem := (mem_dirMatch hd hdir hname).mpr ⟨i,he,ht⟩
    obtain ⟨k,hk⟩ := Option.isSome_iff_exists.mp (List.getLast?_isSome.mpr (List.ne_nil_of_mem hmem))
    obtain ⟨i',he',_⟩ := (mem_dirMatch hd hdir hname).mp (List.mem_of_getLast? hk)
    obtain rfl := h.distinct d j k name i i' he he'
    rw [hk]
    exact congrArg some (entryAt_eq_some.mp he).2.2

/-- The search succeeds where a path leads to a directory. -/
theorem Searchable.getParentDirInodeID_eq (h : Searchable m) (hcur : cur < 256)
    (hdir : (inodeAt m cur).fileType = typeDirectory) (ht : ∀ n ∈ tokens, 0 ∉ n) (hi : i < 256) :
    getParentDirInodeID m tokens cur = i ↔ Path (entryAt m) cur tokens i ∧ (inodeAt m i).fileType = typeDirectory := by
  induction tokens generalizing cur with
  | nil =>
    rw [getParentDirInodeID, path_nil]
    constructor
    · rintro rfl
      exact ⟨rfl,hdir⟩
    · exact fun hp => hp.1
  | cons name tokens ih =>
    have hname := ht name List.mem_cons_self
    rw [getParentDirInodeID_cons hcur hdir (h.readable cur hcur hdir), path_cons]
    cases hs : stepDir m (inodeAt m cur) (blockAt m (inodeAt m cur).dirBlock) name with
    | none =>
      constructor
      · intro he
        have he : sizeMax = i := he
        have hm : sizeMax = 2 ^ 64 - 1 := rfl
        omega
      · -- every entry of that name leads to a file, where no path goes on
        rintro ⟨⟨e,he,hp⟩,hti⟩
        have hne : (inodeAt m e).fileType ≠ typeDirectory := by
          intro hte
          rw [(h.stepDir_eq_some hcur hdir hname).mpr ⟨he,hte⟩] at hs
          cases hs
        cases hp with
        | nil => exact absurd hti hne
        | cons hf _ => exact absurd (edge_directory hf).2 hne
    | some next =>
      obtain ⟨he,hte⟩ := (h.stepDir_eq_some hcur hdir hname).mp hs
      rw [Option.elim_some, ih (edge_lt he) hte (fun n hn => ht n (List.mem_cons_of_mem _ hn))]
      constructor
      · rintro ⟨hp,hti⟩
        exact ⟨⟨next,he,hp⟩,hti⟩
      · rintro ⟨⟨e,he',hp⟩,hti⟩
        obtain rfl := h.distinct.edge_unique he he'
        exact ⟨hp,hti⟩

theorem Searchable.getParentDirInodeID_lt (h : Searchable m) (hcur : cur < 256)
    (hdir : (inodeAt m cur).fileType = typeDirectory) (ht : ∀ n ∈ tokens, 0 ∉ n)
    (hne : getParentDirInodeID m tokens cur ≠ sizeMax) : getParentDirInodeID m tokens cur < 256 := by
  induction tokens generalizing cur with
  | nil => exact hcur
  | cons name tokens ih =>
    rw [getParentDirInodeID_cons hcur hdir (h.readable cur hcur hdir)] at hne ⊢
    cases hs : stepDir m (inodeAt m cur) (blockAt m (inodeAt m cur).dirBlock) name with
    | none =>
      rw [hs] at hne
      exact absurd rfl hne
    | some next =>
      obtain ⟨he,hte⟩ := (h.stepDir_eq_some hcur hdir (ht name List.mem_cons_self)).mp hs
      rw [hs] at hne
      exact ih (edge_lt he) hte (fun n hn => ht n (List.mem_cons_of_mem _ hn)) hne

end Parent

section LastComponent
variable {m : Mem} {d i : ℕ} {name : CStr}

/-- The first match is the one entry of that name. -/
theorem Searchable.firstEntry_eq (h : Searchable m) (hd : d < 256) (hdir : (inodeAt m d).fileType = typeDirectory)
    (hname : 0 ∉ name) : (firstEntry (inodeAt m d) (sameName (blockAt m (inodeAt m d).dirBlock) · name)).map
      (entryInode (blockAt m (inodeAt m d).dirBlock)) = some i ↔ Edge (entryAt m) d name i := by
  constructor
  · intro hf
    obtain ⟨k,hk,rfl⟩ := Option.map_eq_some_iff.mp hf
    obtain ⟨hk31,hlive,hs,_⟩ := firstEntry_some hk
    refine ⟨k,?_⟩
    rw [entryAt_live hd hk31 hdir hlive, (sameName_iff hname).mp hs]
  · rintro ⟨j,he⟩
    obtain ⟨⟨_,hj,_,hlive⟩,hn,_⟩ := entryAt_eq_some.mp he
    obtain ⟨k,hk⟩ : ∃ k, firstEntry (inodeAt m d) (sameName (blockAt m (inodeAt m d).dirBlock) · name) = some k :=
      firstEntry_isSome hj hlive ((sameName_iff hname).mpr hn)
    obtain ⟨hk31,hl,hs,_⟩ := firstEntry_some hk
    have hek := entryAt_live hd hk31 hdir hl
    rw [(sameName_iff hname).mp hs] at hek
    obtain rfl := h.distinct _ _ _ _ _ _ he hek
    rw [hk, Option.map_some, (entryAt_eq_some.mp he).2.2]

theorem Searchable.checkFileExist_iff (h : Searchable m) (hd : d < 256) (hdir : (inodeAt m d).fileType = typeDirectory)
    (hname : 0 ∉ name) : checkFileExist m d name = true ↔ ∃ i, Edge (entryAt m) d name i := by
  rw [checkFileExist, readDir_data hd (h.readable d hd hdir)]
  simp only [← h.firstEntry_eq hd hdir hname, ← Option.isSome_iff_exists, Option.isSome_map]

theorem Searchable.getFileInodeID_of_edge (h : Searchable m) (hname : 0 ∉ name) (he : Edge (entryAt m) d name i) :
    getFileInodeID m d name = i := by
  obtain ⟨hd,hdir⟩ := edge_directory he
  obtain ⟨k,hk,hi⟩ := Option.map_eq_some_iff.mp ((h.firstEntry_eq hd hdir hname).mpr he)
  rw [getFileInodeID, readDir_data hd (h.readable d hd hdir)]
  simp only [hk]
  exact hi

theorem Searchable.getFileInodeID_of_none (h : Searchable m) (hd : d < 256)
    (hdir : (inodeAt m d).fileType = typeDirectory) (hname : 0 ∉ name) (hno : ∀ i, ¬ Edge (entryAt m) d name i) :
    getFileInodeID m d name = 0 := by
  have hn : firstEntry (inodeAt m d) (sameName (blockAt m (inodeAt m d).dirBlock) · name) = none := by
    cases hf : firstEntry (inodeAt m d) (sameName (blockAt m (inodeAt m d).dirBlock) · name) with
    | none => rfl
    | some k =>
      refine absurd ((h.firstEntry_eq hd hdir hname).mp ?_) (hno (entryInode (blockAt m (inodeAt m d).dirBlock) k))
      rw [hf, Option.map_some]
  rw [getFileInodeID, readDir_data hd (h.readable d hd hdir)]
  simp only [hn]

end LastComponent

/-- The search of `fs_link` and `fs_move` for a file that has to exist. -/
def findFile (m : Mem) (path : CStr) : Option ℕ :=
  if parentOf m path = sizeMax ∨ checkFileExist m (parentOf m path) (basename path) = false then none
  else some (getFileInodeID m (parentOf m path) (basename path))

theorem findFile_eq {m : Mem} {path : CStr} {i : ℕ} (h : findFile m path = some i) :
    getFileInodeID m (parentOf m path) (basename path) = i ∧ i < 256 := by
  unfold findFile at h
  split_ifs at h
  have hi := Option.some.inj h
  exact ⟨hi,hi ▸ getFileInodeID_lt _ _ _⟩

/-- Two records that no search tells apart. -/
structure SameSearch (x y : Inode) : Prop extends SameEntries x y where
  inodeNumber : x.inodeNumber = y.inodeNumber

section Congr
variable {m m' : Mem} (hr : ∀ e < 256, SameSearch (inodeAt m' e) (inodeAt m e))
  (hb : ∀ e < 256, blockAt m' (inodeAt m e).dirBlock = blockAt m (inodeAt m e).dirBlock)
include hr

theorem stepDir_congr {x y : Inode} (hxy : SameSearch x y) (dir : Mem) (name : CStr) :
    stepDir m' x dir name = stepDir m y dir name := by
  refine List.foldl_ext _ _ none (fun found i hi => ?_)
  have ht := hr _ (entryInode_lt dir i)
  rw [hxy.live i (List.mem_range.mp hi), blockStoreInodeRead_table (entryInode_lt dir i),
    blockStoreInodeRead_table (entryInode_lt dir i)]
  simp only [ht.fileType, ht.inodeNumber]

theorem firstEntry_same {e : ℕ} (he : e < 256) (test : ℕ → Bool) :
    firstEntry (inodeAt m' e) test = firstEntry (inodeAt m e) test :=
  firstEntry_congr (fun j hj => by rw [(hr e he).live j hj])

include hb

theorem getParentDirInodeID_congr (tokens : List CStr) (cur : ℕ) :
    getParentDirInodeID m' tokens cur = getParentDirInodeID m tokens cur := by
  induction tokens generalizing cur with
  | nil => rfl
  | cons token tokens ih =>
    rw [getParentDirInodeID, getParentDirInodeID]
    by_cases hcur : cur < 256
    swap
    · have hno : ∀ m'' : Mem, blockStoreInodeRead m'' inodeStore cur = none := fun _ => if_neg (by omega)
      rw [hno, hno]
    have hs := hr cur hcur
    simp only [blockStoreInodeRead_table hcur, hs.fileType, hs.dirBlock]
    by_cases hblk : (inodeAt m cur).dirBlock ≤ 65528
    swap
    · have hno : ∀ m'' : Mem, blockStoreRead m'' wholeStore (inodeAt m cur).dirBlock = none := fun _ => if_neg hblk
      simp only [hno]
    simp only [blockStoreRead_data hblk, hb cur hcur, stepDir_congr hr hs, ih]

theorem readDir_same (e : ℕ) : (readDir m' e = none ∧ readDir m e = none) ∨
    e < 256 ∧ readDir m' e = some (inodeAt m' e,blockAt m (inodeAt m e).dirBlock) ∧
      readDir m e = some (inodeAt m e,blockAt m (inodeAt m e).dirBlock) := by
  by_cases he : e < 256
  swap
  · have hno : ∀ m'' : Mem, blockStoreInodeRead m'' inodeStore e = none := fun _ => if_neg (by omega)
    exact Or.inl ⟨by rw [readDir, hno, Option.bind_none],by rw [readDir, hno, Option.bind_none]⟩
  have hd := (hr e he).dirBlock
  by_cases hblk : (inodeAt m e).dirBlock ≤ 65528
  · refine Or.inr ⟨he,?_,readDir_data he hblk⟩
    rw [readDir_data he (by rwa [hd]), hd, hb e he]
  · have hno : ∀ m'' : Mem, blockStoreRead m'' wholeStore (inodeAt m e).dirBlock = none := fun _ => if_neg hblk
    refine Or.inl ⟨?_,?_⟩
    · rw [readDir, blockStoreInodeRead_table he, Option.bind_some, hd, hno, Option.map_none]
    · rw [readDir, blockStoreInodeRead_table he, Option.bind_some, hno, Option.map_none]

theorem checkFileExist_congr (e : ℕ) (name : CStr) : checkFileExist m' e name = checkFileExist m e name := by
  rw [checkFileExist, checkFileExist]
  rcases readDir_same hr hb e with ⟨h,h'⟩ | ⟨he,h,h'⟩
  · rw [h, h']
  · simp only [h, h', firstEntry_same hr he]

theorem getFileInodeID_congr (e : ℕ) (name : CStr) : getFileInodeID m' e name = getFileInodeID m e name := by
  rw [getFileInodeID, getFileInodeID]
  rcases readDir_same hr hb e with ⟨h,h'⟩ | ⟨he,h,h'⟩
  · rw [h, h']
  · simp only [h, h', firstEntry_same hr he]

theorem findFile_congr (path : CStr) : findFile m' path = findFile m path := by
  have hp : parentOf m' path = parentOf m path := getParentDirInodeID_congr hr hb _ _
  rw [findFile, findFile, hp, checkFileExist_congr hr hb, getFileInodeID_congr hr hb]

end Congr

section Joined
variable {m : Mem} {names : List CStr} {name : CStr} {i : ℕ}

/-- The parent that `dirname` and `getParentDirInodeID` find is a directory at the end of the path. -/
theorem Searchable.parentOf_eq (h : Searchable m) (hc : ∀ n ∈ names, Component n ∧ 0 ∉ n) (hname : Component name)
    (hi : i < 256) : parentOf m (joinPath (names ++ [name])) = i ↔
      Path (entryAt m) 0 names i ∧ (inodeAt m i).fileType = typeDirectory := by
  rw [parentOf, strtok_dirname_joinPath (fun n hn => (hc n hn).1) hname]
  exact h.getParentDirInodeID_eq (by omega) h.root (fun n hn => (hc n hn).2) hi

theorem Searchable.parentOf_path (h : Searchable m) (hc : ∀ n ∈ names, Component n ∧ 0 ∉ n) (hname : Component name)
    (hne : parentOf m (joinPath (names ++ [name])) ≠ sizeMax) : parentOf m (joinPath (names ++ [name])) < 256 ∧
      Path (entryAt m) 0 names (parentOf m (joinPath (names ++ [name]))) ∧
      (inodeAt m (parentOf m (joinPath (names ++ [name])))).fileType = typeDirectory := by
  have hlt : parentOf m (joinPath (names ++ [name])) < 256 := by
    rw [parentOf, strtok_dirname_joinPath (fun n hn => (hc n hn).1) hname] at hne ⊢
    exact h.getParentDirInodeID_lt (by omega) h.root (fun n hn => (hc n hn).2) hne
  exact ⟨hlt,(h.parentOf_eq hc hname hlt).mp rfl⟩

theorem Searchable.findFile_eq_some (h : Searchable m) (hc : ∀ n ∈ names, Component n ∧ 0 ∉ n)
    (hname : Component name ∧ 0 ∉ name) : findFile m (joinPath (names ++ [name])) = some i ↔
      Path (entryAt m) 0 (names ++ [name]) i := by
  rw [path_concat, findFile, basename_joinPath_concat hname.1]
  constructor
  · intro hf
    split_ifs at hf with hno
    obtain ⟨hne,hex⟩ := not_or.mp hno
    obtain ⟨hd,hp,hdir⟩ := h.parentOf_path hc hname.1 hne
    obtain ⟨i',he⟩ := (h.checkFileExist_iff hd hdir hname.2).mp (by simpa using hex)
    have hi := Option.some.inj hf
    rw [h.getFileInodeID_of_edge hname.2 he] at hi
    exact ⟨_,hp,hi ▸ he⟩
  · rintro ⟨p,hp,he⟩
    obtain ⟨hd,hdir⟩ := edge_directory he
    rw [(h.parentOf_eq hc hname.1 hd).mpr ⟨hp,hdir⟩, h.getFileInodeID_of_edge hname.2 he, if_neg]
    have hm : sizeMax = 2 ^ 64 - 1 := rfl
    rintro (hz | hz)
    · omega
    · rw [(h.checkFileExist_iff hd hdir hname.2).mpr ⟨i,he⟩] at hz
      cases hz

end Joined

end LiteOSFS
