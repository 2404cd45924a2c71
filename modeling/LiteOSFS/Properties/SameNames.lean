import LiteOSFS.FileSystem.NameRefine
import LiteOSFS.Library.Answers
import LiteOSFS.Properties.DirectoryListing

/-! # Images with the same names

Two images in order with the same name space may differ in which blocks they use and in
what the blocks hold. All searches find the same in both, so `fs_create`, `fs_get_dir`,
`fs_link` and `fs_remove` return the same and keep the name spaces the same.
-/
namespace LiteOSFS
open Memory CString Ownership EntryGraph Transition

structure SameNames (m n : Mem) : Prop where
  names : namesOf m = namesOf n
  live : ∀ i < 256, ∀ j < 31, (inodeAt m i).live j = (inodeAt n i).live j

structure Alike (m n : Mem) : Prop extends SameNames m n where
  tidy : TidyImage m
  tidy' : TidyImage n

/-- The same return code, and the same names after the call. -/
def SameReturn : ℤ × F19FS → ℤ × F19FS → Prop := Matched fun s t => SameNames s.image t.image

section Search
variable {m n m' : Mem} {d i : ℕ} {name : CStr} {tokens : List CStr}

theorem SameNames.symm (h : SameNames m n) : SameNames n m := ⟨h.names.symm,fun i hi j hj => (h.live i hi j hj).symm⟩

theorem SameNames.trans (h : SameNames m n) (h' : SameNames n m') : SameNames m m' :=
  ⟨h.names.trans h'.names,fun i hi j hj => (h.live i hi j hj).trans (h'.live i hi j hj)⟩

/-- Link counts do not touch the slots. -/
theorem SameNames.live_links (h : SameNames m n) (hi : i < 256) {a b : UInt64} {j : ℕ} (hj : j < 31) :
    ({ inodeAt m i with linkCount := a } : Inode).live j = ({ inodeAt n i with linkCount := b } : Inode).live j :=
  ((SameEntries.links _ _).live j hj).trans ((h.live i hi j hj).trans ((SameEntries.links _ _).live j hj).symm)

theorem SameNames.of_records (hn : namesOf m = namesOf n) (hx : ∀ i < 256, inodeAt m i = inodeAt n i) :
    SameNames m n :=
  ⟨hn,fun i hi j _ => by rw [hx i hi]⟩

theorem Alike.symm (h : Alike m n) : Alike n m := ⟨h.toSameNames.symm,h.tidy',h.tidy⟩

theorem Alike.entries (h : Alike m n) : entryAt m = entryAt n := congrArg Names.entries h.names

theorem Alike.fileType (h : Alike m n) (hi : i < 256) : (inodeAt m i).fileType = (inodeAt n i).fileType := by
  rw [← record_kind hi, ← record_kind hi, h.names]

theorem Alike.linkCount (h : Alike m n) (hi : i < 256) : (inodeAt m i).linkCount = (inodeAt n i).linkCount := by
  rw [← record_links hi, ← record_links hi, h.names]

theorem Alike.firstFreeInode_eq (h : Alike m n) : firstFreeInode m = firstFreeInode n :=
  firstFreeInode_congr (fun i hi => by rw [← record_used hi, ← record_used hi, h.names])

theorem Alike.path_iff (h : Alike m n) : Path (entryAt m) d tokens i ↔ Path (entryAt n) d tokens i := by
  rw [h.entries]

theorem Alike.resolve_eq (h : Alike m n) (tokens : List CStr) : resolve m tokens = resolve n tokens := by
  ext i
  rw [resolve_eq_some h.tidy.searchable.readable h.tidy.distinct,
    resolve_eq_some h.tidy'.searchable.readable h.tidy'.distinct, h.path_iff]

/-- The directory at the end of a path is one in both. -/
theorem Alike.directory_iff (h : Alike m n) : Path (entryAt m) 0 tokens i ∧ (inodeAt m i).fileType = typeDirectory ↔
    Path (entryAt n) 0 tokens i ∧ (inodeAt n i).fileType = typeDirectory := by
  rw [h.path_iff]
  refine and_congr_right (fun hp => ?_)
  have hi : i < 256 := hp.induct (P := (· < 256)) (by omega) (fun _ _ _ _ he => edge_lt he)
  rw [h.fileType hi]

theorem Alike.createParent_eq (h : Alike m n) (hne : tokens ≠ []) :
    createParent m tokens = createParent n tokens := by
  rw [← List.dropLast_append_getLast hne]
  ext i
  rw [createParent_eq_some h.tidy.searchable.readable h.tidy.distinct,
    createParent_eq_some h.tidy'.searchable.readable h.tidy'.distinct, h.directory_iff]

theorem Alike.parentOf_of_ne {path : CStr} (h : Alike m n) (hpath : 0 ∉ path) (hne : parentOf m path ≠ sizeMax) :
    parentOf n path = parentOf m path := by
  have ht : ∀ token ∈ strtok slash (dirname path), 0 ∉ token := fun token ht hc =>
    dirname_nulFree hpath ((mem_strtok ht).2.2 hc)
  have hroot := h.tidy.searchable.root
  have hlt := h.tidy.searchable.getParentDirInodeID_lt (show 0 < 256 by omega) hroot ht hne
  exact (h.tidy'.searchable.getParentDirInodeID_eq (by omega) h.tidy'.searchable.root ht hlt).mpr
    (h.directory_iff.mp ((h.tidy.searchable.getParentDirInodeID_eq (by omega) hroot ht hlt).mp rfl))

theorem Alike.parentOf_eq {path : CStr} (h : Alike m n) (hpath : 0 ∉ path) : parentOf m path = parentOf n path := by
  by_cases hm : parentOf m path = sizeMax
  · by_cases hn : parentOf n path = sizeMax
    · rw [hm, hn]
    · exact h.symm.parentOf_of_ne hpath hn
  · exact (h.parentOf_of_ne hpath hm).symm

theorem Alike.checkFileExist_eq (h : Alike m n) (hd : d < 256) (hdir : (inodeAt m d).fileType = typeDirectory)
    (hname : 0 ∉ name) : checkFileExist m d name = checkFileExist n d name := by
  rw [Bool.eq_iff_iff, h.tidy.searchable.checkFileExist_iff hd hdir hname,
    h.tidy'.searchable.checkFileExist_iff hd (h.fileType hd ▸ hdir) hname, h.entries]

theorem Alike.getFileInodeID_eq (h : Alike m n) (hd : d < 256) (hdir : (inodeAt m d).fileType = typeDirectory)
    (hname : 0 ∉ name) : getFileInodeID m d name = getFileInodeID n d name := by
  by_cases hex : ∃ i, Edge (entryAt m) d name i
  · obtain ⟨i,he⟩ := hex
    rw [h.tidy.searchable.getFileInodeID_of_edge hname he,
      h.tidy'.searchable.getFileInodeID_of_edge hname (h.entries ▸ he)]
  · have hno : ∀ i, ¬ Edge (entryAt m) d name i := fun i he => hex ⟨i,he⟩
    rw [h.tidy.searchable.getFileInodeID_of_none hd hdir hname hno,
      h.tidy'.searchable.getFileInodeID_of_none hd (h.fileType hd ▸ hdir) hname (h.entries ▸ hno)]

theorem Alike.isDirectoryEmpty_eq (h : Alike m n) (hi : i < 256) :
    isDirectoryEmpty (inodeAt m i) = isDirectoryEmpty (inodeAt n i) := by
  rw [Bool.eq_iff_iff, isDirectoryEmpty_iff, isDirectoryEmpty_iff]
  exact forall₂_congr (fun j hj => by rw [h.live i hi j hj])

theorem Alike.full_iff (h : Alike m n) (hi : i < 256) :
    (inodeAt m i).entryCount = 31 ↔ (inodeAt n i).entryCount = 31 := by
  rw [Inode.entryCount_full, Inode.entryCount_full]
  exact forall₂_congr (fun j hj => by rw [h.live i hi j hj])

theorem Alike.firstVacant_eq (h : Alike m n) (hi : i < 256) : (inodeAt m i).firstVacant = (inodeAt n i).firstVacant :=
  bitmapFfz_congr (h.live i hi)

/-- The names of the slots in use are the same, and so is the slot that a name is found in. -/
theorem Alike.getFileIndexInDir_eq (h : Alike m n) (hd : d < 256) (hdir : (inodeAt m d).fileType = typeDirectory)
    (name : CStr) : getFileIndexInDir (inodeAt m d) (blockAt m (inodeAt m d).dirBlock) name =
      getFileIndexInDir (inodeAt n d) (blockAt n (inodeAt n d).dirBlock) name := by
  refine firstEntry_congr (fun j hj => ?_)
  rw [← h.live d hd j hj]
  cases hl : (inodeAt m d).live j with
  | false => rfl
  | true =>
    have he := congrFun (congrFun h.entries d) j
    rw [entryAt_live hd hj hdir hl, entryAt_live hd hj (h.fileType hd ▸ hdir) (h.live d hd j hj ▸ hl)] at he
    rw [(Prod.mk.inj (Option.some.inj he)).1]

theorem Alike.liveEntries_eq (h : Alike m n) (hd : d < 256) (hdir : (inodeAt m d).fileType = typeDirectory) :
    liveEntries m d = liveEntries n d := by
  have hlive : (List.range 31).filter (inodeAt m d).live = (List.range 31).filter (inodeAt n d).live :=
    List.filter_congr (fun j hj => h.live d hd j (List.mem_range.mp hj))
  rw [liveEntries, liveEntries, ← hlive]
  refine List.map_congr_left (fun j hj => ?_)
  obtain ⟨hj,hl⟩ := List.mem_filter.mp hj
  have hj := List.mem_range.mp hj
  have he := congrFun (congrFun h.entries d) j
  rw [entryAt_live hd hj hdir hl, entryAt_live hd hj (h.fileType hd ▸ hdir) (h.live d hd j hj ▸ hl)] at he
  exact Option.some.inj he

theorem Alike.listDir_eq (h : Alike m n) (hd : d < 256) : listDir m d = listDir n d := by
  by_cases hdir : (inodeAt m d).fileType = typeDirectory
  · rw [listDir_entries h.tidy.searchable.readable (h.tidy.terminated d) hd hdir,
      listDir_entries h.tidy'.searchable.readable (h.tidy'.terminated d) hd (h.fileType hd ▸ hdir),
      h.liveEntries_eq hd hdir]
    refine congrArg (fun l => some (some l)) (List.map_congr_left (fun r hr => ?_))
    have hlt : r.2 < 256 := by
      obtain ⟨j,_,rfl⟩ := List.mem_map.mp (List.mem_reverse.mp hr)
      exact entryInode_lt _ _
    rw [entryRecord, entryRecord, h.fileType hlt]
  · rw [listDir_file hd hdir, listDir_file hd (h.fileType hd ▸ hdir)]

theorem Alike.createChecked {path : CStr} (h : Alike m n) (hch : CreateChecked m path tokens d name) :
    CreateChecked n path tokens d name := by
  have hne := splitPath_ne_nil hch.split
  obtain ⟨hind,hend,hdir⟩ := createParent_iff.mp (h.createParent_eq hne ▸ hch.createParent_eq)
  refine ⟨hch.split,hch.valid,hind,hend,hdir,hch.last,(no_edge_iff hch.lt hdir).mp ?_⟩
  rw [← h.entries]
  exact (no_edge_iff hch.lt hch.directory).mpr hch.absent

end Search

section Create
variable {m n m' n' : Mem} {s s' t t' : F19FS} {path : Option PathArg} {type : FileT} {ret ret' : ℤ}

/-- `fs_create` has no result just if it stores a path that its buffers do not hold. -/
theorem fsCreate_eq_none {p : CStr} : fsCreate s (some p) type = none ↔
    ¬ (p = [] ∨ type = .invalid) ∧ splitPath p = none := by
  by_cases hno : p = [] ∨ type = .invalid
  · simp only [fsCreate, hno, if_true, not_true_eq_false, false_and, reduceCtorEq]
  · simp only [hno, not_false_eq_true, true_and]
    cases hsp : splitPath p with
    | none => simp only [fsCreate, if_neg hno, hsp]
    | some r =>
      cases r with
      | none => simp only [fsCreate, if_neg hno, hsp, reduceCtorEq]
      | some tokens =>
        cases hval : tokens.all isValidFileName with
        | false => simp only [fsCreate, if_neg hno, hsp, hval, Bool.not_false, if_true, reduceCtorEq]
        | true => simp only [fsCreate_split hno hsp hval, reduceCtorEq]

/-- Where `fs_create` takes a block there is one. -/
def CreateServed (m : Mem) (path : CStr) : Prop := ∀ tokens d name, CreateChecked m path tokens d name →
  (inodeAt m d).live 0 = false → firstFree m ≠ sizeMax

/-- With a block for it `fs_create` makes a new name if there is a slot and an inode. -/
theorem CreateChecked.ret_eq {p name : CStr} {tokens : List CStr} {d : ℕ} (h : CreateChecked s.image p tokens d name)
    (hi : ImageInv s.image) (hserved : CreateServed s.image p) (htype : type ≠ .invalid)
    (hc : fsCreate s (some p) type = some (ret,s')) :
    ret = if (inodeAt s.image d).entryCount = 31 ∨ firstFreeInode s.image = sizeMax then -1 else 0 := by
  rcases (h.effect htype hi hc).2 with ⟨hr,hstop,_⟩ | ⟨hr,hb⟩ | ⟨hr,k,b,c,hcr⟩
  · rw [if_pos, hr]
    cases hstop with
    | taken hj hl hn => exact absurd hn (h.absent _ hj hl)
    | noBlock hv hf => exact absurd hf (hserved _ _ _ h hv)
    | noInode _ hf => exact Or.inr hf
    | full hall => exact Or.inl (Inode.entryCount_full.mpr hall)
  · rw [if_pos (Or.inr hb.inodesFull), hr]
  · rw [if_neg, hr]
    rintro (hfull | hf)
    · have hl := Inode.entryCount_full.mp hfull k hcr.slot
      rw [hcr.vacant] at hl
      cases hl
    · have hlt := hcr.inodeLt
      rw [hcr.inodeFirst, hf] at hlt
      exact absurd hlt (by decide)

/-- A call of `fs_create` that fails changes no name. -/
theorem fsCreate_refused {path : Option CStr} (hi : ImageInv s.image) (hc : fsCreate s path type = some (ret,s'))
    (hret : ret ≠ 0) : SameNames s'.image s.image := by
  rcases (fsCreate_effect hi hc).2 with ⟨_,he⟩ | ⟨_,_,_,_,_,_,_,⟨_,hb⟩ | ⟨hr,_⟩⟩
  · rw [he]
    exact SameNames.of_records rfl (fun _ _ => rfl)
  · refine SameNames.of_records (hb.names hi) (fun i hi => ?_)
    rw [hb.image, inodeAt_setUsed hi]
  · exact absurd hr hret

/-- `fs_create` and the bitmap search of the other calls agree on the slot. -/
theorem Created.slot_eq {d k b c : ℕ} {name : CStr} (h : Created m d name type m' k b c) :
    k = (inodeAt m d).firstVacant := by
  obtain ⟨_,hvac,hall⟩ := (inodeAt m d).firstVacant_spec.resolve_left (fun hf => by
    have hl := hf.2 k h.slot
    rw [h.vacant] at hl
    cases hl)
  rcases lt_trichotomy k (inodeAt m d).firstVacant with hlt | heq | hgt
  · have hl := hall k hlt
    rw [h.vacant] at hl
    cases hl
  · exact heq
  · have hl := h.packed _ hgt
    rw [hvac] at hl
    cases hl

/-- The same name is created in both, in the same slot and with the same inode. -/
theorem Created.same {d k k' b b' c c' : ℕ} {name : CStr} (h : Created m d name type m' k b c)
    (h' : Created n d name type n' k' b' c') (ha : Alike m n) (hd : d < 256)
    (hdir : (inodeAt m d).fileType = typeDirectory) (hname : FitsSlot name)
    (hfirst : k = 0 → ∀ j < 31, (inodeAt m d).live j = false)
    (hfirst' : k' = 0 → ∀ j < 31, (inodeAt n d).live j = false) : SameNames m' n' := by
  have hk : k' = k := by rw [h.slot_eq, h'.slot_eq, ha.firstVacant_eq hd]
  have hc : c' = c := by rw [h.inodeFirst, h'.inodeFirst, ha.firstFreeInode_eq]
  subst hk hc
  have hdir' := ha.fileType hd ▸ hdir
  refine ⟨?_,fun i hi j hj => ?_⟩
  · rw [h.names ha.tidy.inv hd hdir hname ha.tidy.terminated hfirst,
      h'.names ha.tidy'.inv hd hdir' hname ha.tidy'.terminated hfirst', ha.names]
  · by_cases hid : d = i
    · subst hid
      rw [h.parent, h'.parent, Inode.live_withEntry _ h.slot hj, Inode.live_withEntry _ h.slot hj, ha.live d hd j hj]
    · by_cases hic : c' = i
      · subst hic
        rw [h.child, h'.child]
      · rw [h.others i hi hid hic, h'.others i hi hid hic, ha.live i hi j hj]

/-- `fs_create` returns the same in both and leaves the same names. -/
theorem fsCreate_matched {p : PathArg} (h : Alike s.image t.image) (htidy : CreateTidy s.image p.chars)
    (hserved : CreateServed s.image p.chars) (htidy' : CreateTidy t.image p.chars)
    (hserved' : CreateServed t.image p.chars)
    (hc : fsCreate s (some p.chars) type = some (ret,s')) (hc' : fsCreate t (some p.chars) type = some (ret',t')) :
    ret = ret' ∧ SameNames s'.image t'.image := by
  have hi := h.tidy.inv
  have hi' := h.tidy'.inv
  have hquiet : ret ≠ 0 → ret' ≠ 0 → SameNames s'.image t'.image := fun hr hr' =>
    ((fsCreate_refused hi hc hr).trans h.toSameNames).trans (fsCreate_refused hi' hc' hr').symm
  by_cases hex : ∃ tokens d name, CreateChecked s.image p.chars tokens d name ∧ type ≠ .invalid
  · obtain ⟨tokens,d,name,hch,htype⟩ := hex
    have hch' := h.createChecked hch
    have hret : ret = ret' := by
      rw [hch.ret_eq hi hserved htype hc, hch'.ret_eq hi' hserved' htype hc']
      simp only [h.full_iff hch.lt, h.firstFreeInode_eq]
    refine ⟨hret,?_⟩
    by_cases h0 : ret = 0
    · subst hret h0
      rcases (hch.effect htype hi hc).2 with ⟨hr,_⟩ | ⟨hr,_⟩ | ⟨_,k,b,c,hcr⟩
      · cases hr
      · cases hr
      rcases (hch'.effect htype hi' hc').2 with ⟨hr,_⟩ | ⟨hr,_⟩ | ⟨_,k',b',c',hcr'⟩
      · cases hr
      · cases hr
      have hname : FitsSlot name := hch.fits (show pathOf (some p) = some p.chars from rfl)
      refine hcr.same hcr' h hch.lt hch.directory hname ?_ ?_
      · rintro rfl
        exact htidy tokens d name hch hcr.vacant
      · rintro rfl
        exact htidy' tokens d name hch' hcr'.vacant
    · exact hquiet h0 (hret ▸ h0)
  · have hr : ret = -1 := by
      rcases (fsCreate_effect hi hc).2 with ⟨hr,_⟩ | ⟨q,tokens,d,name,hq,htype,hch,_⟩
      · exact hr
      · cases hq
        exact absurd ⟨tokens,d,name,hch,htype⟩ hex
    have hr' : ret' = -1 := by
      rcases (fsCreate_effect hi' hc').2 with ⟨hr,_⟩ | ⟨q,tokens,d,name,hq,htype,hch,_⟩
      · exact hr
      · cases hq
        exact absurd ⟨tokens,d,name,h.symm.createChecked hch,htype⟩ hex
    exact ⟨hr.trans hr'.symm,hquiet (by omega) (by omega)⟩

/-- Where slot 0 is vacant there are no entries, and there is a block. -/
def CreateReady (m : Mem) (path : Option PathArg) : Prop := ∀ p ∈ path, CreateTidy m p.chars ∧ CreateServed m p.chars

theorem fsCreate_same (h : Alike s.image t.image) (hs : CreateReady s.image path) (ht : CreateReady t.image path) :
    Option.Rel SameReturn (fsCreate s (pathOf path) type) (fsCreate t (pathOf path) type) := by
  cases path with
  | none => exact Option.Rel.some ⟨rfl,h.toSameNames⟩
  | some p =>
    have hnone : fsCreate s (some p.chars) type = none ↔ fsCreate t (some p.chars) type = none := by
      rw [fsCreate_eq_none, fsCreate_eq_none]
    show Option.Rel _ (fsCreate s (some p.chars) type) (fsCreate t (some p.chars) type)
    cases hc : fsCreate s (some p.chars) type with
    | none =>
      rw [hnone.mp hc]
      exact Option.Rel.none
    | some r =>
      cases hc' : fsCreate t (some p.chars) type with
      | none =>
        rw [hnone.mpr hc'] at hc
        cases hc
      | some r' =>
        exact Option.Rel.some (fsCreate_matched h (hs p rfl).1 (hs p rfl).2 (ht p rfl).1 (ht p rfl).2 hc hc')

end Create

section Link
variable {m n : Mem} {s t : F19FS} {d i : ℕ} {name : CStr} {src dst : Option PathArg}

theorem Alike.linked (h : Alike m n) (hi : i < 256) (hd : d < 256) (hdir : (inodeAt m d).fileType = typeDirectory)
    (hroom : (inodeAt m d).entryCount ≠ 31) (hname : FitsSlot name) (hne : (inodeAt m d).dirBlock ≠ 0)
    (hne' : (inodeAt n d).dirBlock ≠ 0) : SameNames (linked m i d name) (linked n i d name) := by
  have hx := h.tidy.inv.offTable hd
  have hx' := h.tidy'.inv.offTable hd
  refine ⟨?_,fun e he j hj => ?_⟩
  · rw [names_linked h.tidy.inv h.tidy.terminated hi hd hdir hne hroom hname,
      names_linked h.tidy'.inv h.tidy'.terminated hi hd (h.fileType hd ▸ hdir) hne'
        (fun hf => hroom ((h.full_iff hd).mpr hf)) hname, h.names, h.firstVacant_eq hd]
  · rw [inodeAt_linked hx he, inodeAt_linked hx' he]
    split_ifs with hde hie
    · rw [Inode.live_markEntry _ hj, Inode.live_markEntry _ hj, h.firstVacant_eq hd, h.live d hd j hj]
    · exact h.live_links hi hj
    · exact h.live e he j hj

theorem Alike.linkChecked {p q : CStr} (h : Alike m n) (hp : 0 ∉ p) (hq : 0 ∉ q) (hchk : LinkChecked m p q) :
    LinkChecked n p q := by
  obtain ⟨hs,hsdir⟩ := parentOf_spec h.tidy.inv hchk.srcParent
  obtain ⟨hd,hddir⟩ := parentOf_spec h.tidy.inv hchk.dstParent
  refine ⟨hchk.srcLong,hchk.dstLong,hchk.srcValid,hchk.dstValid,hchk.srcName,hchk.dstName,?_,?_,?_,?_,?_,?_⟩
  · rw [← h.parentOf_eq hp]
    exact hchk.srcParent
  · rw [← h.parentOf_eq hp, ← h.checkFileExist_eq hs hsdir (basename_nulFree hp)]
    exact hchk.srcExists
  · rw [← h.parentOf_eq hq]
    exact hchk.dstParent
  · rw [← h.parentOf_eq hq, ← h.checkFileExist_eq hd hddir (basename_nulFree hq)]
    exact hchk.dstFree
  · rw [← h.parentOf_eq hq]
    exact fun hf => hchk.room ((h.full_iff hd).mpr hf)
  · rw [← h.parentOf_eq hp, ← h.getFileInodeID_eq hs hsdir (basename_nulFree hp),
      ← h.linkCount (getFileInodeID_lt _ _ _)]
    exact hchk.links

/-- `fs_link` returns the same in both and leaves the same names. -/
theorem fsLinkImage_same {p q : CStr} (h : Alike m n) (hp : 0 ∉ p) (hq : 0 ∉ q) (hm : LinkSafe m p q)
    (hn : LinkSafe n p q) : Matched SameNames (fsLinkImage m p q) (fsLinkImage n p q) := by
  have hstop : ∀ r : ℤ, Matched SameNames (r,m) (r,n) := fun r => ⟨rfl,h.toSameNames⟩
  refine rel_ite Iff.rfl (fun _ => hstop _) (fun h1 => ?_)
  refine rel_ite Iff.rfl (fun _ => hstop _) (fun h2 => ?_)
  refine rel_ite Iff.rfl (fun _ => hstop _) (fun h3 => ?_)
  refine rel_ite Iff.rfl (fun _ => hstop _) (fun h4 => ?_)
  refine rel_ite Iff.rfl (fun _ => hstop _) (fun h5 => ?_)
  have hsrc := h.parentOf_eq hp
  have hdst := h.parentOf_eq hq
  refine rel_ite (by rw [hsrc]) (fun _ => hstop _) (fun h6 => ?_)
  obtain ⟨hs,hsdir⟩ := parentOf_spec h.tidy.inv h6
  have hex := h.checkFileExist_eq hs hsdir (basename_nulFree hp)
  have hid := h.getFileInodeID_eq hs hsdir (basename_nulFree hp)
  rw [← hsrc]
  refine rel_ite (by rw [hex]) (fun _ => hstop _) (fun h7 => ?_)
  refine rel_ite (by rw [hdst]) (fun _ => hstop _) (fun h8 => ?_)
  obtain ⟨hd,hddir⟩ := parentOf_spec h.tidy.inv h8
  have hnew := h.checkFileExist_eq hd hddir (basename_nulFree hq)
  rw [← hdst]
  refine rel_ite (by rw [hnew]) (fun _ => hstop _) (fun h9 => ?_)
  refine rel_ite (by rw [inodeOr_eq hd, inodeOr_eq hd, h.full_iff hd]) (fun _ => hstop _) (fun h10 => ?_)
  rw [inodeOr_eq hd] at h10
  have hi := getFileInodeID_lt m (parentOf m p) (basename p)
  rw [← hid, linkEntry_eq h.tidy.inv hi hd, linkEntry_eq h.tidy'.inv hi hd]
  refine rel_ite (by rw [h.linkCount hi]) (fun _ => hstop _) (fun h11 => ?_)
  have hchk : LinkChecked m p q := by
    refine ⟨by omega,by omega,by simpa using h2,by simpa using h3,by omega,by omega,h6,by simpa using h7,h8,
      by simpa using h9,h10,by simpa using h11⟩
  have hchk' := hn (h.linkChecked hp hq hchk)
  rw [← hdst] at hchk'
  exact ⟨rfl,h.linked hi hd hddir h10 ⟨basename_nulFree hq,hchk.dstName⟩ (hm hchk) hchk'⟩

theorem fsLink_same (h : Alike s.image t.image) (hs : ∀ p ∈ src, ∀ q ∈ dst, LinkSafe s.image p.chars q.chars)
    (ht : ∀ p ∈ src, ∀ q ∈ dst, LinkSafe t.image p.chars q.chars) :
    SameReturn (fsLink s (pathOf src) (pathOf dst)) (fsLink t (pathOf src) (pathOf dst)) := by
  cases src with
  | none => exact ⟨rfl,h.toSameNames⟩
  | some p =>
    cases dst with
    | none => exact ⟨rfl,h.toSameNames⟩
    | some q =>
      have himage := fsLinkImage_same h p.nulFree q.nulFree (hs p rfl q rfl) (ht p rfl q rfl)
      exact ⟨himage.1,himage.2⟩

end Link

section Remove
variable {m n m' n' : Mem} {s t : F19FS} {d i : ℕ} {name : CStr} {path : Option PathArg} {ret ret' : ℤ}

/-- The three ways in which `fs_remove` ends are told apart by what is the same in both. -/
theorem RemoveOutcome.same (ho : RemoveOutcome m d i name ret m') (ho' : RemoveOutcome n d i name ret' n')
    (h : Alike m n) (hd : d < 256) (hdir : (inodeAt m d).fileType = typeDirectory) (hi : i < 256) (h0 : i ≠ 0) :
    ret = ret' ∧ SameNames m' n' := by
  have htype := h.fileType hi
  have hlinks := h.linkCount hi
  have hempty := h.isDirectoryEmpty_eq hi
  rcases ho with ⟨⟨rfl,hreg,hfull⟩,rfl⟩ | ⟨rfl,hreg,hmore,rfl⟩ | ⟨m₁,k,rfl,hlast,hnone,hrel,hk,rfl⟩
  · rcases ho' with ⟨⟨rfl,_⟩,rfl⟩ | ⟨_,hreg',_⟩ | ⟨_,_,_,_,hnone',_⟩
    · exact ⟨rfl,h.toSameNames⟩
    · exact absurd (htype.trans hreg') hreg
    · rw [← hempty, hfull] at hnone'
      exact absurd (hnone' (htype ▸ hreg)) Bool.false_ne_true
  · rcases ho' with ⟨⟨_,hreg',_⟩,_⟩ | ⟨rfl,_,_,rfl⟩ | ⟨_,_,_,hlast',_⟩
    · exact absurd (htype ▸ hreg) hreg'
    · refine ⟨rfl,?_,fun e he j hj => ?_⟩
      · rw [names_lower h.tidy.inv hi, names_lower h.tidy'.inv hi, h.names]
      · rw [inodeAt_putInode, inodeAt_putInode]
        split_ifs with hie
        · exact h.live_links hi hj
        · exact h.live e he j hj
    · rw [hlinks] at hmore
      exact absurd hmore (hlast' (htype ▸ hreg))
  · rcases ho' with ⟨⟨_,hreg',hfull'⟩,_⟩ | ⟨_,hreg',hmore',_⟩ | ⟨n₁,k',rfl,_,hnone',hrel',hk',rfl⟩
    · rw [hempty, hfull'] at hnone
      exact absurd (hnone (htype ▸ hreg')) Bool.false_ne_true
    · rw [← hlinks] at hmore'
      exact absurd hmore' (hlast (htype.trans hreg'))
    · have hdir' := h.fileType hd ▸ hdir
      rw [← h.getFileIndexInDir_eq hd hdir, hk] at hk'
      obtain rfl := Option.some.inj hk'
      obtain ⟨hk31,hlive,_⟩ := firstEntry_some hk
      have hlive' := h.live d hd k hk31 ▸ hlive
      have hx := (h.tidy.inv.dirBlock_dataId hd ((h.tidy.inv.record d hd).block hdir k hk31 hlive)).1
      have hx' := (h.tidy'.inv.dirBlock_dataId hd ((h.tidy'.inv.record d hd).block hdir' k hk31 hlive')).1
      refine ⟨rfl,?_,fun e he j hj => ?_⟩
      · rw [hrel.names h.tidy.inv h.tidy.terminated hi h0 hnone hd hdir hk31 hlive,
          hrel'.names h.tidy'.inv h.tidy'.terminated hi h0 hnone' hd hdir' hk31 hlive', h.names]
      · rw [hrel.inodeAt_unlinked hi hx he, hrel'.inodeAt_unlinked hi hx' he]
        split_ifs with hde hie
        · rw [Inode.live_unmarkEntry _ hj, Inode.live_unmarkEntry _ hj, h.live d hd j hj]
        · rfl
        · exact h.live e he j hj

/-- `fs_remove` returns the same in both and leaves the same names. -/
theorem fsRemove_same (h : Alike s.image t.image) (hs : ∀ p ∈ path, RemoveSafe s.image p.chars)
    (ht : ∀ p ∈ path, RemoveSafe t.image p.chars) :
    Option.Rel SameReturn (fsRemove s (pathOf path)) (fsRemove t (pathOf path)) := by
  have hstop : ∀ r : ℤ, Option.Rel SameReturn (some (r,s)) (some (r,t)) := fun r => Option.Rel.some ⟨rfl,h.toSameNames⟩
  cases path with
  | none => exact hstop _
  | some p =>
    have hnul := basename_nulFree p.nulFree
    have hp := h.parentOf_eq p.nulFree
    refine rel_ite Iff.rfl (fun _ => hstop _) (fun h1 => ?_)
    refine rel_ite Iff.rfl (fun _ => hstop _) (fun h2 => ?_)
    refine rel_ite Iff.rfl (fun _ => hstop _) (fun h3 => ?_)
    refine rel_ite (by rw [hp]) (fun _ => hstop _) (fun h4 => ?_)
    obtain ⟨hd,hdir⟩ := parentOf_spec h.tidy.inv h4
    have hid := h.getFileInodeID_eq hd hdir hnul
    rw [← hp]
    refine rel_ite (by rw [hid]) (fun _ => hstop _) (fun h5 => ?_)
    have hid0 : getFileInodeID t.image (parentOf s.image p.chars) (basename p.chars) ≠ 0 := hid ▸ h5
    have htar : removeTarget s.image p.chars =
        some (getFileInodeID s.image (parentOf s.image p.chars) (basename p.chars)) := by
      rw [removeTarget, if_neg]
      simp only [h1, h3, h4, h5, or_self, or_false, false_or]
      simpa using h2
    have htar' : removeTarget t.image p.chars =
        some (getFileInodeID t.image (parentOf s.image p.chars) (basename p.chars)) := by
      rw [removeTarget, ← hp, if_neg]
      simp only [h1, h3, h4, hid0, or_self, or_false, false_or]
      simpa using h2
    obtain ⟨ret,m',hr,hout⟩ := removeIn_spec h.tidy.inv hd h5 (hs p rfl _ htar)
    obtain ⟨ret',n',hr',hout'⟩ := removeIn_spec h.tidy'.inv hd hid0 (ht p rfl _ htar')
    rw [hr, hr']
    rw [← hid] at hout'
    exact Option.Rel.some (hout.same hout' h hd hdir (getFileInodeID_lt _ _ _) h5)

/-- What `fs_get_dir` does with its names. -/
theorem Alike.listWalk_eq (h : Alike m n) (names : List CStr) :
    (if (walk m names).indicator = names.length then listDir m (walk m names).inodeID else some none) =
      if (walk n names).indicator = names.length then listDir n (walk n names).inodeID else some none := by
  have hres := h.resolve_eq names
  rw [resolve, resolve] at hres
  split_ifs at hres ⊢ with hm hn
  · rw [h.listDir_eq (walk_lt m names), Option.some.inj hres]
  · rfl

theorem fsGetDir_same (h : Alike s.image t.image) : fsGetDir s (pathOf path) = fsGetDir t (pathOf path) := by
  cases path with
  | none => rfl
  | some p =>
    by_cases hne : p.chars = []
    · simp only [pathOf, Option.map_some, fsGetDir, hne, if_true]
    · show fsGetDir s (some p.chars) = fsGetDir t (some p.chars)
      rw [fsGetDir_tokens s hne, fsGetDir_tokens t hne]
      refine congrArg _ (funext fun tokens => ?_)
      exact rel_ite Iff.rfl (fun _ => rfl) (fun _ => h.listWalk_eq _)

end Remove

/-- The calls that look at directories or change them, but for `fs_move`. -/
inductive NameCall where
  | create (path : Option PathArg) (type : FileT)
  | getDir (path : Option PathArg)
  | link (src dst : Option PathArg)
  | remove (path : Option PathArg)

deriving instance DecidableEq for FileRecord

/-- A return code, or what `fs_get_dir` returns. -/
inductive Answer where
  | code (ret : ℤ)
  | records (list : Option (List FileRecord))
deriving DecidableEq

def answered (r : ℤ × F19FS) : Answer × F19FS := (.code r.1,r.2)

def nameCall (s : F19FS) : NameCall → Option (Answer × F19FS)
  | .create path type => (fsCreate s (pathOf path) type).map answered
  | .getDir path => (fsGetDir s (pathOf path)).map (fun list => (.records list,s))
  | .link src dst => some (answered (fsLink s (pathOf src) (pathOf dst)))
  | .remove path => (fsRemove s (pathOf path)).map answered

/-- `fs_create` has a block where it takes one and takes it for a directory without entries, and the directories that
`fs_link` writes to and `fs_remove` gives back have blocks. -/
def NameReady (s : F19FS) : NameCall → Prop
  | .create path _ => CreateReady s.image path
  | .getDir _ => True
  | .link src dst => ∀ p ∈ src, ∀ q ∈ dst, LinkSafe s.image p.chars q.chars
  | .remove path => ∀ p ∈ path, RemoveSafe s.image p.chars

section Calls
variable {s t : F19FS}

theorem matched_alike {x y : Option (ℤ × F19FS)} (h : Option.Rel SameReturn x y)
    (hx : ∀ r ∈ x, TidyImage r.2.image) (hy : ∀ r ∈ y, TidyImage r.2.image) :
    Option.Rel (Matched fun s t => Alike s.image t.image) (x.map answered) (y.map answered) := by
  cases h with
  | none => exact Option.Rel.none
  | some hm => exact Option.Rel.some ⟨congrArg Answer.code hm.1,hm.2,hx _ rfl,hy _ rfl⟩

theorem tidy_after {c : Call} (ht : TidyImage s.image) (hg : Tidy s c) : ∀ r ∈ call s c, TidyImage r.2.image := by
  rintro ⟨ret,s'⟩ hr
  exact step_tidy ht hg (step_of_call hr)

/-- In images in order with the same names every call returns the same, and leaves such images. -/
theorem nameCall_alike (s t : F19FS) (c : NameCall) (h : Alike s.image t.image) (hs : NameReady s c)
    (ht : NameReady t c) : Option.Rel (Matched fun s t => Alike s.image t.image) (nameCall s c) (nameCall t c) := by
  cases c with
  | create path type =>
    exact matched_alike (fsCreate_same h hs ht)
      (tidy_after (c := .create path type) h.tidy ⟨trivial,fun p hp => (hs p hp).1⟩)
      (tidy_after (c := .create path type) h.tidy' ⟨trivial,fun p hp => (ht p hp).1⟩)
  | getDir path =>
    rw [nameCall, nameCall, fsGetDir_same h]
    cases fsGetDir t (pathOf path) with
    | none => exact Option.Rel.none
    | some list => exact Option.Rel.some ⟨rfl,h⟩
  | link src dst =>
    exact matched_alike (Option.Rel.some (fsLink_same h hs ht))
      (tidy_after (c := .link src dst) h.tidy ⟨hs,trivial⟩) (tidy_after (c := .link src dst) h.tidy' ⟨ht,trivial⟩)
  | remove path =>
    exact matched_alike (fsRemove_same h hs ht)
      (tidy_after (c := .remove path) h.tidy ⟨hs,trivial⟩) (tidy_after (c := .remove path) h.tidy' ⟨ht,trivial⟩)

/-- Such images cannot be told apart by any run of calls. -/
theorem Alike.answers_eq {cs : List NameCall} (h : Alike s.image t.image) (hs : Allowed nameCall NameReady s cs)
    (ht : Allowed nameCall NameReady t cs) : answers nameCall s cs = answers nameCall t cs :=
  Transition.answers_eq nameCall_alike h hs ht

end Calls

end LiteOSFS
