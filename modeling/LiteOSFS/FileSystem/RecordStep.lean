import LiteOSFS.FileSystem.EntryStep

/-! # What the calls do to the records

The marks and records of the inodes after each of the operations on directories, and from
that what any call leaves of a regular file that is in use.
-/
namespace LiteOSFS
open Memory CString Ownership

section Stores
variable {m m₁ : Mem} {d i k f t j : ℕ} {name : CStr}

theorem Released.inodeUsed_unlinked (hr : Released m i m₁) (hd : DataId (inodeAt m d).dirBlock) (hj : j < 256) :
    inodeUsed (unlinked m₁ d i (inodeAt m d) (blockAt m (inodeAt m d).dirBlock) k) j =
      (!decide (i = j) && inodeUsed m j) := by
  rw [LiteOSFS.inodeUsed_unlinked hd hj, hr.inodeBits j hj]

theorem Released.inodeAt_unlinked (hr : Released m i m₁) (hi : i < 256) (hd : DataId (inodeAt m d).dirBlock) (hj : j < 256) :
    inodeAt (unlinked m₁ d i (inodeAt m d) (blockAt m (inodeAt m d).dirBlock) k) j =
      if d = j then (inodeAt m d).unmarkEntry k else if i = j then Inode.cleared else inodeAt m j := by
  rw [LiteOSFS.inodeAt_unlinked hi hd hj, hr.inodes j hj]

theorem inodeUsed_linked (hd : DataId (inodeAt m d).dirBlock) (hj : j < 256) :
    inodeUsed (linked m i d name) j = inodeUsed m j := by
  simp only [linked]
  rw [inodeUsed_putBlock hd hj, inodeUsed_putInode hj, inodeUsed_putInode hj]

theorem inodeUsed_withDirectory {c b : ℕ} {junk : Inode} (hb : DataId b) (hd : DataId (inodeAt m d).dirBlock) (hj : j < 256) :
    inodeUsed (withDirectory m d c b name junk) j = (decide (c = j) || inodeUsed m j) := by
  simp only [withDirectory]
  rw [inodeUsed_putBlock hd hj, inodeUsed_putInode hj, inodeUsed_putInode hj, inodeUsed_putBlock hb hj,
    inodeUsed_setUsed hj, inodeUsed_setInodeUsed]

theorem inodeUsed_moved (hd : DataId (inodeAt m d).dirBlock) (ht : DataId (inodeAt m t).dirBlock) (v : ℕ) (hj : j < 256) :
    inodeUsed (moved m d k (inodeAt m t).dirBlock v f name) j = inodeUsed m j := by
  simp only [moved]
  rw [inodeUsed_putBlock ht hj, inodeUsed_putInode hj, inodeUsed_putBlock hd hj]

theorem inodeAt_moved (hd : DataId (inodeAt m d).dirBlock) (ht : DataId (inodeAt m t).dirBlock) (v : ℕ) (hj : j < 256) :
    inodeAt (moved m d k (inodeAt m t).dirBlock v f name) j =
      if d = j then (inodeAt m d).unmarkEntry k else inodeAt m j := by
  simp only [moved]
  rw [inodeAt_putBlock ht hj, inodeAt_putInode, inodeAt_putBlock hd hj]

end Stores

/-- `fs_remove` gives the inode back. -/
structure RemoveFrees (m : Mem) (path : CStr) (i : ℕ) : Prop where
  target : removeTarget m path = some i
  links : (inodeAt m i).fileType = typeRegular → ¬ (inodeAt m i).linkCount > 1
  empty : (inodeAt m i).fileType ≠ typeRegular → isDirectoryEmpty (inodeAt m i) = true

/-- A regular file that stays in use, and has its size. -/
structure FileStays (m m' : Mem) (i : ℕ) : Prop where
  used : inodeUsed m' i = true
  fileType : (inodeAt m' i).fileType = typeRegular
  fileSize : (inodeAt m' i).fileSize = (inodeAt m i).fileSize

section File
variable {s s' : F19FS} {m m' : Mem} {i : ℕ} {ret : ℤ}

theorem FileStays.of_record (hu : inodeUsed m i = true) (hreg : (inodeAt m i).fileType = typeRegular)
    (hu' : inodeUsed m' i = inodeUsed m i) (hx : inodeAt m' i = inodeAt m i) : FileStays m m' i :=
  ⟨hu'.trans hu,by rw [hx, hreg],by rw [hx]⟩

theorem FileStays.refl (hu : inodeUsed m i = true) (hreg : (inodeAt m i).fileType = typeRegular) : FileStays m m i :=
  FileStays.of_record hu hreg rfl rfl

theorem ne_of_regular {d : ℕ} (hreg : (inodeAt m i).fileType = typeRegular) (hdir : (inodeAt m d).fileType = typeDirectory) :
    d ≠ i := by
  rintro rfl
  rw [hreg] at hdir
  exact absurd hdir (by decide)

theorem ne_of_used {c : ℕ} (hu : inodeUsed m i = true) (hfree : inodeUsed m c = false) : c ≠ i := by
  rintro rfl
  rw [hu] at hfree
  cases hfree

theorem fsCreate_stays {path : Option CStr} {type : FileT} (hi : ImageInv s.image) (hi' : i < 256)
    (hu : inodeUsed s.image i = true) (hreg : (inodeAt s.image i).fileType = typeRegular)
    (h : fsCreate s path type = some (ret,s')) : FileStays s.image s'.image i := by
  rcases (fsCreate_effect hi h).2 with ⟨_,he⟩ | ⟨q,tokens,d,name,_,_,hch,⟨_,ht⟩ | ⟨_,k,b,c,hcr⟩⟩
  · rw [he]
    exact FileStays.refl hu hreg
  · refine FileStays.of_record hu hreg ?_ ?_
    · rw [ht.image, inodeUsed_setUsed hi']
    · rw [ht.image, inodeAt_setUsed hi']
  · have hci := ne_of_used hu hcr.inodeFree
    refine FileStays.of_record hu hreg ?_ (hcr.others i hi' (ne_of_regular hreg hch.directory) hci)
    rw [hcr.bits i hi', decide_eq_false hci, Bool.false_or]

theorem fsRemove_stays {path : Option CStr} (hi : ImageInv s.image) (hi' : i < 256)
    (hu : inodeUsed s.image i = true) (hreg : (inodeAt s.image i).fileType = typeRegular)
    (hblock : ∀ p ∈ path, RemoveSafe s.image p) (h : fsRemove s path = some (ret,s')) :
    (∃ p, path = some p ∧ RemoveFrees s.image p i) ∨ FileStays s.image s'.image i := by
  rcases fsRemove_cases h with ⟨_,rfl⟩ | ⟨p,rfl,hp,hid,ht,hr,_⟩
  · exact Or.inr (FileStays.refl hu hreg)
  obtain ⟨hd,hdir⟩ := parentOf_spec hi hp
  have hf := getFileInodeID_lt s.image (parentOf s.image p) (basename p)
  rcases removeIn_cases hi hd hid (hblock p rfl _ ht) hr with ⟨_,he⟩ | ⟨_,_,_,he⟩ | ⟨m₁,k,_,hlinks,hempty,hrel,hk,he⟩
  · rw [he]
    exact Or.inr (FileStays.refl hu hreg)
  · right
    rw [he]
    refine ⟨by rw [inodeUsed_putInode hi', hu],?_,?_⟩
    · rw [inodeAt_putInode]
      split_ifs with hfi
      · rw [hfi]
        exact hreg
      · exact hreg
    · rw [inodeAt_putInode]
      split_ifs with hfi
      · rw [hfi]
      · rfl
  · by_cases hfi : getFileInodeID s.image (parentOf s.image p) (basename p) = i
    · rw [hfi] at ht hlinks hempty
      exact Or.inl ⟨p,rfl,ht,hlinks,hempty⟩
    · obtain ⟨hk31,hlive,_⟩ := firstEntry_some hk
      have hdid := (hi.dirBlock_dataId hd ((hi.record _ hd).block hdir k hk31 hlive)).1
      right
      rw [he]
      refine FileStays.of_record hu hreg ?_ ?_
      · rw [hrel.inodeUsed_unlinked hdid hi', decide_eq_false hfi]
        rfl
      · rw [hrel.inodeAt_unlinked hf hdid hi', if_neg (ne_of_regular hreg hdir), if_neg hfi]

theorem moved_stays {d t k f v : ℕ} {name : CStr} (hi : ImageInv m) (hd : d < 256)
    (hdir : (inodeAt m d).fileType = typeDirectory) (hk : k < 31) (hlive : (inodeAt m d).live k = true) (ht : t < 256)
    (hdb : (inodeAt m t).dirBlock ≠ 0) (hi' : i < 256) (hu : inodeUsed m i = true)
    (hreg : (inodeAt m i).fileType = typeRegular) :
    FileStays m (moved m d k (inodeAt m t).dirBlock v f name) i := by
  have hdid := (hi.dirBlock_dataId hd ((hi.record d hd).block hdir k hk hlive)).1
  have htid := (hi.dirBlock_dataId ht hdb).1
  refine FileStays.of_record hu hreg (inodeUsed_moved hdid htid v hi') ?_
  rw [inodeAt_moved hdid htid v hi', if_neg (ne_of_regular hreg hdir)]

theorem FileStays.trans {m₁ : Mem} (h : FileStays m m₁ i) (h' : FileStays m₁ m' i) : FileStays m m' i :=
  ⟨h'.used,h'.fileType,h'.fileSize.trans h.fileSize⟩

theorem MoveResult.stays {src dst : CStr} {junk : Inode} (hi : ImageInv m) (hchk : MoveChecked m src dst) (hi' : i < 256)
    (hu : inodeUsed m i = true) (hreg : (inodeAt m i).fileType = typeRegular) (hr : MoveResult m src dst junk ret m') :
    FileStays m m' i := by
  obtain ⟨hs,hsdir⟩ := parentOf_spec hi hchk.srcParent
  obtain ⟨hd,hddir⟩ := parentOf_spec hi hchk.dstParent
  cases hr with
  | stop => exact FileStays.refl hu hreg
  | inodeTaken _ _ _ _ hif =>
    obtain ⟨hlt,hfree,_⟩ := firstFreeInode_spec hif
    refine FileStays.of_record hu hreg ?_ (inodeAt_setInodeUsed hlt)
    rw [inodeUsed_setInodeUsed, decide_eq_false (ne_of_used hu hfree), Bool.false_or]
  | blockTaken _ _ _ _ hf =>
    obtain ⟨hb,_⟩ := firstFree_spec hi.sound.sys hf
    refine FileStays.of_record hu hreg ?_ ?_
    · rw [inodeUsed_putBlock hb hi', inodeUsed_setUsed hi']
    · rw [inodeAt_putBlock hb hi', inodeAt_setUsed hi']
  | moved _ he _ hdb _ hk =>
    subst he
    obtain ⟨hk31,hlive,_⟩ := firstEntry_some hk
    exact moved_stays hi hs hsdir hk31 hlive (getFileInodeID_lt _ _ _) hdb hi' hu hreg
  | @made m₁ c k hex hpb hroom hif hf hcid hm₁ hne hv hk =>
    obtain ⟨hlt,hfree,_⟩ := firstFreeInode_spec hif
    obtain ⟨hb,_⟩ := firstFree_spec hi.sound.sys hf
    subst hcid
    have hci := ne_of_used hu hfree
    have hstay : FileStays m m₁ i := by
      rw [hm₁]
      refine FileStays.of_record hu hreg ?_ ?_
      · rw [inodeUsed_withDirectory hb (hi.dirBlock_dataId hd hpb).1 hi', decide_eq_false hci, Bool.false_or]
      · rw [inodeAt_withDirectory hlt hb (hi.offTable hd) hi', if_neg (ne_of_regular hreg hddir), if_neg hci]
    have hi₁ : ImageInv m₁ := by
      rw [hm₁]
      exact (withDirectory_inv hi hd hddir hpb hif hf (basename dst) junk).1
    obtain ⟨hk31,hlive,_⟩ := firstEntry_some hk
    exact hstay.trans (moved_stays hi₁ hs (made_srcParent hi hd hddir hs hsdir hif hf hne hm₁) hk31 hlive hlt
      (made_dirBlock hi hd hddir hif hf hm₁) hi' hstay.used hstay.fileType)

theorem fsMove_stays {src dst : Option CStr} {junk : Inode} (hi : ImageInv s.image) (hsnul : ∀ p ∈ src, 0 ∉ p)
    (hdnul : ∀ p ∈ dst, 0 ∉ p) (hsafe : ∀ p ∈ src, ∀ q ∈ dst, MoveSafe s.image p q) (hi' : i < 256)
    (hu : inodeUsed s.image i = true) (hreg : (inodeAt s.image i).fileType = typeRegular)
    (h : fsMove s src dst junk = some (ret,s')) : FileStays s.image s'.image i := by
  rcases (fsMove_result hi hsnul hdnul hsafe h).2 with ⟨_,he⟩ | ⟨p,q,_,_,hchk,hr⟩
  · rw [he]
    exact FileStays.refl hu hreg
  · exact hr.stays hi hchk hi' hu hreg

theorem fsLink_stays {src dst : Option CStr} (hi : ImageInv s.image) (hsafe : ∀ p ∈ src, ∀ q ∈ dst, LinkSafe s.image p q)
    (hi' : i < 256) (hu : inodeUsed s.image i = true) (hreg : (inodeAt s.image i).fileType = typeRegular)
    (h : fsLink s src dst = (ret,s')) : FileStays s.image s'.image i := by
  cases src with
  | none =>
    cases h
    exact FileStays.refl hu hreg
  | some p =>
    cases dst with
    | none =>
      cases h
      exact FileStays.refl hu hreg
    | some q =>
      obtain ⟨r,m',hr⟩ : ∃ r m', fsLinkImage s.image p q = (r,m') := ⟨_,_,rfl⟩
      simp only [fsLink, hr] at h
      cases h
      rcases fsLinkImage_cases hi hr with ⟨_,rfl⟩ | ⟨_,hchk,rfl⟩
      · exact FileStays.refl hu hreg
      · obtain ⟨hd,hdir⟩ := parentOf_spec hi hchk.dstParent
        have hdid := (hi.dirBlock_dataId hd (hsafe p rfl q rfl hchk)).1
        have hx : inodeAt (linked s.image (getFileInodeID s.image (parentOf s.image p) (basename p)) (parentOf s.image q)
            (basename q)) i = if getFileInodeID s.image (parentOf s.image p) (basename p) = i then
              { inodeAt s.image (getFileInodeID s.image (parentOf s.image p) (basename p)) with
                linkCount := (inodeAt s.image (getFileInodeID s.image (parentOf s.image p) (basename p))).linkCount + 1 }
              else inodeAt s.image i := by
          rw [inodeAt_linked (Or.inr hdid) hi', if_neg (ne_of_regular hreg hdir)]
        refine ⟨(inodeUsed_linked hdid hi').trans hu,?_,?_⟩
        · show (inodeAt (linked _ _ _ _) i).fileType = _
          rw [hx]
          split_ifs with hfi
          · rw [hfi]
            exact hreg
          · exact hreg
        · show (inodeAt (linked _ _ _ _) i).fileSize = _
          rw [hx]
          split_ifs with hfi
          · rw [hfi]
          · rfl

end File

end LiteOSFS
