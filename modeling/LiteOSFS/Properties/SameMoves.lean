import LiteOSFS.Properties.SameNames

/-! # fs_move in images with the same names

`fs_move` looks for both parents, makes the destination when it is missing, and takes the
entry of the source out. Where the new directory has a block, the image with it is again
one with the same names in both.
-/
namespace LiteOSFS
open Memory CString Ownership EntryGraph Transition

/-- Where `fs_move` makes a directory there is a block for it. -/
def MoveServed (m : Mem) (src dst : CStr) : Prop := MoveChecked m src dst →
  checkFileExist m (parentOf m dst) (basename dst) = false → (inodeAt m (parentOf m dst)).entryCount ≠ 31 →
  firstFree m ≠ sizeMax

/-- The directories that `fs_move` writes to have blocks, and so has the one that it makes. -/
def MoveReady (m : Mem) (src dst : Option PathArg) : Prop := ∀ p ∈ src, ∀ q ∈ dst,
  MoveSafe m p.chars q.chars ∧ MoveServed m p.chars q.chars

section Entry
variable {m n : Mem} {sp d dp k : ℕ} {name a b : CStr}

theorem moveEntry_eq (h : ImageInv m) (hs : sp < 256) (hd : d < 256) (f : ℕ) : moveEntry m sp f d name =
    (getFileIndexInDir (inodeAt m sp) (blockAt m (inodeAt m sp).dirBlock) name).elim (some (-13,m)) (fun k =>
      if (inodeAt m d).firstVacant = sizeMax then none
      else some (0,moved m sp k (inodeAt m d).dirBlock (inodeAt m d).firstVacant f name)) := by
  have hsb := h.dirBlock_le hs
  have hdb := h.dirBlock_le hd
  simp only [moveEntry, inodeOr_eq hs, inodeOr_eq hd, blockOr_eq hsb]
  cases getFileIndexInDir (inodeAt m sp) (blockAt m (inodeAt m sp).dirBlock) name with
  | none => rfl
  | some k =>
    simp only [blockStoreWrite_data hsb, blockStoreInodeWrite_table hs, blockOr_eq hdb, blockStoreWrite_data hdb]
    rfl

theorem Alike.moved (h : Alike m n) (hs : sp < 256) (hdir : (inodeAt m sp).fileType = typeDirectory) (hk : k < 31)
    (hlive : (inodeAt m sp).live k = true) (hd : d < 256) (hdb : (inodeAt m d).dirBlock ≠ 0)
    (hdb' : (inodeAt n d).dirBlock ≠ 0) (hsd : sp ≠ d) (hv : (inodeAt m d).firstVacant < 31) (hname : name.length < 32)
    (f : ℕ) : SameNames (moved m sp k (inodeAt m d).dirBlock (inodeAt m d).firstVacant f name)
      (moved n sp k (inodeAt n d).dirBlock (inodeAt n d).firstVacant f name) := by
  have hi := h.tidy.inv
  have hi' := h.tidy'.inv
  have hdir' := h.fileType hs ▸ hdir
  have hlive' := h.live sp hs k hk ▸ hlive
  have hsid := (hi.dirBlock_dataId hs ((hi.record sp hs).block hdir k hk hlive)).1
  have hsid' := (hi'.dirBlock_dataId hs ((hi'.record sp hs).block hdir' k hk hlive')).1
  refine ⟨?_,fun i hlt j hj => ?_⟩
  · rw [names_moved hi h.tidy.terminated f hs hdir hk hlive hd hdb hsd hv hname,
      names_moved hi' h.tidy'.terminated f hs hdir' hk hlive' hd hdb' hsd (h.firstVacant_eq hd ▸ hv) hname, h.names]
  · rw [inodeAt_moved hsid (hi.dirBlock_dataId hd hdb).1 _ hlt, inodeAt_moved hsid' (hi'.dirBlock_dataId hd hdb').1 _ hlt]
    split_ifs with hsi
    · rw [Inode.live_unmarkEntry _ hj, Inode.live_unmarkEntry _ hj, h.live sp hs j hj]
    · exact h.live i hlt j hj

theorem Alike.moveEntry_same (h : Alike m n) (hs : sp < 256) (hdir : (inodeAt m sp).fileType = typeDirectory)
    (hd : d < 256) (hdb : (inodeAt m d).dirBlock ≠ 0) (hdb' : (inodeAt n d).dirBlock ≠ 0) (hsd : sp ≠ d)
    (hname : name.length < 32) (f : ℕ) : Option.Rel (Matched SameNames) (moveEntry m sp f d name) (moveEntry n sp f d name) := by
  rw [moveEntry_eq h.tidy.inv hs hd, moveEntry_eq h.tidy'.inv hs hd, ← h.getFileIndexInDir_eq hs hdir name]
  cases hk : getFileIndexInDir (inodeAt m sp) (blockAt m (inodeAt m sp).dirBlock) name with
  | none => exact Option.Rel.some ⟨rfl,h.toSameNames⟩
  | some k =>
    obtain ⟨hk31,hlive,_⟩ := firstEntry_some hk
    refine rel_ite (by rw [h.firstVacant_eq hd]) (fun _ => Option.Rel.none) (fun hv => Option.Rel.some ⟨rfl,?_⟩)
    rcases (inodeAt m d).firstVacant_spec with ⟨hfull,_⟩ | ⟨hlt,_⟩
    · exact absurd hfull hv
    · exact h.moved hs hdir hk31 hlive hd hdb hdb' hsd hlt hname f

/-- `fs_move` once the destination is there. -/
theorem Alike.moveOn_same (h : Alike m n) (hs : sp < 256) (hsdir : (inodeAt m sp).fileType = typeDirectory) (hd : dp < 256)
    (hddir : (inodeAt m dp).fileType = typeDirectory) (ha : FitsSlot a) (hb : 0 ∉ b)
    (hdb : sp ≠ getFileInodeID m dp b → (inodeAt m (getFileInodeID m dp b)).dirBlock ≠ 0)
    (hdb' : sp ≠ getFileInodeID n dp b → (inodeAt n (getFileInodeID n dp b)).dirBlock ≠ 0) :
    Option.Rel (Matched SameNames)
      (if sp = getFileInodeID m dp b then some (-14,m) else moveEntry m sp (getFileInodeID m sp a) (getFileInodeID m dp b) a)
      (if sp = getFileInodeID n dp b then some (-14,n)
        else moveEntry n sp (getFileInodeID n sp a) (getFileInodeID n dp b) a) := by
  rw [← h.getFileInodeID_eq hd hddir hb] at hdb' ⊢
  rw [← h.getFileInodeID_eq hs hsdir ha.1]
  refine rel_ite Iff.rfl (fun _ => Option.Rel.some ⟨rfl,h.toSameNames⟩) (fun hne => ?_)
  exact h.moveEntry_same hs hsdir (getFileInodeID_lt _ _ _) (hdb hne) (hdb' hne) hne ha.2 _

end Entry

section Move
variable {m n : Mem} {s t : F19FS} {p q : CStr} {src dst : Option PathArg}

theorem Alike.moveChecked (h : Alike m n) (hp : 0 ∉ p) (hq : 0 ∉ q) (hchk : MoveChecked m p q) : MoveChecked n p q := by
  obtain ⟨hs,hsdir⟩ := parentOf_spec h.tidy.inv hchk.srcParent
  refine ⟨hchk.srcLong,hchk.dstLong,hchk.srcValid,hchk.dstValid,hchk.lengths,hchk.srcName,hchk.dstName,hchk.outside,
    ?_,?_,?_⟩
  · rw [← h.parentOf_eq hp]
    exact hchk.srcParent
  · rw [← h.parentOf_eq hp, ← h.checkFileExist_eq hs hsdir (basename_nulFree hp)]
    exact hchk.srcExists
  · rw [← h.parentOf_eq hq]
    exact hchk.dstParent

/-- The new directory is made in both. -/
theorem Alike.made {d : ℕ} {name : CStr} (h : Alike m n) (hd : d < 256) (hdir : (inodeAt m d).fileType = typeDirectory)
    (hdb : (inodeAt m d).dirBlock ≠ 0) (hdb' : (inodeAt n d).dirBlock ≠ 0) (hif : firstFreeInode m ≠ sizeMax)
    (hf : firstFree m ≠ sizeMax) (hf' : firstFree n ≠ sizeMax) (hroom : (inodeAt m d).entryCount ≠ 31)
    (hname : FitsSlot name) (hex : checkFileExist m d name = false) (junk : Inode) :
    Alike (withDirectory m d (firstFreeInode m) (firstFree m) name junk)
      (withDirectory n d (firstFreeInode n) (firstFree n) name junk) := by
  have hi := h.tidy.inv
  have hi' := h.tidy'.inv
  have hdir' := h.fileType hd ▸ hdir
  have hif' : firstFreeInode n ≠ sizeMax := h.firstFreeInode_eq ▸ hif
  have hroom' : (inodeAt n d).entryCount ≠ 31 := fun hc => hroom ((h.full_iff hd).mpr hc)
  have hlt := (firstFreeInode_spec hif).1
  refine ⟨⟨?_,fun i hi256 j hj => ?_⟩,h.tidy.made hd hdir hdb hif hf hroom hname hex junk,
    h.tidy'.made hd hdir' hdb' hif' hf' hroom' hname (h.checkFileExist_eq hd hdir hname.1 ▸ hex) junk⟩
  · rw [names_withDirectory hi h.tidy.terminated hd hdir hdb hif hf hroom hname junk,
      names_withDirectory hi' h.tidy'.terminated hd hdir' hdb' hif' hf' hroom' hname junk, h.names, h.firstVacant_eq hd,
      h.firstFreeInode_eq]
  · rw [← h.firstFreeInode_eq, inodeAt_withDirectory hlt (firstFree_spec hi.sound.sys hf).1 (hi.offTable hd) hi256,
      inodeAt_withDirectory hlt (firstFree_spec hi'.sound.sys hf').1 (hi'.offTable hd) hi256]
    split_ifs
    · rw [Inode.live_markEntry _ hj, Inode.live_markEntry _ hj, h.live d hd j hj, h.firstVacant_eq hd]
    · rw [newInode_live _ _ _ hj, newInode_live _ _ _ hj]
    · exact h.live i hi256 j hj

/-- A block that no file holds changes no name. -/
theorem sameNames_blockTaken (hi : ImageInv m) (hf : firstFree m ≠ sizeMax) :
    SameNames (putBlock (setUsed m (firstFree m)) (firstFree m) zeros) m := by
  obtain ⟨hb,hbfree,_⟩ := firstFree_spec hi.sound.sys hf
  have hrec : ∀ i < 256, inodeAt (putBlock (setUsed m (firstFree m)) (firstFree m) zeros) i = inodeAt m i := by
    intro i hlt
    rw [inodeAt_putBlock hb hlt, inodeAt_setUsed hlt]
  refine SameNames.of_records (namesOf_same ?_ (recordOf_same (fun i hlt => ?_) hrec)) hrec
  · refine entryAt_keep hi (fun e he => ?_) (fun b hb' hu => ?_)
    · rw [hrec e he]
      exact SameEntries.refl _
    · have hne : firstFree m ≠ b := by
        rintro rfl
        rw [hu] at hbfree
        cases hbfree
      rw [blockAt_putBlock, if_neg hne, blockAt_setUsed hb']
  · rw [inodeUsed_putBlock hb hlt, inodeUsed_setUsed hlt]

theorem Alike.moveIn_same (h : Alike m n) (hp : 0 ∉ p) (hq : 0 ∉ q) (hchk : MoveChecked m p q) (hsafe : MoveSafe m p q)
    (hserved : MoveServed m p q) (hsafe' : MoveSafe n p q) (hserved' : MoveServed n p q) (junk : Inode) :
    Option.Rel (Matched SameNames) (moveIn m (parentOf m p) (parentOf m q) p q junk)
      (moveIn n (parentOf m p) (parentOf m q) p q junk) := by
  have hi := h.tidy.inv
  have hi' := h.tidy'.inv
  obtain ⟨hs,hsdir⟩ := parentOf_spec hi hchk.srcParent
  obtain ⟨hd,hddir⟩ := parentOf_spec hi hchk.dstParent
  have hchk' := h.moveChecked hp hq hchk
  have ha : FitsSlot (basename p) := ⟨basename_nulFree hp,hchk.srcName⟩
  have hb : FitsSlot (basename q) := ⟨basename_nulFree hq,hchk.dstName⟩
  have hexn := h.checkFileExist_eq hd hddir hb.1
  have hsafe := hsafe hchk
  have hsafe' := hsafe' hchk'
  have hserved := hserved hchk
  have hserved' := hserved' hchk'
  have hcreate' := fun hex => @fsCreate2_eq n hi' p q junk hchk' hex
  rw [← h.parentOf_eq hp, ← h.parentOf_eq hq] at hsafe'
  rw [← h.parentOf_eq hq] at hserved' hcreate'
  rw [moveIn, moveIn, ← hexn]
  cases hex : checkFileExist m (parentOf m q) (basename q) with
  | true =>
    rw [← hexn, hex, if_pos rfl] at hsafe'
    rw [hex, if_pos rfl] at hsafe
    have h0 : ¬ (0 : ℤ) ≠ 0 := fun hc => hc rfl
    simp only [if_true]
    rw [if_neg h0, if_neg h0]
    exact h.moveOn_same hs hsdir hd hddir ha hb.1 hsafe hsafe'
  | false =>
    rw [← hexn, hex, if_neg (by simp)] at hsafe'
    rw [hex, if_neg (by simp)] at hsafe
    simp only [Bool.false_eq_true, if_false, fsCreate2_eq hi hchk hex, hcreate' (hexn ▸ hex)]
    by_cases hroom : (inodeAt m (parentOf m q)).entryCount = 31
    · have h9 : (-9 : ℤ) ≠ 0 := by decide
      simp only [hroom, (h.full_iff hd).mp hroom, if_true]
      rw [if_pos h9, if_pos h9]
      exact Option.Rel.some ⟨rfl,h.toSameNames⟩
    have hroom' : (inodeAt n (parentOf m q)).entryCount ≠ 31 := fun hc => hroom ((h.full_iff hd).mpr hc)
    have hf := hserved hex hroom
    have hf' := hserved' (hexn ▸ hex) hroom'
    rw [if_neg hroom, if_neg hroom']
    obtain ⟨r,m₁,hcr⟩ : ∃ r m₁, create2In m (parentOf m q) (inodeAt m (parentOf m q))
      (blockAt m (inodeAt m (parentOf m q)).dirBlock) (basename q) .directory junk = (r,m₁) := ⟨_,_,rfl⟩
    obtain ⟨r',n₁,hcr'⟩ : ∃ r' n₁, create2In n (parentOf m q) (inodeAt n (parentOf m q))
      (blockAt n (inodeAt n (parentOf m q)).dirBlock) (basename q) .directory junk = (r',n₁) := ⟨_,_,rfl⟩
    rw [hcr, hcr']
    rcases create2In_cases hi hd hcr with ⟨_,hfull,_⟩ | ⟨hr,hif,_,rfl⟩ | ⟨rfl,hif,_,rfl⟩
    · exact absurd hfull hf
    · rcases create2In_cases hi' hd hcr' with ⟨_,hfull,_⟩ | ⟨hr',_,_,rfl⟩ | ⟨_,hif',_,_⟩
      · exact absurd hfull hf'
      · simp only
        rw [if_pos hr, if_pos hr']
        exact Option.Rel.some ⟨rfl,((sameNames_blockTaken hi hf).trans h.toSameNames).trans (sameNames_blockTaken hi' hf').symm⟩
      · exact absurd (h.firstFreeInode_eq ▸ hif) hif'
    · have hif' : firstFreeInode n ≠ sizeMax := h.firstFreeInode_eq ▸ hif
      rcases create2In_cases hi' hd hcr' with ⟨_,hfull,_⟩ | ⟨_,hfull,_,_⟩ | ⟨rfl,_,_,rfl⟩
      · exact absurd hfull hf'
      · exact absurd hfull hif'
      have hdb := hsafe hif hf
      have hdb' := hsafe' hif' hf'
      have hmade := h.made hd hddir hdb hdb' hif hf hf' hroom hb hex junk
      have hfree := (firstFreeInode_spec hif).2.1
      have hne : ∀ e < 256, (inodeAt m e).fileType = typeDirectory → e ≠ firstFreeInode m := by
        rintro e he hdir rfl
        rw [(hi.record _ he).marked hdir] at hfree
        cases hfree
      have hid := getFileInodeID_withDirectory hi hd hif hf junk hb.1 hb.2 hex hroom
      have hid' := getFileInodeID_withDirectory hi' hd hif' hf' junk hb.1 hb.2 (hexn ▸ hex) hroom'
      have h0 : ¬ (0 : ℤ) ≠ 0 := fun hc => hc rfl
      simp only
      rw [if_neg h0, if_neg h0]
      refine hmade.moveOn_same hs (made_srcParent hi hd hddir hs hsdir hif hf (hne _ hs hsdir) rfl) hd
        (made_srcParent hi hd hddir hd hddir hif hf (hne _ hd hddir) rfl) ha hb.1 (fun _ => ?_) (fun _ => ?_)
      · rw [hid]
        exact made_dirBlock hi hd hddir hif hf rfl
      · rw [hid']
        exact made_dirBlock hi' hd (h.fileType hd ▸ hddir) hif' hf' rfl

theorem fsMoveImage_same (h : Alike m n) (hp : 0 ∉ p) (hq : 0 ∉ q) (hsafe : MoveSafe m p q) (hserved : MoveServed m p q)
    (hsafe' : MoveSafe n p q) (hserved' : MoveServed n p q) (junk : Inode) :
    Option.Rel (Matched SameNames) (fsMoveImage m p q junk) (fsMoveImage n p q junk) := by
  have hstop : ∀ r : ℤ, Option.Rel (Matched SameNames) (some (r,m)) (some (r,n)) := fun r =>
    Option.Rel.some ⟨rfl,h.toSameNames⟩
  have hsrc := h.parentOf_eq hp
  have hdst := h.parentOf_eq hq
  refine rel_ite Iff.rfl (fun _ => hstop _) (fun h1 => ?_)
  refine rel_ite Iff.rfl (fun _ => hstop _) (fun h2 => ?_)
  refine rel_ite Iff.rfl (fun _ => hstop _) (fun h3 => ?_)
  refine rel_ite Iff.rfl (fun _ => hstop _) (fun h4 => ?_)
  refine rel_ite Iff.rfl (fun _ => hstop _) (fun h5 => ?_)
  refine rel_ite Iff.rfl (fun _ => hstop _) (fun h6 => ?_)
  refine rel_ite Iff.rfl (fun _ => hstop _) (fun h7 => ?_)
  refine rel_ite (by rw [hsrc]) (fun _ => hstop _) (fun h8 => ?_)
  obtain ⟨hs,hsdir⟩ := parentOf_spec h.tidy.inv h8
  have hex := h.checkFileExist_eq hs hsdir (basename_nulFree hp)
  rw [← hsrc]
  refine rel_ite (by rw [hex]) (fun _ => hstop _) (fun h9 => ?_)
  refine rel_ite (by rw [hdst]) (fun _ => hstop _) (fun h10 => ?_)
  rw [← hdst]
  refine h.moveIn_same hp hq ?_ hsafe hserved hsafe' hserved' junk
  exact ⟨by omega,by omega,by simpa using h2,by simpa using h3,h4,by omega,by omega,by simpa using h7,h8,by simpa using h9,h10⟩

/-- `fs_move` returns the same in both and leaves the same names. -/
theorem fsMove_same (h : Alike s.image t.image) (hs : MoveReady s.image src dst) (ht : MoveReady t.image src dst)
    (junk : Inode) : Option.Rel SameReturn (fsMove s (pathOf src) (pathOf dst) junk) (fsMove t (pathOf src) (pathOf dst) junk) := by
  cases src with
  | none => exact Option.Rel.some ⟨rfl,h.toSameNames⟩
  | some p =>
    cases dst with
    | none => exact Option.Rel.some ⟨rfl,h.toSameNames⟩
    | some q =>
      obtain ⟨hsafe,hserved⟩ := hs p rfl q rfl
      obtain ⟨hsafe',hserved'⟩ := ht p rfl q rfl
      have himage := fsMoveImage_same h p.nulFree q.nulFree hsafe hserved hsafe' hserved' junk
      show Option.Rel _ ((fsMoveImage s.image p.chars q.chars junk).map _) ((fsMoveImage t.image p.chars q.chars junk).map _)
      generalize fsMoveImage s.image p.chars q.chars junk = x at himage ⊢
      generalize fsMoveImage t.image p.chars q.chars junk = y at himage ⊢
      cases himage with
      | none => exact Option.Rel.none
      | some hm => exact Option.Rel.some ⟨hm.1,hm.2⟩

end Move

end LiteOSFS
