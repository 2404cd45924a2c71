import LiteOSFS.FileSystem.RemoveEffect

/-! # What fs_move and fs_link do to the image -/
namespace LiteOSFS
open Memory CString Ownership

/-- The image after both directory updates of `fs_move`. -/
def moved (m : Mem) (srcParentID k dstBlock location srcFileID : ℕ) (name : CStr) : Mem :=
  let srcParent := inodeAt m srcParentID
  let m := putInode (putBlock m srcParent.dirBlock (clearEntry (blockAt m srcParent.dirBlock) k)) srcParentID
    (srcParent.unmarkEntry k)
  putBlock m dstBlock (strncpy (setEntryInode (blockAt m dstBlock) location srcFileID) (33 * location) name name.length)

/-- The image after the stores of `fs_link`. -/
def linked (m : Mem) (srcFileID dstParentID : ℕ) (dstName : CStr) : Mem :=
  let dstParent := inodeAt m dstParentID
  let index := dstParent.firstVacant
  let links := (inodeAt m srcFileID).linkCount + 1
  putBlock (putInode (putInode m srcFileID { inodeAt m srcFileID with
      linkCount := if srcFileID = dstParentID then links + 1 else links }) dstParentID (dstParent.markEntry index))
    dstParent.dirBlock
    (strncpy (setEntryInode (blockAt m dstParent.dirBlock) index srcFileID) (33 * index) dstName 32)

/-- The image once `fs_create2` has made directory `c` with block `b`. -/
def withDirectory (m : Mem) (parentID c b : ℕ) (name : CStr) (junk : Inode) : Mem :=
  let parent := inodeAt m parentID
  putBlock (putInode (putInode (putBlock (setUsed (setInodeUsed m c) b) b zeros) c (newInode .directory junk c b))
    parentID (parent.markEntry parent.firstVacant)) parent.dirBlock
    (putEntry (blockAt m parent.dirBlock) parent.firstVacant name c)

theorem Inode.firstVacant_spec (x : Inode) :
    (x.firstVacant = sizeMax ∧ ∀ j < 31, x.live j = true) ∨
    (x.firstVacant < 31 ∧ x.live x.firstVacant = false ∧ ∀ j < x.firstVacant, x.live j = true) :=
  bitmapFfz_spec _ _

theorem Inode.entryCount_full {x : Inode} : x.entryCount = 31 ↔ ∀ j < 31, x.live j = true := bitmapTotalSet_eq_full

theorem newInode_fileType (junk : Inode) (c b : ℕ) : (newInode .directory junk c b).fileType = typeDirectory := rfl

theorem newInode_dirBlock {junk : Inode} {c b : ℕ} (hb : b < 65536) :
    (newInode .directory junk c b).dirBlock = b := by
  have hd : (newInode .directory junk c b).dirBlock = (UInt16.ofNat b).toNat := rfl
  rw [hd, UInt16.toNat_ofNat', Nat.mod_eq_of_lt hb]

theorem newInode_inodeNumber {junk : Inode} {c b : ℕ} (hc : c < 256) :
    (newInode .directory junk c b).inodeNumber.toNat = c := by
  have hn : (newInode .directory junk c b).inodeNumber = UInt64.ofNat c := rfl
  rw [hn, UInt64.toNat_ofNat', Nat.mod_eq_of_lt (by omega)]

theorem newInode_live (junk : Inode) (c b : ℕ) {j : ℕ} (hj : j < 31) :
    (newInode .directory junk c b).live j = false := by
  have hv : (newInode .directory junk c b).vacantFile = 0 := rfl
  rw [Inode.live_eq _ hj, hv]
  simp

section Relocate
variable {m m' : Mem} {ret : ℤ}

theorem moveEntry_cases (h : ImageInv m) {srcParentID srcFileID dstFileID : ℕ} {name : CStr} (hs : srcParentID < 256)
    (hd : dstFileID < 256) (hr : moveEntry m srcParentID srcFileID dstFileID name = some (ret,m')) :
    (ret = -13 ∧ m' = m ∧
      getFileIndexInDir (inodeAt m srcParentID) (blockAt m (inodeAt m srcParentID).dirBlock) name = none) ∨
    ∃ k, ret = 0 ∧ getFileIndexInDir (inodeAt m srcParentID) (blockAt m (inodeAt m srcParentID).dirBlock) name = some k ∧
      (inodeAt m dstFileID).firstVacant < 31 ∧
      m' = moved m srcParentID k (inodeAt m dstFileID).dirBlock (inodeAt m dstFileID).firstVacant srcFileID name := by
  have hsb := h.dirBlock_le hs
  have hdb := h.dirBlock_le hd
  simp only [moveEntry, inodeOr_eq hs, inodeOr_eq hd, blockOr_eq hsb] at hr
  cases hk : getFileIndexInDir (inodeAt m srcParentID) (blockAt m (inodeAt m srcParentID).dirBlock) name with
  | none =>
    rw [hk] at hr
    cases hr
    exact Or.inl ⟨rfl,rfl,rfl⟩
  | some k =>
    simp only [hk, blockStoreWrite_data hsb, blockStoreInodeWrite_table hs, blockOr_eq hdb,
      blockStoreWrite_data hdb] at hr
    rcases (inodeAt m dstFileID).firstVacant_spec with ⟨hf,_⟩ | ⟨hlt,_,_⟩
    · rw [if_pos hf] at hr
      cases hr
    · have hne : (inodeAt m dstFileID).firstVacant ≠ sizeMax := by
        unfold sizeMax
        omega
      rw [if_neg hne] at hr
      cases hr
      exact Or.inr ⟨k,rfl,rfl,hlt,rfl⟩

theorem moved_inv (h : ImageInv m) {srcParentID dstFileID : ℕ} (k location srcFileID : ℕ) (name : CStr)
    (hs : srcParentID < 256) (hdir : (inodeAt m srcParentID).fileType = typeDirectory)
    (hsb : (inodeAt m srcParentID).dirBlock ≠ 0) (hd : dstFileID < 256) (hdb : (inodeAt m dstFileID).dirBlock ≠ 0)
    (hsd : srcParentID ≠ dstFileID) :
    ImageInv (moved m srcParentID k (inodeAt m dstFileID).dirBlock location srcFileID name) ∧
      SysSteps m (moved m srcParentID k (inodeAt m dstFileID).dirBlock location srcFileID name) := by
  obtain ⟨h₁,hs₁⟩ := putEntry_inv h hs hdir hsb (clearEntry (blockAt m (inodeAt m srcParentID).dirBlock) k)
    (x := (inodeAt m srcParentID).unmarkEntry k) rfl rfl rfl
  have hid := (h.dirBlock_dataId hs hsb).1
  have hat : inodeAt (putInode (putBlock m (inodeAt m srcParentID).dirBlock
      (clearEntry (blockAt m (inodeAt m srcParentID).dirBlock) k)) srcParentID
      ((inodeAt m srcParentID).unmarkEntry k)) dstFileID = inodeAt m dstFileID := by
    rw [inodeAt_putInode, if_neg hsd, inodeAt_putBlock hid hd]
  unfold moved
  simp only
  generalize putInode (putBlock m (inodeAt m srcParentID).dirBlock
    (clearEntry (blockAt m (inodeAt m srcParentID).dirBlock) k)) srcParentID
    ((inodeAt m srcParentID).unmarkEntry k) = m₁ at *
  rw [← hat] at hdb ⊢
  obtain ⟨h₂,hs₂⟩ := putDirBlock_inv h₁ hd hdb (strncpy (setEntryInode (blockAt m₁ (inodeAt m₁ dstFileID).dirBlock)
    location srcFileID) (33 * location) name name.length)
  exact ⟨h₂,hs₁.trans hs₂⟩

theorem linked_inv (h : ImageInv m) {srcFileID dstParentID : ℕ} {dstName : CStr} (hs : srcFileID < 256)
    (hd : dstParentID < 256) (hdir : (inodeAt m dstParentID).fileType = typeDirectory)
    (hdb : (inodeAt m dstParentID).dirBlock ≠ 0) :
    ImageInv (linked m srcFileID dstParentID dstName) ∧ SysSteps m (linked m srcFileID dstParentID dstName) := by
  obtain ⟨links,hl⟩ : ∃ links, links = if srcFileID = dstParentID then (inodeAt m srcFileID).linkCount + 1 + 1
    else (inodeAt m srcFileID).linkCount + 1 := ⟨_,rfl⟩
  have h₁ := h.putLinks hs links
  have hold : (inodeAt (putInode m srcFileID { inodeAt m srcFileID with linkCount := links }) dstParentID).fileType =
      typeDirectory ∧ (inodeAt (putInode m srcFileID { inodeAt m srcFileID with linkCount := links })
        dstParentID).dirBlock = (inodeAt m dstParentID).dirBlock := by
    rw [inodeAt_putInode]
    split_ifs with he
    · subst he
      exact ⟨(Inode.links_fileType _ _).trans hdir,Inode.links_dirBlock _ _⟩
    · exact ⟨hdir,rfl⟩
  have h₂ := h₁.putDirectory hd hold.1 (x := (inodeAt m dstParentID).markEntry (inodeAt m dstParentID).firstVacant)
    hdir ((h.record dstParentID hd).self hdir) hold.2.symm (by rwa [hold.2])
  have hat : (inodeAt (putInode (putInode m srcFileID { inodeAt m srcFileID with linkCount := links }) dstParentID
      ((inodeAt m dstParentID).markEntry (inodeAt m dstParentID).firstVacant)) dstParentID).dirBlock =
      (inodeAt m dstParentID).dirBlock := by
    rw [inodeAt_putInode, if_pos rfl]
    rfl
  obtain ⟨h₃,hs₃⟩ := putDirBlock_inv h₂ hd (by rwa [hat]) (strncpy (setEntryInode (blockAt m
    (inodeAt m dstParentID).dirBlock) (inodeAt m dstParentID).firstVacant srcFileID)
    (33 * (inodeAt m dstParentID).firstVacant) dstName 32)
  rw [hat] at h₃ hs₃
  have he : linked m srcFileID dstParentID dstName = putBlock (putInode (putInode m srcFileID
      { inodeAt m srcFileID with linkCount := links }) dstParentID ((inodeAt m dstParentID).markEntry
        (inodeAt m dstParentID).firstVacant)) (inodeAt m dstParentID).dirBlock (strncpy (setEntryInode (blockAt m
    (inodeAt m dstParentID).dirBlock) (inodeAt m dstParentID).firstVacant srcFileID)
    (33 * (inodeAt m dstParentID).firstVacant) dstName 32) := by
    rw [linked, hl]
  rw [he]
  exact ⟨h₃,((SysSteps.putInode hs _).trans (SysSteps.putInode hd _)).trans hs₃⟩

/-- The cases of `fs_create2` below its parent. -/
theorem create2In_cases (h : ImageInv m) {parentID : ℕ} (hp : parentID < 256) {name : CStr} {junk : Inode}
    (hc : create2In m parentID (inodeAt m parentID) (blockAt m (inodeAt m parentID).dirBlock) name .directory junk =
      (ret,m')) :
    (ret ≠ 0 ∧ firstFree m = sizeMax ∧
      (firstFreeInode m = sizeMax ∧ m' = m ∨ firstFreeInode m ≠ sizeMax ∧ m' = setInodeUsed m (firstFreeInode m))) ∨
    (ret ≠ 0 ∧ firstFreeInode m = sizeMax ∧ firstFree m ≠ sizeMax ∧
      m' = putBlock (setUsed m (firstFree m)) (firstFree m) zeros) ∨
    (ret = 0 ∧ firstFreeInode m ≠ sizeMax ∧ firstFree m ≠ sizeMax ∧
      m' = withDirectory m parentID (firstFreeInode m) (firstFree m) name junk) := by
  have hpb := h.dirBlock_le hp
  simp only [create2In, if_true, true_and, blockStoreAllocate_inode, Inode.markEntry_dirBlock,
    blockStoreWrite_data hpb, blockStoreInodeWrite_table hp] at hc
  by_cases hi : firstFreeInode m = sizeMax
  · have hw : ∀ x m', blockStoreInodeWrite m' inodeStore sizeMax x = (0,m') := fun _ _ => if_neg (by decide)
    simp only [hi, if_true, blockStoreAllocate_whole, hw] at hc
    by_cases hf : firstFree m = sizeMax
    · simp only [hf, if_true] at hc
      cases hc
      exact Or.inl ⟨by decide,hf,Or.inl ⟨hi,rfl⟩⟩
    · have hff := (firstFree_spec h.sound.sys hf).1.2
      simp only [hf, if_false, blockStoreWrite_data hff.le] at hc
      rw [if_pos (by decide)] at hc
      cases hc
      exact Or.inr (Or.inl ⟨by decide,hi,hf,rfl⟩)
  · have hc256 := (firstFreeInode_spec hi).1
    have hfc : firstFree (setInodeUsed m (firstFreeInode m)) = firstFree m :=
      firstFree_congr (fun b hb => used_setInodeUsed hc256 (by omega))
    simp only [hi, if_false, blockStoreAllocate_whole, hfc, blockStoreInodeWrite_table hc256] at hc
    by_cases hf : firstFree m = sizeMax
    · simp only [hf, if_true] at hc
      cases hc
      exact Or.inl ⟨by decide,hf,Or.inr ⟨hi,rfl⟩⟩
    · have hff := (firstFree_spec h.sound.sys hf).1.2
      simp only [hf, if_false, blockStoreWrite_data hff.le, ne_eq, not_true_eq_false] at hc
      cases hc
      exact Or.inr (Or.inr ⟨rfl,hi,hf,rfl⟩)

/-- A free inode becomes a directory with a fresh block. -/
theorem newDirectory_inv (h : ImageInv m) {c b : ℕ} (hc : c < 256) (hc0 : c ≠ 0) (hcu : inodeUsed m c = true)
    (hb : DataId b) (hbfree : used m b = false) (junk : Inode) :
    ImageInv (putInode (putBlock (setUsed m b) b zeros) c (newInode .directory junk c b)) := by
  have hlt := hb.2
  have hfresh : ∀ q, held (setUsed m b) (tableOf m) q ≠ b := by
    intro q
    rw [held_setUsed h.sound.own]
    exact h.sound.own.fresh hb.ne_zero hbfree q
  have ht₁ : tableOf (setUsed m b) = tableOf m := tableOf_congr (fun _ hi => inodeAt_setUsed hi)
  have h₁ := (h.setUsed b).putBlock (c := zeros) hb (fun q _ _ _ _ => ht₁ ▸ hfresh q)
  have ht₂ : tableOf (putBlock (setUsed m b) b zeros) = tableOf m := by
    rw [← ht₁]
    exact tableOf_congr (fun _ hi => inodeAt_putBlock hb hi)
  have hdb : (newInode .directory junk c b).dirBlock = b := newInode_dirBlock (by omega)
  refine h₁.putInode hc (h₁.sound.updateBlock (newInode_fileType junk c b) ?_ (fun q => ?_))
    ⟨fun _ => newInode_inodeNumber hc,fun _ => ?_,fun _ j hj hl => ?_⟩ (fun h0 => absurd h0 hc0)
  · rw [hdb]
    refine ⟨hb,?_⟩
    rw [used_putBlock hb (by omega), used_setUsed, decide_eq_true rfl]
    rfl
  · rw [hdb, ht₂, held_putBlock (fun q _ _ _ _ => hfresh q)]
    exact hfresh q
  · rwa [inodeUsed_putBlock hb hc, inodeUsed_setUsed hc]
  · rw [newInode_live junk c b hj] at hl
    cases hl

theorem withDirectory_inv (h : ImageInv m) {parentID : ℕ} (hp : parentID < 256)
    (hdir : (inodeAt m parentID).fileType = typeDirectory) (hpb : (inodeAt m parentID).dirBlock ≠ 0)
    (hi : firstFreeInode m ≠ sizeMax) (hf : firstFree m ≠ sizeMax) (name : CStr) (junk : Inode) :
    ImageInv (withDirectory m parentID (firstFreeInode m) (firstFree m) name junk) ∧
      SysSteps m (withDirectory m parentID (firstFreeInode m) (firstFree m) name junk) := by
  obtain ⟨hc,hcfree,_⟩ := firstFreeInode_spec hi
  obtain ⟨hb,hbfree,_⟩ := firstFree_spec h.sound.sys hf
  have hs₁ := SysSteps.setInodeUsed hi
  have hff : firstFree (setInodeUsed m (firstFreeInode m)) = firstFree m :=
    firstFree_congr (fun b hb => used_setInodeUsed hc (by omega))
  have hs₂ := hff ▸ SysSteps.setUsed (m := setInodeUsed m (firstFreeInode m)) (hff ▸ hf)
  have hpc : firstFreeInode m ≠ parentID := by
    intro he
    rw [he, (h.record parentID hp).marked hdir] at hcfree
    cases hcfree
  have hc0 : firstFreeInode m ≠ 0 := by
    intro he
    rw [he, (h.record 0 (by omega)).marked h.root] at hcfree
    cases hcfree
  have hlt := hb.2
  generalize firstFreeInode m = c at *
  generalize firstFree m = b at *
  have h₁ := newDirectory_inv (h.setInodeUsed hc) hc hc0 (by rw [inodeUsed_setInodeUsed, decide_eq_true rfl]; rfl) hb
    (by rwa [used_setInodeUsed hc (by omega)]) junk
  have hat : inodeAt (putInode (putBlock (setUsed (setInodeUsed m c) b) b zeros) c (newInode .directory junk c b))
      parentID = inodeAt m parentID := by
    rw [inodeAt_putInode, if_neg hpc, inodeAt_putBlock hb hp, inodeAt_setUsed hp, inodeAt_setInodeUsed hc]
  have h₂ := h₁.putDirectory hp (by rwa [hat]) (x := (inodeAt m parentID).markEntry (inodeAt m parentID).firstVacant)
    hdir ((h.record parentID hp).self hdir) (by rw [hat]; rfl) (by rwa [hat])
  have hat₂ : (inodeAt (putInode (putInode (putBlock (setUsed (setInodeUsed m c) b) b zeros) c
      (newInode .directory junk c b)) parentID ((inodeAt m parentID).markEntry (inodeAt m parentID).firstVacant))
      parentID).dirBlock = (inodeAt m parentID).dirBlock := by
    rw [inodeAt_putInode, if_pos rfl]
    rfl
  obtain ⟨h₃,hs₃⟩ := putDirBlock_inv h₂ hp (by rwa [hat₂]) (putEntry (blockAt m (inodeAt m parentID).dirBlock)
    (inodeAt m parentID).firstVacant name c)
  rw [hat₂] at h₃ hs₃
  exact ⟨h₃,((((hs₁.trans hs₂).trans (SysSteps.putBlock hb _)).trans (SysSteps.putInode hc _)).trans
    (SysSteps.putInode hp _)).trans hs₃⟩

/-- The inode table and the blocks after `fs_create2`. -/
theorem inodeAt_withDirectory {parentID c b j : ℕ} {name : CStr} {junk : Inode} (hc : c < 256) (hb : DataId b)
    (hpb : OffTable (inodeAt m parentID).dirBlock) (hj : j < 256) :
    inodeAt (withDirectory m parentID c b name junk) j =
      if parentID = j then (inodeAt m parentID).markEntry (inodeAt m parentID).firstVacant
      else if c = j then newInode .directory junk c b else inodeAt m j := by
  simp only [withDirectory]
  rw [inodeAt_putBlock_offTable hpb hj, inodeAt_putInode, inodeAt_putInode, inodeAt_putBlock hb hj, inodeAt_setUsed hj,
    inodeAt_setInodeUsed hc]

theorem blockAt_withDirectory {parentID c b d : ℕ} {name : CStr} {junk : Inode} (hp : parentID < 256) (hc : c < 256)
    (hd : DataId d) : blockAt (withDirectory m parentID c b name junk) d =
      if (inodeAt m parentID).dirBlock = d then
        window (putEntry (blockAt m (inodeAt m parentID).dirBlock) (inodeAt m parentID).firstVacant name c) 0 1024
      else if b = d then window zeros 0 1024 else blockAt m d := by
  simp only [withDirectory]
  rw [blockAt_putBlock, blockAt_putInode hp hd, blockAt_putInode hc hd, blockAt_putBlock, blockAt_setUsed hd,
    blockAt_setInodeUsed hc hd]

theorem blockAt_withDirectory_parent {parentID c b : ℕ} {name : CStr} {junk : Inode} :
    blockAt (withDirectory m parentID c b name junk) (inodeAt m parentID).dirBlock =
      window (putEntry (blockAt m (inodeAt m parentID).dirBlock) (inodeAt m parentID).firstVacant name c) 0 1024 := by
  simp only [withDirectory]
  rw [blockAt_putBlock, if_pos rfl]

/-- The new directory is what its name is looked up as. -/
theorem getFileInodeID_withDirectory (h : ImageInv m) {parentID : ℕ} (hp : parentID < 256)
    (hi : firstFreeInode m ≠ sizeMax) (hf : firstFree m ≠ sizeMax) {name : CStr} (junk : Inode) (hn : 0 ∉ name)
    (hl : name.length < 32) (hex : checkFileExist m parentID name = false)
    (hroom : (inodeAt m parentID).entryCount ≠ 31) :
    getFileInodeID (withDirectory m parentID (firstFreeInode m) (firstFree m) name junk) parentID name =
      firstFreeInode m := by
  obtain ⟨hc,_⟩ := firstFreeInode_spec hi
  obtain ⟨hb,_⟩ := firstFree_spec h.sound.sys hf
  have hat : inodeAt (withDirectory m parentID (firstFreeInode m) (firstFree m) name junk) parentID =
      (inodeAt m parentID).markEntry (inodeAt m parentID).firstVacant := by
    rw [inodeAt_withDirectory hc hb (h.offTable hp) hp, if_pos rfl]
  rw [checkFileExist_eq h hp] at hex
  rw [getFileInodeID_of_readDir (readDir_data hp (by rw [hat]; exact h.dirBlock_le hp)), hat, Inode.markEntry_dirBlock,
    blockAt_withDirectory_parent]
  obtain ⟨hv,hvfree,_⟩ := (inodeAt m parentID).firstVacant_spec.resolve_left
    (fun he => hroom (Inode.entryCount_full.mpr he.2))
  generalize (inodeAt m parentID).firstVacant = v at *
  generalize firstFreeInode m = c at *
  generalize blockAt m (inodeAt m parentID).dirBlock = dir at *
  have hsv : SlotEq (window (putEntry dir v name c) 0 1024) (putEntry dir v name c) v := slotEq_window hv
  have hname : sameName (window (putEntry dir v name c) 0 1024) v name = true := by
    rw [hsv.sameName_eq hn hl, sameName_iff hn]
    exact entryName_putEntry hn hl
  have hlive : ((inodeAt m parentID).markEntry v).live v = true := by
    rw [Inode.live_markEntry _ hv, decide_eq_true rfl, Bool.true_or]
  obtain ⟨k,hk⟩ : ∃ k, firstEntry ((inodeAt m parentID).markEntry v)
      (sameName (window (putEntry dir v name c) 0 1024) · name) = some k := firstEntry_isSome hv hlive hname
  rw [hk]
  obtain ⟨hk31,hlive,hsame,_⟩ := firstEntry_some hk
  -- another match would be a name that was there before
  have hkv : v = k := by
    by_contra hne
    rw [Inode.live_markEntry _ hk31, decide_eq_false hne, Bool.false_or] at hlive
    rw [(slotEq_window hk31).sameName_eq hn hl, (slotEq_putEntry hl hne).sameName_eq hn hl] at hsame
    obtain ⟨k',hk'⟩ : ∃ k', firstEntry (inodeAt m parentID) (sameName dir · name) = some k' :=
      firstEntry_isSome hk31 hlive hsame
    rw [hk'] at hex
    cases hex
  subst hkv
  show entryInode (window (putEntry dir v name c) 0 1024) v = c
  rw [hsv.entryInode_eq, entryInode_putEntry hc]

/-- The checks that `fs_move` makes before it changes anything. -/
structure MoveChecked (m : Mem) (src dst : CStr) : Prop where
  srcLong : 1 < src.length
  dstLong : 1 < dst.length
  srcValid : isValidPath src = true
  dstValid : isValidPath dst = true
  lengths : ¬ (src.length = dst.length ∧ src ≠ dst)
  srcName : (basename src).length < 32
  dstName : (basename dst).length < 32
  outside : (strtok slash (dirname dst)).any
    (fun token => strncmpEq (basename src) token (basename src).length) = false
  srcParent : parentOf m src ≠ sizeMax
  srcExists : checkFileExist m (parentOf m src) (basename src) = true
  dstParent : parentOf m dst ≠ sizeMax

theorem ite_cases {α : Type*} {c : Prop} [Decidable c] {x y z : α} (h : (if c then x else y) = z) :
    (c ∧ x = z) ∨ (¬ c ∧ y = z) := by
  by_cases hc : c
  · exact Or.inl ⟨hc,(if_pos hc).symm.trans h⟩
  · exact Or.inr ⟨hc,(if_neg hc).symm.trans h⟩

theorem fsMoveImage_cases {src dst : CStr} {junk : Inode} (hr : fsMoveImage m src dst junk = some (ret,m')) :
    (ret < 0 ∧ m' = m) ∨
    (MoveChecked m src dst ∧ moveIn m (parentOf m src) (parentOf m dst) src dst junk = some (ret,m')) := by
  have hstop : ∀ {r : ℤ}, r < 0 → some (r,m) = some (ret,m') → ret < 0 ∧ m' = m := by
    intro r hneg he
    cases he
    exact ⟨hneg,rfl⟩
  rcases ite_cases hr with ⟨_,hr⟩ | ⟨h1,hr⟩
  · exact Or.inl (hstop (by decide) hr)
  rcases ite_cases hr with ⟨_,hr⟩ | ⟨h2,hr⟩
  · exact Or.inl (hstop (by decide) hr)
  rcases ite_cases hr with ⟨_,hr⟩ | ⟨h3,hr⟩
  · exact Or.inl (hstop (by decide) hr)
  rcases ite_cases hr with ⟨_,hr⟩ | ⟨h4,hr⟩
  · exact Or.inl (hstop (by decide) hr)
  rcases ite_cases hr with ⟨_,hr⟩ | ⟨h5,hr⟩
  · exact Or.inl (hstop (by decide) hr)
  rcases ite_cases hr with ⟨_,hr⟩ | ⟨h6,hr⟩
  · exact Or.inl (hstop (by decide) hr)
  rcases ite_cases hr with ⟨_,hr⟩ | ⟨h7,hr⟩
  · exact Or.inl (hstop (by decide) hr)
  rcases ite_cases hr with ⟨_,hr⟩ | ⟨h8,hr⟩
  · exact Or.inl (hstop (by decide) hr)
  rcases ite_cases hr with ⟨_,hr⟩ | ⟨h9,hr⟩
  · exact Or.inl (hstop (by decide) hr)
  rcases ite_cases hr with ⟨_,hr⟩ | ⟨h10,hr⟩
  · exact Or.inl (hstop (by decide) hr)
  refine Or.inr ⟨⟨by omega,by omega,?_,?_,h4,by omega,by omega,?_,h8,?_,h10⟩,hr⟩
  · simpa using h2
  · simpa using h3
  · simpa using h7
  · simpa using h9

/-- Once its checks are passed, `fs_move` goes on with both parents. -/
theorem MoveChecked.image_eq {src dst : CStr} (h : MoveChecked m src dst) (junk : Inode) :
    fsMoveImage m src dst junk = moveIn m (parentOf m src) (parentOf m dst) src dst junk := by
  have hs := h.srcLong
  have hd := h.dstLong
  have hsn := h.srcName
  have hdn := h.dstName
  rw [fsMoveImage, if_neg (by omega), h.srcValid, if_neg (by simp), h.dstValid, if_neg (by simp), if_neg h.lengths,
    if_neg (by omega), if_neg (by omega), h.outside, if_neg (by simp)]
  simp only
  rw [if_neg h.srcParent, h.srcExists, if_neg (by simp), if_neg h.dstParent]

/-- When the destination name is taken, its block is written; else the parent's, when an inode and a
block are left for the new directory. -/
def MoveSafe (m : Mem) (src dst : CStr) : Prop :=
  MoveChecked m src dst →
    if checkFileExist m (parentOf m dst) (basename dst) = true then
      parentOf m src ≠ getFileInodeID m (parentOf m dst) (basename dst) →
        (inodeAt m (getFileInodeID m (parentOf m dst) (basename dst))).dirBlock ≠ 0
    else firstFreeInode m ≠ sizeMax → firstFree m ≠ sizeMax → (inodeAt m (parentOf m dst)).dirBlock ≠ 0

theorem blockStoreGetFreeBlocks_inode (m : Mem) : blockStoreGetFreeBlocks m inodeStore ≠ 0 := by
  have hle : bitmapTotalSet m inodeStore.fbm ≤ 256 := bitmapTotalSet_le m inodeStore.fbm
  rw [blockStoreGetFreeBlocks]
  omega

/-- What `fs_create2` does with a path that has a parent and a new name. -/
theorem fsCreate2_found (h : ImageInv m) {path : CStr} {junk : Inode} (hlong : 1 < path.length)
    (hvalid : isValidPath path = true) (hname : (basename path).length < 32) (hparent : parentOf m path ≠ sizeMax)
    (hex : checkFileExist m (parentOf m path) (basename path) = false) :
    fsCreate2 m (some path) .directory junk =
      if (inodeAt m (parentOf m path)).entryCount = 31 then (-9,m)
      else create2In m (parentOf m path) (inodeAt m (parentOf m path))
        (blockAt m (inodeAt m (parentOf m path)).dirBlock) (basename path) .directory junk := by
  have hne : ¬ (path = [] ∨ FileT.directory = .invalid) := by
    rintro (rfl | he)
    · simp at hlong
    · cases he
  rw [fsCreate2, if_neg hne, if_neg (by omega), if_neg (blockStoreGetFreeBlocks_inode m), hvalid, if_neg (by simp),
    if_neg (by omega)]
  simp only
  rw [if_neg hparent, hex, if_neg (by simp), h.readDir (parentOf_spec h hparent).1]

/-- What `fs_create2` does for `fs_move`. -/
theorem fsCreate2_eq (h : ImageInv m) {src dst : CStr} {junk : Inode} (hc : MoveChecked m src dst)
    (hex : checkFileExist m (parentOf m dst) (basename dst) = false) :
    fsCreate2 m (some dst) .directory junk =
      if (inodeAt m (parentOf m dst)).entryCount = 31 then (-9,m)
      else create2In m (parentOf m dst) (inodeAt m (parentOf m dst))
        (blockAt m (inodeAt m (parentOf m dst)).dirBlock) (basename dst) .directory junk :=
  fsCreate2_found h hc.dstLong hc.dstValid hc.dstName hc.dstParent hex

/-- `fs_move` has to make a directory, there is room for it in the parent, and of an inode and a block one
is missing: `fs_create2` takes the other and fails. -/
def MoveLeaks (m : Mem) (dst : CStr) : Prop :=
  checkFileExist m (parentOf m dst) (basename dst) = false ∧ (inodeAt m (parentOf m dst)).entryCount ≠ 31 ∧
    ¬ (firstFreeInode m = sizeMax ↔ firstFree m = sizeMax)

/-- What `fs_move` does once the checks are passed. Only the last two remove the entry of the source. -/
inductive MoveResult (m : Mem) (src dst : CStr) (junk : Inode) : ℤ → Mem → Prop where
  | stop {ret : ℤ} : ret < 0 → ¬ MoveLeaks m dst → MoveResult m src dst junk ret m
  | inodeTaken {ret : ℤ} : ret < 0 → checkFileExist m (parentOf m dst) (basename dst) = false →
      (inodeAt m (parentOf m dst)).entryCount ≠ 31 → firstFree m = sizeMax → firstFreeInode m ≠ sizeMax →
      MoveResult m src dst junk ret (setInodeUsed m (firstFreeInode m))
  | blockTaken {ret : ℤ} : ret < 0 → checkFileExist m (parentOf m dst) (basename dst) = false →
      (inodeAt m (parentOf m dst)).entryCount ≠ 31 → firstFreeInode m = sizeMax → firstFree m ≠ sizeMax →
      MoveResult m src dst junk ret (putBlock (setUsed m (firstFree m)) (firstFree m) zeros)
  | moved {k dstFileID : ℕ} : checkFileExist m (parentOf m dst) (basename dst) = true →
      dstFileID = getFileInodeID m (parentOf m dst) (basename dst) → parentOf m src ≠ dstFileID →
      (inodeAt m dstFileID).dirBlock ≠ 0 → (inodeAt m dstFileID).firstVacant < 31 →
      getFileIndexInDir (inodeAt m (parentOf m src)) (blockAt m (inodeAt m (parentOf m src)).dirBlock) (basename src) =
        some k →
      MoveResult m src dst junk 0 (LiteOSFS.moved m (parentOf m src) k (inodeAt m dstFileID).dirBlock
        (inodeAt m dstFileID).firstVacant (getFileInodeID m (parentOf m src) (basename src)) (basename src))
  | made {m₁ : Mem} {c k : ℕ} : checkFileExist m (parentOf m dst) (basename dst) = false →
      (inodeAt m (parentOf m dst)).dirBlock ≠ 0 → (inodeAt m (parentOf m dst)).entryCount ≠ 31 →
      firstFreeInode m ≠ sizeMax → firstFree m ≠ sizeMax → c = firstFreeInode m →
      m₁ = withDirectory m (parentOf m dst) c (firstFree m) (basename dst) junk → parentOf m src ≠ c →
      (inodeAt m₁ c).firstVacant < 31 →
      getFileIndexInDir (inodeAt m₁ (parentOf m src)) (blockAt m₁ (inodeAt m₁ (parentOf m src)).dirBlock)
        (basename src) = some k →
      MoveResult m src dst junk 0 (LiteOSFS.moved m₁ (parentOf m src) k (inodeAt m₁ c).dirBlock
        (inodeAt m₁ c).firstVacant (getFileInodeID m₁ (parentOf m src) (basename src)) (basename src))

/-- An entry of that name is found also by the search for names that begin with it. -/
theorem getFileIndexInDir_isSome {x : Inode} {dir : Mem} {name : CStr}
    (h : (firstEntry x (sameName dir · name)).isSome = true) : ∃ k, getFileIndexInDir x dir name = some k := by
  obtain ⟨j,hj⟩ := Option.isSome_iff_exists.mp h
  obtain ⟨hj,hlive,hname,_⟩ := firstEntry_some hj
  exact firstEntry_isSome hj hlive (strncmpEq_mono (le_max_right _ _) hname)

/-- A name that is found before a directory is made is found afterwards. -/
theorem firstEntry_withDirectory (h : ImageInv m) {parentID s c b : ℕ} {name srcName : CStr} {junk : Inode}
    (hp : parentID < 256) (hs : s < 256) (hc : c < 256) (hsc : s ≠ c) (hb : DataId b) (hbfree : used m b = false)
    (hsdir : (inodeAt m s).fileType = typeDirectory)
    (hroom : (inodeAt m parentID).entryCount ≠ 31) (hl : name.length < 32) (hn : 0 ∉ srcName) (hsl : srcName.length < 32)
    (hex : (firstEntry (inodeAt m s) (sameName (blockAt m (inodeAt m s).dirBlock) · srcName)).isSome = true) :
    (firstEntry (inodeAt (withDirectory m parentID c b name junk) s) (sameName (blockAt (withDirectory m parentID c b name junk)
      (inodeAt (withDirectory m parentID c b name junk) s).dirBlock) · srcName)).isSome = true := by
  obtain ⟨j,hj⟩ := Option.isSome_iff_exists.mp hex
  obtain ⟨hj31,hlive,hname,_⟩ := firstEntry_some hj
  have hsb := (h.record s hs).block hsdir j hj31 hlive
  obtain ⟨hsid,hsu,hsheld⟩ := h.dirBlock_dataId hs hsb
  obtain ⟨hv,hvfree,_⟩ := (inodeAt m parentID).firstVacant_spec.resolve_left
    (fun he => hroom (Inode.entryCount_full.mpr he.2))
  have hbs : b ≠ (inodeAt m s).dirBlock := by
    rintro rfl
    rw [hsu] at hbfree
    cases hbfree
  apply Option.isSome_iff_exists.mpr
  rw [inodeAt_withDirectory hc hb (h.offTable hp) hs]
  by_cases hps : parentID = s
  · subst hps
    have hvj : (inodeAt m parentID).firstVacant ≠ j := by
      intro he
      rw [he, hlive] at hvfree
      cases hvfree
    rw [if_pos rfl, Inode.markEntry_dirBlock, blockAt_withDirectory_parent]
    apply firstEntry_isSome hj31
    · rw [Inode.live_markEntry _ hj31, hlive, Bool.or_true]
    · rw [(slotEq_window hj31).sameName_eq hn hsl, (slotEq_putEntry hl hvj).sameName_eq hn hsl]
      exact hname
  · have hpbs : (inodeAt m parentID).dirBlock ≠ (inodeAt m s).dirBlock := by
      intro he
      obtain ⟨_,_,hpheld⟩ := h.dirBlock_dataId hp (by rwa [he])
      have hpl := h.sound.own.inj (⟨parentID,hp⟩,.data 0) (⟨s,hs⟩,.data 0) (by rw [hpheld, he]; exact hsb)
        (by rw [hpheld, hsheld, he])
      exact hps (congrArg (fun q : Place => q.1.val) hpl)
    rw [if_neg hps, if_neg (Ne.symm hsc), blockAt_withDirectory hp hc hsid, if_neg hpbs, if_neg hbs]
    exact ⟨j,hj⟩

theorem moveIn_result (h : ImageInv m) {src dst : CStr} {junk : Inode} (hc : MoveChecked m src dst)
    (hsafe : MoveSafe m src dst) (hsnul : 0 ∉ src) (hnul : 0 ∉ dst)
    (hr : moveIn m (parentOf m src) (parentOf m dst) src dst junk = some (ret,m')) : MoveResult m src dst junk ret m' := by
  obtain ⟨hs,hsdir⟩ := parentOf_spec h hc.srcParent
  obtain ⟨hd,hddir⟩ := parentOf_spec h hc.dstParent
  have hsafe := hsafe hc
  have hsrc := hc.srcExists
  rw [checkFileExist_eq h hs] at hsrc
  rw [moveIn] at hr
  simp only at hr
  cases hex : checkFileExist m (parentOf m dst) (basename dst) with
  | true =>
    rw [hex, if_pos rfl] at hsafe
    simp only [hex, if_true] at hr
    rcases ite_cases hr with ⟨hn,_⟩ | ⟨_,hr⟩
    · exact absurd rfl hn
    have hkept : ¬ MoveLeaks m dst := by
      rintro ⟨hne,_⟩
      rw [hex] at hne
      cases hne
    rcases ite_cases hr with ⟨_,hr⟩ | ⟨hne,hr⟩
    · cases hr
      exact MoveResult.stop (by decide) hkept
    rcases moveEntry_cases h hs (getFileInodeID_lt _ _ _) hr with ⟨rfl,rfl,_⟩ | ⟨k,rfl,hk,hv,rfl⟩
    · exact MoveResult.stop (by decide) hkept
    · exact MoveResult.moved hex rfl hne (hsafe hne) hv hk
  | false =>
    rw [hex, if_neg (by simp)] at hsafe
    simp only [hex, Bool.false_eq_true, if_false, fsCreate2_eq h hc hex] at hr
    by_cases hroom : (inodeAt m (parentOf m dst)).entryCount = 31
    · have h9 : (-9 : ℤ) ≠ 0 := by decide
      simp only [hroom, if_true] at hr
      rw [if_pos h9] at hr
      cases hr
      exact MoveResult.stop (by decide) (fun hl => hl.2.1 hroom)
    rw [if_neg hroom] at hr
    obtain ⟨r,m₁,hcr⟩ : ∃ r m₁, create2In m (parentOf m dst) (inodeAt m (parentOf m dst))
      (blockAt m (inodeAt m (parentOf m dst)).dirBlock) (basename dst) .directory junk = (r,m₁) := ⟨_,_,rfl⟩
    rw [hcr] at hr
    rcases create2In_cases h hd hcr with ⟨hn,hf,hm₁⟩ | ⟨hn,hi,hf,hm₁⟩ | ⟨rfl,hi,hf,hm₁⟩
    · rcases ite_cases hr with ⟨_,hr⟩ | ⟨hr0,_⟩
      · cases hr
        rcases hm₁ with ⟨hi,rfl⟩ | ⟨hi,rfl⟩
        · exact MoveResult.stop (by decide) (fun hl => hl.2.2 ⟨fun _ => hf,fun _ => hi⟩)
        · exact MoveResult.inodeTaken (by decide) hex hroom hf hi
      · exact absurd hn hr0
    · rcases ite_cases hr with ⟨_,hr⟩ | ⟨hr0,_⟩
      · cases hr
        subst hm₁
        exact MoveResult.blockTaken (by decide) hex hroom hi hf
      · exact absurd hn hr0
    rcases ite_cases hr with ⟨hn,_⟩ | ⟨_,hr⟩
    · exact absurd rfl hn
    have hpb := hsafe hi hf
    obtain ⟨hlt,hcfree,_⟩ := firstFreeInode_spec hi
    obtain ⟨hb,hbfree,_⟩ := firstFree_spec h.sound.sys hf
    have hsc : parentOf m src ≠ firstFreeInode m := by
      intro he
      rw [← he, (h.record _ hs).marked hsdir] at hcfree
      cases hcfree
    have hex₁ : (firstEntry (inodeAt m₁ (parentOf m src)) (sameName (blockAt m₁ (inodeAt m₁ (parentOf m src)).dirBlock) ·
        (basename src))).isSome = true := by
      rw [hm₁]
      exact firstEntry_withDirectory h hd hs hlt hsc hb hbfree hsdir hroom hc.dstName
        (basename_nulFree hsnul) hc.srcName hsrc
    have hid := getFileInodeID_withDirectory h hd hi hf junk (basename_nulFree hnul) hc.dstName hex hroom
    rw [← hm₁] at hid
    simp only [hid] at hr
    rcases ite_cases hr with ⟨he,_⟩ | ⟨_,hr⟩
    · exact absurd he hsc
    have h₁ : ImageInv m₁ := by
      rw [hm₁]
      exact (withDirectory_inv h hd hddir hpb hi hf _ junk).1
    obtain ⟨k,hk⟩ := getFileIndexInDir_isSome hex₁
    rcases moveEntry_cases h₁ hs hlt hr with ⟨_,_,hnone⟩ | ⟨k',rfl,hk',hv,rfl⟩
    · rw [hk] at hnone
      cases hnone
    · exact MoveResult.made hex hpb hroom hi hf rfl hm₁ hsc hv hk'

/-- The entry of the source is taken out, wherever the other one is written to. -/
theorem moved_inv_of_index (h : ImageInv m) {srcParentID dstFileID k : ℕ} (location srcFileID : ℕ) {name : CStr}
    (hs : srcParentID < 256) (hdir : (inodeAt m srcParentID).fileType = typeDirectory) (hd : dstFileID < 256)
    (hdb : (inodeAt m dstFileID).dirBlock ≠ 0) (hsd : srcParentID ≠ dstFileID)
    (hk : getFileIndexInDir (inodeAt m srcParentID) (blockAt m (inodeAt m srcParentID).dirBlock) name = some k) :
    ImageInv (moved m srcParentID k (inodeAt m dstFileID).dirBlock location srcFileID name) ∧
      SysSteps m (moved m srcParentID k (inodeAt m dstFileID).dirBlock location srcFileID name) := by
  obtain ⟨hk31,hlive,_⟩ := firstEntry_some hk
  exact moved_inv h k location srcFileID name hs hdir ((h.record _ hs).block hdir k hk31 hlive) hd hdb hsd

/-- In the image in which `fs_create2` made a directory, the source's parent and the new directory. -/
theorem made_srcParent (h : ImageInv m) {parentID s : ℕ} {name : CStr} {junk : Inode} {m₁ : Mem} (hp : parentID < 256)
    (hpdir : (inodeAt m parentID).fileType = typeDirectory) (hs : s < 256) (hsdir : (inodeAt m s).fileType = typeDirectory)
    (hi : firstFreeInode m ≠ sizeMax) (hf : firstFree m ≠ sizeMax)
    (hne : s ≠ firstFreeInode m) (hm₁ : m₁ = withDirectory m parentID (firstFreeInode m) (firstFree m) name junk) :
    (inodeAt m₁ s).fileType = typeDirectory := by
  rw [hm₁, inodeAt_withDirectory (firstFreeInode_spec hi).1 (firstFree_spec h.sound.sys hf).1
    (h.offTable hp) hs]
  split_ifs with he hec
  · exact hpdir
  · exact absurd hec.symm hne
  · exact hsdir

theorem made_dirBlock (h : ImageInv m) {parentID : ℕ} {name : CStr} {junk : Inode} {m₁ : Mem} (hp : parentID < 256)
    (hpdir : (inodeAt m parentID).fileType = typeDirectory)
    (hi : firstFreeInode m ≠ sizeMax) (hf : firstFree m ≠ sizeMax)
    (hm₁ : m₁ = withDirectory m parentID (firstFreeInode m) (firstFree m) name junk) :
    (inodeAt m₁ (firstFreeInode m)).dirBlock ≠ 0 := by
  obtain ⟨hlt,hfree,_⟩ := firstFreeInode_spec hi
  obtain ⟨hb,_⟩ := firstFree_spec h.sound.sys hf
  have hlt65 := hb.2
  have hpne : parentID ≠ firstFreeInode m := by
    intro he
    rw [← he, (h.record _ hp).marked hpdir] at hfree
    cases hfree
  rw [hm₁, inodeAt_withDirectory hlt hb (h.offTable hp) hlt, if_neg hpne, if_pos rfl,
    newInode_dirBlock (by omega)]
  exact hb.ne_zero

theorem MoveResult.inv {src dst : CStr} {junk : Inode} (h : ImageInv m) (hc : MoveChecked m src dst)
    (hr : MoveResult m src dst junk ret m') : ImageInv m' ∧ SysSteps m m' := by
  obtain ⟨hs,hsdir⟩ := parentOf_spec h hc.srcParent
  obtain ⟨hd,hddir⟩ := parentOf_spec h hc.dstParent
  cases hr with
  | stop => exact ⟨h,Relation.ReflTransGen.refl⟩
  | inodeTaken _ _ _ _ hi => exact ⟨h.setInodeUsed (firstFreeInode_spec hi).1,SysSteps.setInodeUsed hi⟩
  | blockTaken _ _ _ _ hf =>
    obtain ⟨hb,hbfree,_⟩ := firstFree_spec h.sound.sys hf
    have ht : tableOf (setUsed m (firstFree m)) = tableOf m := tableOf_congr (fun _ hi => inodeAt_setUsed hi)
    refine ⟨(h.setUsed _).putBlock hb (fun q _ _ _ _ => ?_),(SysSteps.setUsed hf).trans (SysSteps.putBlock hb _)⟩
    rw [ht, held_setUsed h.sound.own]
    exact h.sound.own.fresh hb.ne_zero hbfree q
  | moved _ he hne hdb _ hk =>
    subst he
    exact moved_inv_of_index h _ _ hs hsdir (getFileInodeID_lt _ _ _) hdb hne hk
  | @made m₁ c k _ hpb _ hi hf hc hm₁ hne _ hk =>
    obtain ⟨hlt,_⟩ := firstFreeInode_spec hi
    obtain ⟨hb,_⟩ := firstFree_spec h.sound.sys hf
    subst hc
    obtain ⟨h₁,hs₁⟩ := withDirectory_inv h hd hddir hpb hi hf (basename dst) junk
    rw [← hm₁] at h₁ hs₁
    have hsdir₁ := made_srcParent h hd hddir hs hsdir hi hf hne hm₁
    have hblk := made_dirBlock h hd hddir hi hf hm₁
    obtain ⟨h₂,hs₂⟩ := moved_inv_of_index h₁ (inodeAt m₁ (firstFreeInode m)).firstVacant
      (getFileInodeID m₁ (parentOf m src) (basename src)) hs hsdir₁ hlt hblk hne hk
    exact ⟨h₂,hs₁.trans hs₂⟩

end Relocate

theorem fsMove_result {s s' : F19FS} {src dst : Option CStr} {junk : Inode} {ret : ℤ} (hi : ImageInv s.image)
    (hsnul : ∀ p ∈ src, 0 ∉ p) (hnul : ∀ p ∈ dst, 0 ∉ p) (hsafe : ∀ p ∈ src, ∀ q ∈ dst, MoveSafe s.image p q)
    (h : fsMove s src dst junk = some (ret,s')) : s'.fdTable = s.fdTable ∧ (ret < 0 ∧ s'.image = s.image ∨
      ∃ p q, src = some p ∧ dst = some q ∧ MoveChecked s.image p q ∧ MoveResult s.image p q junk ret s'.image) := by
  cases src with
  | none =>
    cases h
    exact ⟨rfl,Or.inl ⟨by decide,rfl⟩⟩
  | some p =>
    cases dst with
    | none =>
      cases h
      exact ⟨rfl,Or.inl ⟨by decide,rfl⟩⟩
    | some q =>
      obtain ⟨⟨r,m'⟩,hr,he⟩ := Option.map_eq_some_iff.mp h
      cases he
      refine ⟨rfl,?_⟩
      rcases fsMoveImage_cases hr with hstop | ⟨hc,hr⟩
      · exact Or.inl hstop
      · exact Or.inr ⟨p,q,rfl,rfl,hc,moveIn_result hi hc (hsafe p rfl q rfl) (hsnul p rfl) (hnul q rfl) hr⟩

theorem fsMove_inv {s s' : F19FS} {src dst : Option CStr} {junk : Inode} {ret : ℤ} (hi : ImageInv s.image)
    (hsnul : ∀ p ∈ src, 0 ∉ p) (hnul : ∀ p ∈ dst, 0 ∉ p) (hsafe : ∀ p ∈ src, ∀ q ∈ dst, MoveSafe s.image p q)
    (h : fsMove s src dst junk = some (ret,s')) : ImageInv s'.image ∧ SysSteps s.image s'.image := by
  rcases (fsMove_result hi hsnul hnul hsafe h).2 with ⟨_,he⟩ | ⟨p,q,_,_,hc,hr⟩
  · rw [he]
    exact ⟨hi,Relation.ReflTransGen.refl⟩
  · exact hr.inv hi hc

/-- The checks that `fs_link` makes before it changes anything. -/
structure LinkChecked (m : Mem) (src dst : CStr) : Prop where
  srcLong : 1 < src.length
  dstLong : 1 < dst.length
  srcValid : isValidPath src = true
  dstValid : isValidPath dst = true
  srcName : (basename src).length < 32
  dstName : (basename dst).length < 32
  srcParent : parentOf m src ≠ sizeMax
  srcExists : checkFileExist m (parentOf m src) (basename src) = true
  dstParent : parentOf m dst ≠ sizeMax
  dstFree : checkFileExist m (parentOf m dst) (basename dst) = false
  room : (inodeAt m (parentOf m dst)).entryCount ≠ 31
  links : (inodeAt m (getFileInodeID m (parentOf m src) (basename src))).linkCount < 255

theorem linkEntry_eq {m : Mem} (h : ImageInv m) {srcFileID dstParentID : ℕ} (hs : srcFileID < 256)
    (hd : dstParentID < 256) (dstName : CStr) : linkEntry m srcFileID dstParentID dstName =
      if (inodeAt m srcFileID).linkCount ≥ 255 then (-14,m) else (0,linked m srcFileID dstParentID dstName) := by
  have hdb := h.dirBlock_le hd
  rw [linkEntry, inodeOr_eq hd, inodeOr_eq hs, blockOr_eq hdb, linked]
  simp only [blockStoreInodeWrite_table hs, blockStoreInodeWrite_table hd, blockStoreWrite_data hdb]

theorem fsLinkImage_cases {m m' : Mem} {ret : ℤ} (h : ImageInv m) {src dst : CStr}
    (hr : fsLinkImage m src dst = (ret,m')) :
    (ret < 0 ∧ m' = m) ∨
    (ret = 0 ∧ LinkChecked m src dst ∧
      m' = linked m (getFileInodeID m (parentOf m src) (basename src)) (parentOf m dst) (basename dst)) := by
  have hstop : ∀ {r : ℤ}, r < 0 → (r,m) = (ret,m') → ret < 0 ∧ m' = m := by
    intro r hneg he
    cases he
    exact ⟨hneg,rfl⟩
  rcases ite_cases hr with ⟨_,hr⟩ | ⟨h1,hr⟩
  · exact Or.inl (hstop (by decide) hr)
  rcases ite_cases hr with ⟨_,hr⟩ | ⟨h2,hr⟩
  · exact Or.inl (hstop (by decide) hr)
  rcases ite_cases hr with ⟨_,hr⟩ | ⟨h3,hr⟩
  · exact Or.inl (hstop (by decide) hr)
  rcases ite_cases hr with ⟨_,hr⟩ | ⟨h4,hr⟩
  · exact Or.inl (hstop (by decide) hr)
  rcases ite_cases hr with ⟨_,hr⟩ | ⟨h5,hr⟩
  · exact Or.inl (hstop (by decide) hr)
  rcases ite_cases hr with ⟨_,hr⟩ | ⟨h6,hr⟩
  · exact Or.inl (hstop (by decide) hr)
  rcases ite_cases hr with ⟨_,hr⟩ | ⟨h7,hr⟩
  · exact Or.inl (hstop (by decide) hr)
  rcases ite_cases hr with ⟨_,hr⟩ | ⟨h8,hr⟩
  · exact Or.inl (hstop (by decide) hr)
  rcases ite_cases hr with ⟨_,hr⟩ | ⟨h9,hr⟩
  · exact Or.inl (hstop (by decide) hr)
  rcases ite_cases hr with ⟨_,hr⟩ | ⟨h10,hr⟩
  · exact Or.inl (hstop (by decide) hr)
  obtain ⟨hs,_⟩ := parentOf_spec h h6
  obtain ⟨hd,_⟩ := parentOf_spec h h8
  have hf := getFileInodeID_lt m (parentOf m src) (basename src)
  rw [inodeOr_eq hd] at h10
  rw [linkEntry_eq h (getFileInodeID_lt _ _ _) hd] at hr
  rcases ite_cases hr with ⟨_,hr⟩ | ⟨h11,hr⟩
  · exact Or.inl (hstop (by decide) hr)
  obtain ⟨rfl,rfl⟩ := Prod.mk.inj hr
  refine Or.inr ⟨rfl,⟨by omega,by omega,?_,?_,by omega,by omega,h6,?_,h8,?_,h10,?_⟩,rfl⟩
  · simpa using h2
  · simpa using h3
  · simpa using h7
  · simpa using h9
  · simpa using h11

theorem fsLink_inv {s s' : F19FS} {src dst : Option CStr} {ret : ℤ} (hi : ImageInv s.image)
    (hsafe : ∀ p ∈ src, ∀ q ∈ dst, LinkChecked s.image p q → (inodeAt s.image (parentOf s.image q)).dirBlock ≠ 0)
    (h : fsLink s src dst = (ret,s')) : ImageInv s'.image ∧ SysSteps s.image s'.image := by
  cases src with
  | none =>
    cases h
    exact ⟨hi,Relation.ReflTransGen.refl⟩
  | some p =>
    cases dst with
    | none =>
      cases h
      exact ⟨hi,Relation.ReflTransGen.refl⟩
    | some q =>
      obtain ⟨r,m',hr⟩ : ∃ r m', fsLinkImage s.image p q = (r,m') := ⟨_,_,rfl⟩
      simp only [fsLink, hr] at h
      cases h
      rcases fsLinkImage_cases hi hr with ⟨_,rfl⟩ | ⟨_,hc,rfl⟩
      · exact ⟨hi,Relation.ReflTransGen.refl⟩
      · obtain ⟨hs,_⟩ := parentOf_spec hi hc.srcParent
        obtain ⟨hd,hdir⟩ := parentOf_spec hi hc.dstParent
        exact linked_inv hi (getFileInodeID_lt _ _ _) hd hdir (hsafe p rfl q rfl hc)

theorem fsLink_checked {s s' : F19FS} {src dst : CStr} (hi : ImageInv s.image)
    (h : some (fsLink s (some src) (some dst)) = some (0,s')) : LinkChecked s.image src dst ∧
      s'.image = linked s.image (getFileInodeID s.image (parentOf s.image src) (basename src)) (parentOf s.image dst)
        (basename dst) := by
  obtain ⟨r,m',hr⟩ : ∃ r m', fsLinkImage s.image src dst = (r,m') := ⟨_,_,rfl⟩
  simp only [fsLink, hr] at h
  cases h
  rcases fsLinkImage_cases hi hr with ⟨hneg,_⟩ | ⟨_,hc,he⟩
  · omega
  · exact ⟨hc,he⟩

end LiteOSFS
