import LiteOSFS.FileSystem.EntryMap
import LiteOSFS.FileSystem.Coverage
import LiteOSFS.Library.EntryGraph

/-! # What the calls do to the entries

Each of the operations below its checks fills one slot or empties one, and leaves all
other entries as they are.
-/
namespace LiteOSFS
open Memory CString Ownership EntryGraph

section Rewrite
variable {m m' : Mem} {d e j k : ℕ} {name : CStr} {r : Option (CStr × ℕ)}

theorem entryAt_same (hr : SameEntries (inodeAt m' e) (inodeAt m e))
    (hb : (inodeAt m e).fileType = typeDirectory → (∃ j < 31, (inodeAt m e).live j = true) →
      blockAt m' (inodeAt m e).dirBlock = blockAt m (inodeAt m e).dirBlock) (j : ℕ) : entryAt m' e j = entryAt m e j := by
  unfold entryAt
  rw [hr.fileType, hr.dirBlock]
  by_cases hj : j < 31
  · rw [hr.live j hj]
    split_ifs with hc
    · rw [hb hc.2.2.1 ⟨j,hj,hc.2.2.2⟩]
    · rfl
  · rw [if_neg (fun hc => hj hc.2.1), if_neg (fun hc => hj hc.2.1)]

theorem entryAt_ge (hd : 256 ≤ d) : entryAt m d j = none := entryAt_eq_none.mpr (fun hc => absurd hc.1 (by omega))

theorem entryAt_slot_ge (hj : 31 ≤ j) : entryAt m d j = none :=
  entryAt_eq_none.mpr (fun hc => absurd hc.2.1 (by omega))

/-- Two inodes do not share a block. -/
theorem ImageInv.dirBlock_inj (h : ImageInv m) (hd : d < 256) (he : e < 256) (hne : (inodeAt m d).dirBlock ≠ 0)
    (heq : (inodeAt m e).dirBlock = (inodeAt m d).dirBlock) : e = d := by
  obtain ⟨_,_,hdh⟩ := h.dirBlock_dataId hd hne
  obtain ⟨_,_,heh⟩ := h.dirBlock_dataId he (by rwa [heq])
  have hpl := h.sound.own.inj (⟨e,he⟩,.data 0) (⟨d,hd⟩,.data 0) (by rw [heh, heq]; exact hne) (by rw [heh, hdh, heq])
  exact congrArg (fun q : Place => q.1.val) hpl

/-- The entries of another directory, when no block in use is written but that of `d`. -/
theorem entryAt_other (h : ImageInv m) (hd : d < 256) (hne : (inodeAt m d).dirBlock ≠ 0) (he : e < 256) (hed : e ≠ d)
    (hr : SameEntries (inodeAt m' e) (inodeAt m e))
    (hblocks : ∀ b, DataId b → used m b = true → (inodeAt m d).dirBlock ≠ b → blockAt m' b = blockAt m b) (j : ℕ) :
    entryAt m' e j = entryAt m e j := by
  refine entryAt_same hr (fun hdir hex => ?_) j
  obtain ⟨j',hj',hl⟩ := hex
  obtain ⟨hid,hu,_⟩ := h.dirBlock_dataId he ((h.record e he).block hdir j' hj' hl)
  exact hblocks _ hid hu (fun heq => hed (h.dirBlock_inj hd he hne heq.symm))

/-- Slot `k` of a directory is rewritten, in its record and its block. -/
theorem entryAt_rewrite (hterm : Terminated m) (hothers : ∀ e < 256, e ≠ d → ∀ j, entryAt m' e j = entryAt m e j)
    (htype : (inodeAt m' d).fileType = (inodeAt m d).fileType)
    (hlive : ∀ j < 31, j ≠ k → (inodeAt m' d).live j = (inodeAt m d).live j)
    (hslot : ∀ j < 31, j ≠ k → SlotEq (blockAt m' (inodeAt m' d).dirBlock) (blockAt m (inodeAt m d).dirBlock) j)
    (hnew : entryAt m' d k = r) : entryAt m' = update (entryAt m) d k r := by
  funext e j
  by_cases hc : e = d ∧ j = k
  · rw [hc.1, hc.2, update_self, hnew]
  rw [update_of_ne hc]
  by_cases he : e < 256
  swap
  · rw [entryAt_ge (by omega), entryAt_ge (by omega)]
  by_cases hed : e = d
  · subst hed
    by_cases hj : j < 31
    · have hjk : j ≠ k := fun hjk => hc ⟨rfl,hjk⟩
      exact entryAt_slot htype (hlive j hj hjk) (hslot j hj hjk) (hterm e j)
    · rw [entryAt_slot_ge (by omega), entryAt_slot_ge (by omega)]
  · exact hothers e he hed j

/-- A directory's block is written, its record after it. -/
theorem entryAt_putEntry (h : ImageInv m) (hterm : Terminated m) (hd : d < 256) (hne : (inodeAt m d).dirBlock ≠ 0)
    (data : Mem) {x : Inode} (htype : x.fileType = (inodeAt m d).fileType) (hblock : x.dirBlock = (inodeAt m d).dirBlock)
    (hlive : ∀ j < 31, j ≠ k → x.live j = (inodeAt m d).live j)
    (hslot : ∀ j < 31, j ≠ k → SlotEq data (blockAt m (inodeAt m d).dirBlock) j)
    (hnew : entryAt (putInode (putBlock m (inodeAt m d).dirBlock data) d x) d k = r) :
    entryAt (putInode (putBlock m (inodeAt m d).dirBlock data) d x) = update (entryAt m) d k r := by
  have hid := (h.dirBlock_dataId hd hne).1
  have hrec : inodeAt (putInode (putBlock m (inodeAt m d).dirBlock data) d x) d = x := by
    rw [inodeAt_putInode, if_pos rfl]
  have hblk : blockAt (putInode (putBlock m (inodeAt m d).dirBlock data) d x) (inodeAt m d).dirBlock =
      window data 0 1024 := by
    rw [blockAt_putInode hd hid, blockAt_putBlock, if_pos rfl]
  refine entryAt_rewrite hterm (fun e he hed => entryAt_other h hd hne he hed ?_ (fun b hb _ hbd => ?_))
    (by rw [hrec, htype]) (fun j hj hjk => by rw [hrec, hlive j hj hjk]) (fun j hj hjk => ?_) hnew
  · rw [inodeAt_putInode, if_neg (Ne.symm hed), inodeAt_putBlock hid he]
    exact SameEntries.refl _
  · rw [blockAt_putInode hd hb, blockAt_putBlock, if_neg hbd]
  · rw [hrec, hblock, hblk]
    intro y hy
    rw [slotEq_window hj y hy, hslot j hj hjk y hy]

/-- Bytes that belong to no entry are written to the block of an inode. -/
theorem entryAt_putDirBlock (h : ImageInv m) (hterm : Terminated m) (hd : d < 256) (hne : (inodeAt m d).dirBlock ≠ 0)
    (data : Mem) (hslot : (inodeAt m d).fileType = typeDirectory → ∀ j < 31, (inodeAt m d).live j = true →
      SlotEq data (blockAt m (inodeAt m d).dirBlock) j) : entryAt (putBlock m (inodeAt m d).dirBlock data) = entryAt m := by
  have hid := (h.dirBlock_dataId hd hne).1
  funext e j
  by_cases he : e < 256
  swap
  · rw [entryAt_ge (by omega), entryAt_ge (by omega)]
  have hrec : inodeAt (putBlock m (inodeAt m d).dirBlock data) e = inodeAt m e := inodeAt_putBlock hid he
  by_cases hed : e = d
  · subst hed
    cases hold : entryAt m e j with
    | none =>
      rw [entryAt_eq_none] at hold ⊢
      rwa [hrec]
    | some r =>
      obtain ⟨a,i⟩ := r
      obtain ⟨⟨_,hj,hdir,hl⟩,_⟩ := entryAt_eq_some.mp hold
      rw [← hold]
      refine entryAt_slot (by rw [hrec]) (by rw [hrec]) ?_ (hterm e j)
      rw [hrec, blockAt_putBlock, if_pos rfl]
      intro y hy
      rw [slotEq_window hj y hy, hslot hdir j hj hl y hy]
  · refine entryAt_other h hd hne he hed (by rw [hrec]; exact SameEntries.refl _) (fun b _ _ hbd => ?_) j
    rw [blockAt_putBlock, if_neg hbd]

end Rewrite

/-- A slot with a name and a number stored in it. -/
theorem entryAt_stored {m' : Mem} {d k c : ℕ} {data : Mem} {name : CStr} (hd : d < 256) (hk : k < 31)
    (hdir : (inodeAt m' d).fileType = typeDirectory) (hlive : (inodeAt m' d).live k = true)
    (hblk : blockAt m' (inodeAt m' d).dirBlock = window data 0 1024) (hfits : FitsSlot name)
    (hname : entryName data k = name) (hc : entryInode data k = c) : entryAt m' d k = some (name,c) := by
  have hs : SlotEq (window data 0 1024) data k := slotEq_window hk
  rw [entryAt_live hd hk hdir hlive, hblk, hs.entryInode_eq, hc, (hs.entryName_eq hfits.1 hfits.2).mpr hname]

section Remove
variable {m m₁ : Mem} {i d k : ℕ}

/-- An inode that is given back has no entries before or after. -/
theorem Released.entryAt_freed (hr : Released m i m₁) (h : ImageInv m) (hi : i < 256)
    (hempty : (inodeAt m i).fileType ≠ typeRegular → isDirectoryEmpty (inodeAt m i) = true) :
    entryAt (freeInode (putInode m₁ i Inode.cleared) i) = entryAt m := by
  funext e j
  by_cases he : e < 256
  swap
  · rw [entryAt_ge (by omega), entryAt_ge (by omega)]
  by_cases hei : e = i
  · subst hei
    have hrec : inodeAt (freeInode (putInode m₁ e Inode.cleared) e) e = Inode.cleared := by
      rw [inodeAt_freeInode hi, inodeAt_putInode, if_pos rfl]
    rw [entryAt_of_file (by rw [hrec]; decide), entryAt_eq_none.mpr]
    rintro ⟨_,hj,hdir,hl⟩
    have hno := (isDirectoryEmpty_iff _).mp (hempty (by rw [hdir]; decide)) j hj
    rw [hl] at hno
    cases hno
  · refine SameInode.entryAt_eq ?_ h j
    refine h.sameInode he (hr.inodeAt_freed hi he (Ne.symm hei)) (S := fun x => ∃ n, owns m (inodeAt m i) n = x)
      (fun x hx hn => ?_) (fun n hn he' => ?_)
    · rw [blockAt_freeInode hi hx, blockAt_putInode hi hx, hr.blocks x hx (fun n he' => hn ⟨n,he'⟩)]
    · obtain ⟨l,hl⟩ := he'
      have hpl := h.sound.own.inj (⟨e,he⟩,n) (⟨i,hi⟩,l) hn hl.symm
      exact hei (congrArg (fun p : Place => p.1.val) hpl)

/-- `fs_remove` takes out the entry whose slot it found. -/
theorem entryAt_unlinked (hr : Released m i m₁) (h : ImageInv m) (hterm : Terminated m) (hi : i < 256) (h0 : i ≠ 0)
    (hempty : (inodeAt m i).fileType ≠ typeRegular → isDirectoryEmpty (inodeAt m i) = true) (hd : d < 256)
    (hdir : (inodeAt m d).fileType = typeDirectory) (hk : k < 31) (hlive : (inodeAt m d).live k = true) :
    entryAt (unlinked m₁ d i (inodeAt m d) (blockAt m (inodeAt m d).dirBlock) k) = update (entryAt m) d k none := by
  have hne := (h.record d hd).block hdir k hk hlive
  have hdi := parent_ne_target hdir hk hlive hempty
  have hat := hr.inodeAt_freed hi hd hdi.symm
  have hfreed := hr.entryAt_freed h hi hempty
  have h₂ := hr.freed_inv h hi h0
  have hterm₂ : Terminated (freeInode (putInode m₁ i Inode.cleared) i) := by
    intro e j a i' he
    rw [hfreed] at he
    exact hterm e j a i' he
  have hblk : blockAt (freeInode (putInode m₁ i Inode.cleared) i) (inodeAt m d).dirBlock =
      blockAt m (inodeAt m d).dirBlock := by
    obtain ⟨hid,_,hh⟩ := h.dirBlock_dataId hd hne
    rw [blockAt_freeInode hi hid, blockAt_putInode hi hid, hr.blocks _ hid]
    intro n hn
    have hpl := h.sound.own.inj (⟨i,hi⟩,n) (⟨d,hd⟩,.data 0) (by
      show owns m (inodeAt m i) n ≠ 0
      rw [hn]
      exact hne) (hn.trans hh.symm)
    exact hdi (congrArg (fun p : Place => p.1.val) hpl).symm
  have hput := entryAt_putEntry (k := k) (r := none) h₂ hterm₂ hd (by rwa [hat])
    (clearEntry (blockAt m (inodeAt m d).dirBlock) k) (x := (inodeAt m d).unmarkEntry k) (by rw [hat]; rfl)
    (by rw [hat]; rfl) (fun j hj hjk => by
      rw [hat, Inode.live_unmarkEntry _ hj, decide_eq_false (Ne.symm hjk), Bool.not_false, Bool.true_and])
    (fun j _ hjk => by
      rw [hat, hblk]
      exact slotEq_clearEntry (Ne.symm hjk))
    (by
      rw [entryAt_eq_none]
      rintro ⟨_,_,_,hl⟩
      rw [inodeAt_putInode, if_pos rfl, Inode.live_unmarkEntry _ hk, decide_eq_true rfl] at hl
      cases hl)
  rw [hat, hfreed] at hput
  exact hput

end Remove

section Link
variable {m : Mem} {i p : ℕ} {name : CStr}

theorem inodeAt_linked (hb : OffTable (inodeAt m p).dirBlock) {e : ℕ} (he : e < 256) : inodeAt (linked m i p name) e =
    if p = e then (inodeAt m p).markEntry (inodeAt m p).firstVacant
    else if i = e then { inodeAt m i with linkCount := (inodeAt m i).linkCount + 1 } else inodeAt m e := by
  simp only [linked]
  rw [inodeAt_putBlock_offTable hb he, inodeAt_putInode, inodeAt_putInode]
  by_cases hpe : p = e
  · rw [if_pos hpe, if_pos hpe]
  rw [if_neg hpe, if_neg hpe]
  by_cases hie : i = e
  · rw [if_pos hie, if_pos hie, if_neg (show ¬ i = p by rintro rfl; exact hpe hie)]
  · rw [if_neg hie, if_neg hie]

/-- What a search reads of a record, but for the entry bits. -/
theorem linked_keeps (hb : OffTable (inodeAt m p).dirBlock) {e : ℕ} (he : e < 256) :
    (inodeAt (linked m i p name) e).fileType = (inodeAt m e).fileType ∧
      (inodeAt (linked m i p name) e).inodeNumber = (inodeAt m e).inodeNumber ∧
      (inodeAt (linked m i p name) e).dirBlock = (inodeAt m e).dirBlock := by
  rw [inodeAt_linked hb he]
  split_ifs with h1 h2
  · subst h1
    exact ⟨Inode.markEntry_fileType _ _,Inode.markEntry_inodeNumber _ _,Inode.markEntry_dirBlock _ _⟩
  · subst h2
    exact ⟨Inode.links_fileType _ _,Inode.links_inodeNumber _ _,Inode.links_dirBlock _ _⟩
  · exact ⟨rfl,rfl,rfl⟩

theorem blockAt_linked (hi : i < 256) (hp : p < 256) {b : ℕ} (hb : OffTable b) : blockAt (linked m i p name) b =
    if (inodeAt m p).dirBlock = b then window (strncpy (setEntryInode (blockAt m (inodeAt m p).dirBlock)
      (inodeAt m p).firstVacant i) (33 * (inodeAt m p).firstVacant) name 32) 0 1024 else blockAt m b := by
  simp only [linked]
  rw [blockAt_putBlock, blockAt_putInode_offTable hp hb, blockAt_putInode_offTable hi hb]

/-- `fs_link` fills the first vacant slot. -/
theorem entryAt_linked (h : ImageInv m) (hterm : Terminated m) (hi : i < 256) (hp : p < 256)
    (hdir : (inodeAt m p).fileType = typeDirectory) (hne : (inodeAt m p).dirBlock ≠ 0)
    (hroom : (inodeAt m p).entryCount ≠ 31) (hname : FitsSlot name) : entryAt (linked m i p name) =
      update (entryAt m) p (inodeAt m p).firstVacant (some (name,i)) := by
  have hid := (h.dirBlock_dataId hp hne).1
  obtain ⟨hv,_⟩ := (inodeAt m p).firstVacant_spec.resolve_left (fun he => hroom (Inode.entryCount_full.mpr he.2))
  have hrec : inodeAt (linked m i p name) p = (inodeAt m p).markEntry (inodeAt m p).firstVacant := by
    rw [inodeAt_linked (Or.inr hid) hp, if_pos rfl]
  have hblk : blockAt (linked m i p name) (inodeAt m p).dirBlock = window (strncpy (setEntryInode
      (blockAt m (inodeAt m p).dirBlock) (inodeAt m p).firstVacant i) (33 * (inodeAt m p).firstVacant) name 32) 0 1024 := by
    rw [blockAt_linked hi hp (Or.inr hid), if_pos rfl]
  refine entryAt_rewrite hterm (fun e he hep => entryAt_other h hp hne he hep ?_ (fun b hb _ hbp => ?_))
    (by rw [hrec]; rfl) (fun j hj hjk => ?_) (fun j hj hjk => ?_) ?_
  · rw [inodeAt_linked (Or.inr hid) he, if_neg (Ne.symm hep)]
    split_ifs with hie
    · rw [hie]
      exact SameEntries.links _ _
    · exact SameEntries.refl _
  · rw [blockAt_linked hi hp (Or.inr hb), if_neg hbp]
  · rw [hrec, Inode.live_markEntry _ hj, decide_eq_false (Ne.symm hjk), Bool.false_or]
  · rw [hrec, Inode.markEntry_dirBlock, hblk]
    intro y hy
    rw [slotEq_window hj y hy, slotEq_strncpy le_rfl (Ne.symm hjk) y hy]
  · refine entryAt_stored hp hv (by rw [hrec]; exact hdir) ?_ (by rw [hrec, Inode.markEntry_dirBlock, hblk]) hname
      (read_strncpy _ hname.1 (by have := hname.2; omega) hname.2) (entryInode_strncpy le_rfl hi)
    rw [hrec, Inode.live_markEntry _ hv, decide_eq_true rfl, Bool.true_or]

end Link

section Move
variable {m : Mem} {d k : ℕ} {name : CStr}

/-- `fs_move` takes out the entry of the source; where it writes the other one stays out of use. -/
theorem entryAt_moved (h : ImageInv m) (hterm : Terminated m) {sp dstFile : ℕ} (srcFile : ℕ) (hs : sp < 256)
    (hdir : (inodeAt m sp).fileType = typeDirectory) (hk : k < 31) (hlive : (inodeAt m sp).live k = true)
    (hd : dstFile < 256) (hdb : (inodeAt m dstFile).dirBlock ≠ 0) (hsd : sp ≠ dstFile)
    (hv : (inodeAt m dstFile).firstVacant < 31) (hname : name.length < 32) :
    entryAt (moved m sp k (inodeAt m dstFile).dirBlock (inodeAt m dstFile).firstVacant srcFile name) =
      update (entryAt m) sp k none := by
  have hsb := (h.record sp hs).block hdir k hk hlive
  have hsid := (h.dirBlock_dataId hs hsb).1
  have h₁ := (putEntry_inv h hs hdir hsb (clearEntry (blockAt m (inodeAt m sp).dirBlock) k)
    (x := (inodeAt m sp).unmarkEntry k) rfl rfl rfl).1
  have hput := entryAt_putEntry (k := k) (r := none) h hterm hs hsb (clearEntry (blockAt m (inodeAt m sp).dirBlock) k)
    (x := (inodeAt m sp).unmarkEntry k) rfl rfl
    (fun j hj hjk => by
      rw [Inode.live_unmarkEntry _ hj, decide_eq_false (Ne.symm hjk), Bool.not_false, Bool.true_and])
    (fun j _ hjk => slotEq_clearEntry (Ne.symm hjk))
    (by
      rw [entryAt_eq_none]
      rintro ⟨_,_,_,hl⟩
      rw [inodeAt_putInode, if_pos rfl, Inode.live_unmarkEntry _ hk, decide_eq_true rfl] at hl
      cases hl)
  have hat : inodeAt (putInode (putBlock m (inodeAt m sp).dirBlock (clearEntry (blockAt m (inodeAt m sp).dirBlock) k)) sp
      ((inodeAt m sp).unmarkEntry k)) dstFile = inodeAt m dstFile := by
    rw [inodeAt_putInode, if_neg hsd, inodeAt_putBlock hsid hd]
  have hterm₁ : Terminated (putInode (putBlock m (inodeAt m sp).dirBlock (clearEntry (blockAt m (inodeAt m sp).dirBlock) k)) sp
      ((inodeAt m sp).unmarkEntry k)) := by
    intro e j a i he
    rw [hput] at he
    by_cases hc : e = sp ∧ j = k
    · rw [hc.1, hc.2, update_self] at he
      cases he
    · rw [update_of_ne hc] at he
      exact hterm e j a i he
  rw [← hput]
  simp only [moved]
  generalize putInode (putBlock m (inodeAt m sp).dirBlock (clearEntry (blockAt m (inodeAt m sp).dirBlock) k)) sp
    ((inodeAt m sp).unmarkEntry k) = m₁ at *
  rw [← hat] at hdb hv ⊢
  refine entryAt_putDirBlock h₁ hterm₁ hd hdb _ (fun _ j _ hl => ?_)
  refine slotEq_strncpy (by omega) ?_
  rintro rfl
  rcases (inodeAt m₁ dstFile).firstVacant_spec with ⟨he,_⟩ | ⟨_,hvac,_⟩
  · rw [he] at hv
    exact absurd hv (by decide)
  · rw [hvac] at hl
    cases hl

/-- `fs_create2` fills the first vacant slot with an empty directory. -/
theorem entryAt_withDirectory (h : ImageInv m) (hterm : Terminated m) {p : ℕ} (hp : p < 256)
    (hdir : (inodeAt m p).fileType = typeDirectory) (hpb : (inodeAt m p).dirBlock ≠ 0)
    (hif : firstFreeInode m ≠ sizeMax) (hf : firstFree m ≠ sizeMax) (hroom : (inodeAt m p).entryCount ≠ 31)
    (hname : FitsSlot name) (junk : Inode) :
    entryAt (withDirectory m p (firstFreeInode m) (firstFree m) name junk) =
      update (entryAt m) p (inodeAt m p).firstVacant (some (name,firstFreeInode m)) := by
  obtain ⟨hc,hcfree,_⟩ := firstFreeInode_spec hif
  obtain ⟨hb,hbfree,_⟩ := firstFree_spec h.sound.sys hf
  obtain ⟨hid,hidu,_⟩ := h.dirBlock_dataId hp hpb
  obtain ⟨hv,_⟩ := (inodeAt m p).firstVacant_spec.resolve_left (fun he => hroom (Inode.entryCount_full.mpr he.2))
  have hcfile := h.file_of_free hc hcfree
  generalize firstFreeInode m = c at *
  generalize firstFree m = b at *
  have hrec : inodeAt (withDirectory m p c b name junk) p = (inodeAt m p).markEntry (inodeAt m p).firstVacant := by
    rw [inodeAt_withDirectory hc hb (Or.inr hid) hp, if_pos rfl]
  have hblk : blockAt (withDirectory m p c b name junk) (inodeAt m p).dirBlock =
      window (putEntry (blockAt m (inodeAt m p).dirBlock) (inodeAt m p).firstVacant name c) 0 1024 := by
    rw [blockAt_withDirectory hp hc hid, if_pos rfl]
  have hpc : p ≠ c := by
    rintro rfl
    exact hcfile hdir
  refine entryAt_rewrite hterm (fun e he hep j => ?_) (by rw [hrec]; rfl) (fun j hj hjk => ?_) (fun j hj hjk => ?_) ?_
  · by_cases hec : c = e
    · subst hec
      have hnew : inodeAt (withDirectory m p c b name junk) c = newInode .directory junk c b := by
        rw [inodeAt_withDirectory hc hb (Or.inr hid) hc, if_neg hpc, if_pos rfl]
      rw [entryAt_of_file hcfile, entryAt_eq_none]
      rintro ⟨_,hj,_,hl⟩
      rw [hnew, newInode_live junk c b hj] at hl
      cases hl
    · refine entryAt_other h hp hpb he hep ?_ (fun x hx hu hxp => ?_) j
      · rw [inodeAt_withDirectory hc hb (Or.inr hid) he, if_neg (Ne.symm hep), if_neg hec]
        exact SameEntries.refl _
      · have hbx : b ≠ x := by
          rintro rfl
          rw [hu] at hbfree
          cases hbfree
        rw [blockAt_withDirectory hp hc hx, if_neg hxp, if_neg hbx]
  · rw [hrec, Inode.live_markEntry _ hj, decide_eq_false (Ne.symm hjk), Bool.false_or]
  · rw [hrec, Inode.markEntry_dirBlock, hblk]
    intro y hy
    rw [slotEq_window hj y hy, slotEq_putEntry hname.2 (Ne.symm hjk) y hy]
  · refine entryAt_stored hp hv (by rw [hrec]; exact hdir) ?_ (by rw [hrec, Inode.markEntry_dirBlock, hblk]) hname
      (entryName_putEntry hname.1 hname.2) (entryInode_putEntry hc)
    rw [hrec, Inode.live_markEntry _ hv, decide_eq_true rfl, Bool.true_or]

end Move

end LiteOSFS
