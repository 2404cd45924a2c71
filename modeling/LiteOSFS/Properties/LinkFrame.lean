import LiteOSFS.FileSystem.Tidy
import LiteOSFS.Properties.LinkRemove

/-! # What fs_link changes

`fs_link` fills one slot of the parent's block and raises the link count of the file.
It relies on the parent to have a block, and it writes the parent's record after the
file's, so that the count is lost when the two are one.
-/
namespace LiteOSFS
open Memory CString Ownership EntryGraph Transition

/-- The record of inode `e` after inode `i` got slot `k` of directory `p`, whose block is `b`. -/
def linkRecord (m : Mem) (i p k b e : ℕ) : Inode :=
  let x := if e = p then { (inodeAt m p).markEntry k with
      directPointer := Function.update (inodeAt m p).directPointer firstDirect (UInt16.ofNat b) }
    else inodeAt m e
  if e = i then { x with linkCount := x.linkCount + 1 } else x

/-- The link to inode `i` in slot `k` of the parent's block `b`, and nothing else. -/
structure LinkEffect (m m' : Mem) (dst : CStr) (i k b : ℕ) : Prop where
  resolves : findFile m' dst = some i
  kept : ∀ names j, Path (entryAt m) 0 names j → Path (entryAt m') 0 names j
  only : ∀ names j, Path (entryAt m') 0 names j → Path (entryAt m) 0 names j ∨
    ∃ pre post, names = pre ++ basename dst :: post ∧ Path (entryAt m) 0 pre (parentOf m dst)
  entry : entryAt m (parentOf m dst) k = none ∧
    entryAt m' = update (entryAt m) (parentOf m dst) k (some (basename dst,i))
  block : DataId b ∧ ((inodeAt m (parentOf m dst)).dirBlock = b ∨
    (inodeAt m (parentOf m dst)).dirBlock = 0 ∧ used m b = false)
  records : ∀ e < 256, inodeAt m' e = linkRecord m i (parentOf m dst) k b e
  bits : ∀ e < 256, inodeUsed m' e = inodeUsed m e
  marks : ∀ x < 65536, used m' x = (decide (b = x) || used m x)
  slots : (inodeAt m (parentOf m dst)).dirBlock = b → ∀ j < 31, j ≠ k → SlotEq (blockAt m' b) (blockAt m b) j
  blocks : ∀ x, DataId x → b ≠ x → blockAt m' x = blockAt m x

section Link
variable {m : Mem} {src dst : CStr} {i p k b : ℕ}

theorem linkRecord_dirBlock (hb : b < 65536) : (linkRecord m i p k b p).dirBlock = b := by
  have hu : (Function.update (inodeAt m p).directPointer firstDirect (UInt16.ofNat b) firstDirect).toNat = b := by
    rw [Function.update_self, UInt16.toNat_ofNat', Nat.mod_eq_of_lt hb]
  rw [linkRecord, if_pos rfl]
  by_cases hpi : p = i
  · rw [if_pos hpi, Inode.links_dirBlock]
    exact hu
  · rw [if_neg hpi]
    exact hu

theorem linkRecord_linkCount : (linkRecord m i p k b i).linkCount = (inodeAt m i).linkCount + 1 := by
  rw [linkRecord, if_pos rfl]
  by_cases hip : i = p
  · rw [if_pos hip, hip]
    rfl
  · rw [if_neg hip]

theorem LinkChecked.findFile_src {m : Mem} {src dst : CStr} (h : LinkChecked m src dst) :
    findFile m src = some (getFileInodeID m (parentOf m src) (basename src)) := by
  rw [findFile, if_neg]
  rintro (he | he)
  · exact h.srcParent he
  · rw [h.srcExists] at he
    cases he

/-- The search along the old entries ends where it did. -/
theorem parentOf_mono {m' : Mem} (hs : Searchable m) (hs' : Searchable m') (hdst : 0 ∉ dst)
    (hne : parentOf m dst ≠ sizeMax) (htype : ∀ e < 256, (inodeAt m' e).fileType = (inodeAt m e).fileType)
    (hkept : ∀ d n e, Edge (entryAt m) d n e → Edge (entryAt m') d n e) : parentOf m' dst = parentOf m dst := by
  have htok : ∀ n ∈ strtok slash (dirname dst), 0 ∉ n := 
    fun n hn h0 => dirname_nulFree hdst ((mem_strtok hn).2.2 h0)
  have hlt : parentOf m dst < 256 := hs.getParentDirInodeID_lt (by omega) hs.root htok hne
  obtain ⟨hp,hdir⟩ := (hs.getParentDirInodeID_eq (by omega) hs.root htok hlt).mp rfl
  exact (hs'.getParentDirInodeID_eq (by omega) hs'.root htok hlt).mpr ⟨hp.mono hkept,by rw [htype _ hlt]; exact hdir⟩

/-- A link below a directory with a block, to an inode other than that directory's. -/
theorem linkEffect (h : TidyImage m) (hdst : 0 ∉ dst) (hc : LinkChecked m src dst) (hsrc : findFile m src = some i)
    (hb : (inodeAt m (parentOf m dst)).dirBlock ≠ 0) (hne : i ≠ parentOf m dst) :
    LinkEffect m (linked m i (parentOf m dst) (basename dst)) dst i (inodeAt m (parentOf m dst)).firstVacant
      (inodeAt m (parentOf m dst)).dirBlock := by
  have hi := h.inv
  obtain ⟨hp,hdir⟩ := parentOf_spec hi hc.dstParent
  have hilt := (findFile_eq hsrc).2
  obtain ⟨hid,hused,_⟩ := hi.dirBlock_dataId hp hb
  have hname : FitsSlot (basename dst) := ⟨basename_nulFree hdst,hc.dstName⟩
  have hvac := entryAt_firstVacant hc.room
  have hno := no_edge_of_absent hi hp hname.1 hc.dstFree
  have hmap := entryAt_linked hi h.terminated hilt hp hdir hb hc.room hname
  have hinv : ImageInv (linked m i (parentOf m dst) (basename dst)) := (linked_inv hi hilt hp hdir hb).1
  have hsteps : EntrySteps (entryAt m) (entryAt (linked m i (parentOf m dst) (basename dst))) := by
    rw [hmap]
    exact EntrySteps.fill EntrySteps.refl hname hvac hno
  have hs' := hinv.searchable (hsteps.distinct h.distinct)
  have hkept : ∀ d n e, Edge (entryAt m) d n e → Edge (entryAt (linked m i (parentOf m dst) (basename dst))) d n e := by
    intro d n e he
    rw [hmap]
    exact (edge_update_some hvac).mpr (Or.inr he)
  have hnew : Edge (entryAt (linked m i (parentOf m dst) (basename dst))) (parentOf m dst) (basename dst) i := by
    rw [hmap]
    exact (edge_update_some hvac).mpr (Or.inl ⟨rfl,rfl,rfl⟩)
  have hparent := parentOf_mono h.searchable hs' hdst hc.dstParent
    (fun e he => (linked_keeps (Or.inr hid) he).1) hkept
  refine ⟨?_,fun names j hp => hp.mono hkept,fun names j hp => ?_,⟨hvac,hmap⟩,⟨hid,Or.inl rfl⟩,fun e he => ?_,
    fun e he => ?_,fun x hx => ?_,fun _ j hj hjk => ?_,fun x hx hbx => ?_⟩
  · have hdir' := (edge_directory hnew).2
    rw [findFile, hparent, hs'.getFileInodeID_of_edge hname.1 hnew, if_neg]
    rintro (he | he)
    · exact hc.dstParent he
    · rw [(hs'.checkFileExist_iff hp hdir' hname.1).mpr ⟨i,hnew⟩] at he
      cases he
  · rw [hmap] at hp
    rcases path_update_some hvac hp with hold | ⟨pre,post,he,hpre,_⟩
    · exact Or.inl hold
    · exact Or.inr ⟨pre,post,he,hpre⟩
  · rw [inodeAt_linked (Or.inr hid) he, linkRecord]
    by_cases hep : e = parentOf m dst
    · subst hep
      rw [if_pos rfl, if_pos rfl, if_neg (Ne.symm hne), Inode.dirBlock, UInt16.ofNat_toNat, Function.update_eq_self]
      rfl
    · rw [if_neg (Ne.symm hep), if_neg hep]
      by_cases hei : e = i
      · rw [if_pos hei.symm, if_pos hei, hei]
      · rw [if_neg (Ne.symm hei), if_neg hei]
  · rw [linked, inodeUsed_putBlock hid he, inodeUsed_putInode he, inodeUsed_putInode he]
  · rw [linked, used_putBlock hid hx, used_putInode hp hx, used_putInode hilt hx]
    by_cases hbx : (inodeAt m (parentOf m dst)).dirBlock = x
    · rw [decide_eq_true hbx, Bool.true_or, ← hbx, hused]
    · rw [decide_eq_false hbx, Bool.false_or]
  · rw [blockAt_linked hilt hp (Or.inr hid), if_pos rfl]
    intro y hy
    rw [slotEq_window hj y hy, slotEq_strncpy le_rfl (Ne.symm hjk) y hy]
  · rw [blockAt_linked hilt hp (Or.inr hx), if_neg hbx]

/-- The link has that effect in no other case: the parent gets no block, and its own link count is not raised. -/
theorem LinkEffect.condition (hi : ImageInv m) (hc : LinkChecked m src dst)
    (h : LinkEffect m (linked m i (parentOf m dst) (basename dst)) dst i k b) :
    (inodeAt m (parentOf m dst)).dirBlock ≠ 0 ∧ i ≠ parentOf m dst := by
  obtain ⟨hp,hdir⟩ := parentOf_spec hi hc.dstParent
  have hrec : inodeAt (linked m i (parentOf m dst) (basename dst)) (parentOf m dst) =
      (inodeAt m (parentOf m dst)).markEntry (inodeAt m (parentOf m dst)).firstVacant := by
    rw [inodeAt_linked (hi.offTable hp) hp, if_pos rfl]
  have hr := h.records _ hp
  rw [hrec] at hr
  obtain ⟨hlo,hhi⟩ := h.block.1
  constructor
  · intro h0
    have hb := congrArg Inode.dirBlock hr
    rw [linkRecord_dirBlock (by omega), Inode.markEntry_dirBlock] at hb
    omega
  · intro he
    have hl := congrArg Inode.linkCount hr
    rw [← he, linkRecord_linkCount] at hl
    have hone : (inodeAt m i).linkCount = (inodeAt m i).linkCount + 1 := hl
    have hnat := congrArg UInt64.toNat hone
    have hlt := UInt64.toNat_lt (inodeAt m i).linkCount
    have h1 : (1 : UInt64).toNat = 1 := rfl
    rw [UInt64.toNat_add, h1] at hnat
    omega

end Link

/-- A successful `fs_link` has the effect of one new entry exactly when the parent of the new name has a block and is
not the inode that is linked. -/
theorem link_frame {s s' : F19FS} {src dst : PathArg} (h : TidyReachable s)
    (hl : call s (.link (some src) (some dst)) = some (0,s')) :
    (∃ i k b, findFile s.image src.chars = some i ∧ LinkEffect s.image s'.image dst.chars i k b) ↔
      (s.inode (parentOf s.image dst.chars)).dirBlock ≠ 0 ∧
        findFile s.image src.chars ≠ some (parentOf s.image dst.chars) := by
  obtain ⟨hc,hm⟩ := fsLink_checked h.tidy.inv hl
  have hsrc := hc.findFile_src
  generalize getFileInodeID s.image (parentOf s.image src.chars) (basename src.chars) = i at hm hsrc
  rw [hm]
  constructor
  · rintro ⟨j,k,b,hj,he⟩
    obtain rfl : i = j := Option.some.inj (hsrc.symm.trans hj)
    obtain ⟨hb,hne⟩ := he.condition h.tidy.inv hc
    exact ⟨hb,fun heq => hne (Option.some.inj (hsrc.symm.trans heq))⟩
  · rintro ⟨hb,hne⟩
    refine ⟨i,_,_,hsrc,linkEffect h.tidy dst.nulFree hc hsrc hb (fun he => hne ?_)⟩
    rw [hsrc, he]

theorem link_frame_file : ∃ s s', run step fsFormat [.create (some nameA) .regular] = some s ∧
    call s (.link (some nameA) (some nameB)) = some (0,s') ∧
    ∃ i k b, findFile s.image nameA.chars = some i ∧ LinkEffect s.image s'.image nameB.chars i k b := by
  have hrun : ((run (checked plainTidy step) fsFormat [.create (some nameA) .regular]).bind fun s =>
      (call s (.link (some nameA) (some nameB))).map fun r => decide (r.1 = 0) &&
        decide ((s.inode (parentOf s.image nameB.chars)).dirBlock ≠ 0) &&
        decide (findFile s.image nameA.chars ≠ some (parentOf s.image nameB.chars))) = some true := by
    decide +kernel
  obtain ⟨s,hs,hl⟩ := Option.bind_eq_some_iff.mp hrun
  obtain ⟨⟨ret,s'⟩,hl,hr⟩ := Option.map_eq_some_iff.mp hl
  simp only [Bool.and_eq_true, decide_eq_true_eq] at hr
  obtain ⟨⟨rfl,hb⟩,hne⟩ := hr
  exact ⟨s,s',run_of_checked hs,hl,(link_frame (tidyReachable_of_plain hs) hl).mpr ⟨hb,hne⟩⟩

/-- A directory without entries and a name in it. -/
def nameD : PathArg := ⟨ofChars ['/','d'],by decide⟩
def nameDX : PathArg := ⟨ofChars ['/','d','/','x'],by decide⟩

/-- The first link in a directory goes to block 0. -/
theorem link_frame_fails : ¬ ∀ s s' (src dst : PathArg), Reach step (fun _ _ => True) fsFormat s →
    call s (.link (some src) (some dst)) = some (0,s') →
    ∃ i k b, findFile s.image src.chars = some i ∧ LinkEffect s.image s'.image dst.chars i k b := by
  intro hall
  have hrun : ((run (checked plainTidy step) fsFormat [.create (some nameA) .regular,.create (some nameD) .directory]).bind
      fun s => (call s (.link (some nameA) (some nameDX))).map fun r => decide (r.1 = 0) &&
        decide ((s.inode (parentOf s.image nameDX.chars)).dirBlock = 0)) = some true := by
    decide +kernel
  obtain ⟨s,hs,hl⟩ := Option.bind_eq_some_iff.mp hrun
  obtain ⟨⟨ret,s'⟩,hl,hr⟩ := Option.map_eq_some_iff.mp hl
  simp only [Bool.and_eq_true, decide_eq_true_eq] at hr
  obtain ⟨rfl,hb⟩ := hr
  have hi := (tidyReachable_of_plain hs).tidy.inv
  obtain ⟨hc,hm⟩ := fsLink_checked hi hl
  obtain ⟨i,k,b,hsrc,he⟩ := hall s s' nameA nameDX (reach_of_run (run_of_checked hs)) hl
  rw [hm, (findFile_eq hsrc).1] at he
  exact (he.condition hi hc).1 hb

end LiteOSFS
