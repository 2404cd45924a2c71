import LiteOSFS.Properties.SameMoves
import LiteOSFS.Properties.DataTraffic
import LiteOSFS.Properties.Opening

/-! # File systems that look the same

Beside the names there are the open descriptors and the sizes of the inodes in use. The calls
that look at directories keep the descriptors, and what they do to the sizes shows in the
marks of the inodes.
-/
namespace LiteOSFS
open Memory CString Ownership EntryGraph Transition

/-- The same slots are open, with the same descriptors in them. -/
structure SameTable (s t : F19FS) : Prop where
  isOpen : ∀ k < 256, s.isOpen k = t.isOpen k
  descriptor : ∀ k < 256, s.isOpen k = true → s.descriptor k = t.descriptor k

def SameSizes (m n : Mem) : Prop := ∀ i < 256, inodeUsed m i = true → (inodeAt m i).fileSize = (inodeAt n i).fileSize

structure SameView (s t : F19FS) : Prop where
  names : Alike s.image t.image
  table : SameTable s t
  sizes : SameSizes s.image t.image

/-- An inode that stays in use has the size that it had, one that comes into use has size `fresh`. -/
def SizesStay (m m' : Mem) (fresh : UInt64) : Prop := ∀ i < 256, inodeUsed m' i = true →
  (inodeAt m' i).fileSize = if inodeUsed m i = true then (inodeAt m i).fileSize else fresh

/-- The size of an inode that comes into use. -/
def Call.fresh : Call → UInt64
  | .move _ _ _ => 1024
  | _ => 0

/-- The calls that look at directories have the blocks that they need. -/
def Call.Ready (m : Mem) : Call → Prop
  | .create path _ => CreateReady m path
  | .remove path => ∀ p ∈ path, RemoveSafe m p.chars
  | .move src dst _ => MoveReady m src dst
  | .link src dst => ∀ p ∈ src, ∀ q ∈ dst, LinkSafe m p.chars q.chars
  | _ => True

section Sizes
variable {s s' : F19FS} {m m' m₁ : Mem} {d i k f c b : ℕ} {name : CStr} {fresh : UInt64} {ret : ℤ}

theorem SizesStay.refl (m : Mem) (fresh : UInt64) : SizesStay m m fresh := fun _ _ hu => (if_pos hu).symm

theorem SizesStay.of_sizes (hu : ∀ i < 256, inodeUsed m' i = inodeUsed m i)
    (hs : ∀ i < 256, (inodeAt m' i).fileSize = (inodeAt m i).fileSize) : SizesStay m m' fresh := by
  intro i hi h
  rw [hu i hi] at h
  rw [hs i hi, if_pos h]

theorem SizesStay.trans (h : SizesStay m m₁ fresh) (h' : SizesStay m₁ m' fresh)
    (hu : ∀ i < 256, inodeUsed m' i = inodeUsed m₁ i) : SizesStay m m' fresh := by
  intro i hi hm
  have h₁ : inodeUsed m₁ i = true := (hu i hi) ▸ hm
  rw [h' i hi hm, if_pos h₁, h i hi h₁]

theorem SizesStay.links (links : UInt64) :
    SizesStay m (putInode m i { inodeAt m i with linkCount := links }) fresh := by
  refine SizesStay.of_sizes (fun j hj => inodeUsed_putInode hj) (fun j hj => ?_)
  rw [inodeAt_putInode]
  split_ifs with hij
  · rw [hij]
  · rfl

theorem Created.sizes {type : FileT} (h : Created m d name type m' k b c) : SizesStay m m' 0 := by
  intro i hi hu
  rw [h.bits i hi] at hu
  by_cases hd : d = i
  · subst hd
    rw [h.parent]
    split_ifs with hud
    · rfl
    · rw [Bool.eq_false_iff.mpr hud, Bool.or_false, decide_eq_true_eq] at hu
      have hc := h.child
      rw [hu, h.parent] at hc
      have hsize : ((inodeAt m d).withEntry k b).fileSize = (childInode type c).fileSize := by rw [hc, hu]
      exact hsize
  · by_cases hc : c = i
    · subst hc
      rw [h.child, if_neg (by rw [h.inodeFree]; decide)]
      rfl
    · rw [decide_eq_false hc, Bool.false_or] at hu
      rw [h.others i hi hd hc, if_pos hu]

theorem Released.sizes (hr : Released m f m₁) (h : ImageInv m) (hf : f < 256) (hd : d < 256)
    (hdb : (inodeAt m d).dirBlock ≠ 0) :
    SizesStay m (unlinked m₁ d f (inodeAt m d) (blockAt m (inodeAt m d).dirBlock) k) fresh := by
  have hdid := (h.dirBlock_dataId hd hdb).1
  intro i hi hu
  rw [hr.inodeUsed_unlinked hdid hi, Bool.and_eq_true, Bool.not_eq_true', decide_eq_false_iff_not] at hu
  rw [hr.inodeAt_unlinked hf hdid hi, if_neg hu.1, if_pos hu.2]
  split_ifs with hdi
  · rw [← hdi]
    rfl
  · rfl

theorem sizes_linked (h : ImageInv m) (hd : d < 256) (hdb : (inodeAt m d).dirBlock ≠ 0) :
    SizesStay m (linked m i d name) fresh := by
  have hdid := (h.dirBlock_dataId hd hdb).1
  refine SizesStay.of_sizes (fun j hj => inodeUsed_linked hdid hj) (fun j hj => ?_)
  rw [inodeAt_linked (Or.inr hdid) hj]
  split_ifs with hdj hij
  · rw [← hdj]
    rfl
  · rw [hij]
  · rfl

theorem sizes_moved {t v : ℕ} (h : ImageInv m) (hd : d < 256) (hdir : (inodeAt m d).fileType = typeDirectory)
    (hk : k < 31) (hlive : (inodeAt m d).live k = true) (ht : t < 256) (hdb : (inodeAt m t).dirBlock ≠ 0) :
    SizesStay m (moved m d k (inodeAt m t).dirBlock v f name) fresh ∧
      ∀ j < 256, inodeUsed (moved m d k (inodeAt m t).dirBlock v f name) j = inodeUsed m j := by
  have hdid := (h.dirBlock_dataId hd ((h.record d hd).block hdir k hk hlive)).1
  have htid := (h.dirBlock_dataId ht hdb).1
  have hu : ∀ j < 256, inodeUsed (moved m d k (inodeAt m t).dirBlock v f name) j = inodeUsed m j :=
    fun j hj => inodeUsed_moved hdid htid v hj
  refine ⟨SizesStay.of_sizes hu (fun j hj => ?_),hu⟩
  rw [inodeAt_moved hdid htid v hj]
  split_ifs with hdj
  · rw [← hdj]
    rfl
  · rfl

theorem sizes_withDirectory {junk : Inode} (h : ImageInv m) (hd : d < 256) (hdb : (inodeAt m d).dirBlock ≠ 0)
    (hdu : inodeUsed m d = true) (hif : firstFreeInode m ≠ sizeMax) (hf : firstFree m ≠ sizeMax) :
    SizesStay m (withDirectory m d (firstFreeInode m) (firstFree m) name junk) 1024 := by
  obtain ⟨hlt,hfree,_⟩ := firstFreeInode_spec hif
  have hb := (firstFree_spec h.sound.sys hf).1
  intro i hi hu
  rw [inodeUsed_withDirectory hb (h.dirBlock_dataId hd hdb).1 hi] at hu
  rw [inodeAt_withDirectory hlt hb (h.offTable hd) hi]
  split_ifs with hdi hui hci hui' hui'
  · rw [← hdi]
    rfl
  · rw [hdi] at hdu
    exact absurd hdu hui
  · rw [hci, hui'] at hfree
    cases hfree
  · rfl
  · rfl
  · rw [decide_eq_false hci, Bool.false_or] at hu
    exact absurd hu hui'

theorem MoveResult.sizes {src dst : CStr} {junk : Inode} (hi : ImageInv m) (hchk : MoveChecked m src dst)
    (hserved : MoveServed m src dst) (hr : MoveResult m src dst junk ret m') : SizesStay m m' 1024 := by
  obtain ⟨hs,hsdir⟩ := parentOf_spec hi hchk.srcParent
  obtain ⟨hd,hddir⟩ := parentOf_spec hi hchk.dstParent
  cases hr with
  | stop => exact SizesStay.refl m _
  | inodeTaken _ hex hroom hfull => exact absurd hfull (hserved hchk hex hroom)
  | blockTaken _ _ _ _ hf =>
    obtain ⟨hb,_⟩ := firstFree_spec hi.sound.sys hf
    refine SizesStay.of_sizes (fun j hj => ?_) (fun j hj => ?_)
    · rw [inodeUsed_putBlock hb hj, inodeUsed_setUsed hj]
    · rw [inodeAt_putBlock hb hj, inodeAt_setUsed hj]
  | moved _ he _ hdb _ hk =>
    subst he
    obtain ⟨hk31,hlive,_⟩ := firstEntry_some hk
    exact (sizes_moved hi hs hsdir hk31 hlive (getFileInodeID_lt _ _ _) hdb).1
  | @made m₁ c k hex hpb hroom hif hf hcid hm₁ hne hv hk =>
    subst hcid
    have hi₁ : ImageInv m₁ := by
      rw [hm₁]
      exact (withDirectory_inv hi hd hddir hpb hif hf (basename dst) junk).1
    have hmade : SizesStay m m₁ 1024 := by
      rw [hm₁]
      exact sizes_withDirectory hi hd hpb ((hi.record _ hd).marked hddir) hif hf
    obtain ⟨hk31,hlive,_⟩ := firstEntry_some hk
    have hsdir₁ := made_srcParent hi hd hddir hs hsdir hif hf hne hm₁
    obtain ⟨hsize,hu⟩ := sizes_moved hi₁ hs hsdir₁ hk31 hlive (firstFreeInode_spec hif).1
      (made_dirBlock hi hd hddir hif hf hm₁)
    exact hmade.trans hsize hu

/-- The calls that look at directories keep the descriptors, and the sizes of the inodes in use. -/
theorem nameCall_sizes {c : Call} (hi : ImageInv s.image) (hd : c.isData = false) (hr : c.Ready s.image)
    (h : call s c = some (ret,s')) :
    s'.fdTable = s.fdTable ∧ SizesStay s.image s'.image c.fresh := by
  have hsame : s'.image = s.image → SizesStay s.image s'.image c.fresh := by
    intro he
    rw [he]
    exact SizesStay.refl _ _
  cases c with
  | create path type =>
    obtain ⟨ht,heff⟩ := fsCreate_effect hi h
    refine ⟨ht,?_⟩
    rcases heff with ⟨_,he⟩ | ⟨_,_,_,_,_,_,_,⟨_,hb⟩ | ⟨_,k,b,c,hcr⟩⟩
    · exact hsame he
    · refine SizesStay.of_sizes (fun j hj => ?_) (fun j hj => ?_)
      · rw [hb.image, inodeUsed_setUsed hj]
      · rw [hb.image, inodeAt_setUsed hj]
    · exact hcr.sizes
  | remove path =>
    rcases fsRemove_cases h with ⟨_,rfl⟩ | ⟨p,hp,hpar,hid,ht,hrem,htab⟩
    · exact ⟨rfl,SizesStay.refl _ _⟩
    refine ⟨htab,?_⟩
    obtain ⟨a,ha,rfl⟩ := mem_pathOf hp
    obtain ⟨hd',hdir⟩ := parentOf_spec hi hpar
    have hf := getFileInodeID_lt s.image (parentOf s.image a.chars) (basename a.chars)
    rcases removeIn_cases hi hd' hid (hr a ha _ ht) hrem with ⟨_,he⟩ | ⟨_,_,_,he⟩ | ⟨m₁,k,_,_,_,hrel,hk,he⟩
    · exact hsame he
    · rw [he]
      exact SizesStay.links _
    · obtain ⟨hk31,hlive,_⟩ := firstEntry_some hk
      rw [he]
      exact hrel.sizes hi hf hd' ((hi.record _ hd').block hdir k hk31 hlive)
  | move src dst junk =>
    have hms : ∀ p ∈ pathOf src, ∀ q ∈ pathOf dst, MoveSafe s.image p q := by
      intro p hp q hq
      obtain ⟨a,ha,rfl⟩ := mem_pathOf hp
      obtain ⟨b,hb,rfl⟩ := mem_pathOf hq
      exact (hr a ha b hb).1
    obtain ⟨ht,hmove⟩ := fsMove_result hi (nulFree_pathOf src) (nulFree_pathOf dst) hms h
    refine ⟨ht,?_⟩
    rcases hmove with ⟨_,he⟩ | ⟨p,q,hp,hq,hchk,hmove⟩
    · exact hsame he
    · obtain ⟨a,ha,rfl⟩ := mem_pathOf hp
      obtain ⟨b,hb,rfl⟩ := mem_pathOf hq
      exact hmove.sizes hi hchk (hr a ha b hb).2
  | link src dst =>
    have h : fsLink s (pathOf src) (pathOf dst) = (ret,s') := Option.some.inj h
    refine ⟨fsLink_table h,?_⟩
    cases src with
    | none =>
      cases h
      exact SizesStay.refl _ _
    | some p =>
      cases dst with
      | none =>
        cases h
        exact SizesStay.refl _ _
      | some q =>
        obtain ⟨r,m',hlink⟩ : ∃ r m', fsLinkImage s.image p.chars q.chars = (r,m') := ⟨_,_,rfl⟩
        simp only [pathOf, Option.map_some, fsLink, hlink] at h
        cases h
        rcases fsLinkImage_cases hi hlink with ⟨_,rfl⟩ | ⟨_,hchk,rfl⟩
        · exact SizesStay.refl _ _
        · obtain ⟨hd',_⟩ := parentOf_spec hi hchk.dstParent
          exact sizes_linked hi hd' (hr p rfl q rfl hchk)
  | openFile | close | read | write | seek | remount => cases hd

end Sizes

section View
variable {s s' t t' : F19FS} {m m' n n' : Mem} {i : ℕ} {fd : ℤ} {fresh : UInt64} {c : Call} {path : Option PathArg}

theorem Alike.used_eq (h : Alike m n) (hi : i < 256) : inodeUsed m i = inodeUsed n i := by
  rw [← record_used hi, ← record_used hi, h.names]

theorem SameSizes.after (hs : SameSizes m n) (h : Alike m n) (hm : SizesStay m m' fresh) (hn : SizesStay n n' fresh)
    (h' : Alike m' n') : SameSizes m' n' := by
  intro i hi hu
  rw [hm i hi hu, hn i hi (h'.used_eq hi ▸ hu), h.used_eq hi]
  split_ifs with hun
  · exact hs i hi (h.used_eq hi ▸ hun)
  · rfl

theorem SameTable.of_table (h : SameTable s t) (hs : s'.fdTable = s.fdTable) (ht : t'.fdTable = t.fdTable) :
    SameTable s' t' := by
  obtain ⟨m,a⟩ := s'
  obtain ⟨n,b⟩ := t'
  cases hs
  cases ht
  exact ⟨h.isOpen,h.descriptor⟩

theorem SameTable.opened_iff (h : SameTable s t) : s.Opened fd ↔ t.Opened fd := by
  refine and_congr_right (fun hlo => and_congr_right (fun hhi => ?_))
  rw [h.isOpen fd.toNat (by omega)]

theorem SameTable.descriptor_eq (h : SameTable s t) (ho : s.Opened fd) :
    s.descriptor fd.toNat = t.descriptor fd.toNat := h.descriptor _ ho.lt ho.2.2

theorem SameTable.fileOf_eq (h : SameTable s t) (ho : s.Opened fd) : s.fileOf fd = t.fileOf fd :=
  Fin.ext (congrArg (fun d : FileDescriptor => d.inodeNum.toNat) (h.descriptor_eq ho))

theorem SameTable.put (h : SameTable s t) {k : ℕ} (hk : k < 256) (d : FileDescriptor) (m n : Mem) :
    SameTable (F19FS.mk m (putDescriptor s.fdTable k d)) (F19FS.mk n (putDescriptor t.fdTable k d)) := by
  refine ⟨fun j hj => ?_,fun j hj ho => ?_⟩
  · rw [isOpen_putDescriptor m hk, isOpen_putDescriptor n hk]
    exact h.isOpen j hj
  · rw [isOpen_putDescriptor m hk] at ho
    rw [descriptor_putDescriptor m, descriptor_putDescriptor n]
    split_ifs
    · rfl
    · exact h.descriptor j hj ho

/-- The slot that `fs_open` takes. -/
theorem SameTable.take (h : SameTable s t) {k : ℕ} (hk : k < 256) (d : FileDescriptor) (m n : Mem) :
    SameTable (F19FS.mk m (putDescriptor (setOpen s.fdTable k) k d)) (F19FS.mk n (putDescriptor (setOpen t.fdTable k) k d)) := by
  refine ⟨fun j hj => ?_,fun j hj ho => ?_⟩
  · rw [isOpen_putDescriptor m hk, isOpen_putDescriptor n hk, isOpen_setOpen, isOpen_setOpen]
    exact congrArg _ (h.isOpen j hj)
  · rw [isOpen_putDescriptor m hk, isOpen_setOpen] at ho
    rw [descriptor_putDescriptor m, descriptor_putDescriptor n]
    split_ifs with hkj
    · rfl
    · rw [decide_eq_false hkj, Bool.false_or] at ho
      rw [descriptor_setOpen m hj, descriptor_setOpen n hj]
      exact h.descriptor j hj ho

theorem SameTable.clear (h : SameTable s t) (k : ℕ) (m n : Mem) :
    SameTable (F19FS.mk m (clearOpen s.fdTable k)) (F19FS.mk n (clearOpen t.fdTable k)) := by
  refine ⟨fun j hj => ?_,fun j hj ho => ?_⟩
  · rw [isOpen_clearOpen, isOpen_clearOpen]
    exact congrArg _ (h.isOpen j hj)
  · rw [isOpen_clearOpen, Bool.and_eq_true] at ho
    rw [descriptor_clearOpen m hj, descriptor_clearOpen n hj]
    exact h.descriptor j hj ho.2

/-- The calls that change the descriptors only. -/
theorem SameView.of_table (h : SameView s t) (hs : s'.image = s.image) (ht : t'.image = t.image)
    (htab : SameTable s' t') : SameView s' t' := by
  obtain ⟨m,a⟩ := s'
  obtain ⟨n,b⟩ := t'
  cases hs
  cases ht
  exact ⟨h.names,htab,h.sizes⟩

theorem tidy_of_ready (hd : c.isData = false) (hr : c.Ready s.image) : Tidy s c := by
  cases c with
  | create path type => exact ⟨trivial,fun p hp => (hr p hp).1⟩
  | remove path => exact ⟨hr,trivial⟩
  | move src dst junk => exact ⟨fun p hp q hq => (hr p hp q hq).1,trivial⟩
  | link src dst => exact ⟨hr,trivial⟩
  | openFile | close | read | write | seek | remount => cases hd

theorem nameCall_same (h : Alike s.image t.image) (hd : c.isData = false) (hs : c.Ready s.image)
    (ht : c.Ready t.image) : Option.Rel SameReturn (call s c) (call t c) := by
  cases c with
  | create path type => exact fsCreate_same h hs ht
  | remove path => exact fsRemove_same h hs ht
  | move src dst junk => exact fsMove_same h hs ht junk
  | link src dst => exact Option.Rel.some (fsLink_same h hs ht)
  | openFile | close | read | write | seek | remount => cases hd

/-- The calls that look at directories return the same, and what is left looks the same. -/
theorem SameView.nameCall (h : SameView s t) (hd : c.isData = false) (hs : c.Ready s.image) (ht : c.Ready t.image) :
    Option.Rel (Matched SameView) (call s c) (call t c) := by
  refine rel_imp (nameCall_same h.names hd hs ht) (fun r hr r' hr' hm => ⟨hm.1,?_⟩)
  have hi := h.names.tidy.inv
  have hi' := h.names.tidy'.inv
  obtain ⟨htab,hsize⟩ := nameCall_sizes hi hd hs hr
  obtain ⟨htab',hsize'⟩ := nameCall_sizes hi' hd ht hr'
  have ha : Alike r.2.image r'.2.image := ⟨hm.2,tidy_after h.names.tidy (tidy_of_ready hd hs) r hr,
    tidy_after h.names.tidy' (tidy_of_ready hd ht) r' hr'⟩
  exact ⟨ha,h.table.of_table htab htab',h.sizes.after h.names hsize hsize' ha⟩

/-- What the path leads to is no directory. -/
def OpensFile (m : Mem) (path : Option PathArg) : Prop := ∀ p ∈ path, ∀ tokens i, splitPath p.chars = some (some tokens) →
  resolve m tokens = some i → (inodeAt m i).fileType ≠ typeDirectory

theorem fsOpen_resolve {p : CStr} {tokens : List CStr} (hne : p ≠ []) (hsp : splitPath p = some (some tokens))
    (hval : tokens.all isValidFileName = true) : fsOpen s (some p) = some (openFound s (resolve s.image tokens)) := by
  simp only [fsOpen, if_neg hne, hsp, hval, Bool.not_true, Bool.false_eq_true, if_false, resolve,
    blockStoreInodeRead_table (walk_lt s.image tokens), Option.getD_some]
  by_cases hind : (walk s.image tokens).indicator = tokens.length
  · simp only [if_pos hind, openFound]
    by_cases hfd : (blockStoreSubAllocate s.fdTable fdStore).1 < 256
    · by_cases hdir : (inodeAt s.image (walk s.image tokens).inodeID).fileType = typeDirectory
      · rw [if_pos hfd, if_pos hdir, if_neg (fun hc => hc.2 hdir)]
      · rw [if_pos hfd, if_neg hdir, if_pos ⟨hfd,hdir⟩]
    · rw [if_neg hfd, if_neg (fun hc => hfd hc.1)]
  · rw [if_neg hind, if_neg hind]
    rfl

theorem resolve_lt {tokens : List CStr} (h : resolve m tokens = some i) : i < 256 := by
  rw [resolve] at h
  split_ifs at h
  cases h
  exact walk_lt m tokens

theorem SameTable.firstFreeSlot_eq (h : SameTable s t) : firstFreeSlot s.fdTable = firstFreeSlot t.fdTable :=
  bitmapFfz_congr h.isOpen

theorem SameView.openFound (h : SameView s t) {r : Option ℕ} (hlt : ∀ i ∈ r, i < 256)
    (hfile : ∀ i ∈ r, (inodeAt s.image i).fileType ≠ typeDirectory) :
    Matched SameView (LiteOSFS.openFound s r) (LiteOSFS.openFound t r) := by
  cases r with
  | none => exact ⟨rfl,h⟩
  | some i =>
    have hfile := hfile i rfl
    rw [openFound_eq, openFound_eq, ← h.table.firstFreeSlot_eq, ← h.names.fileType (hlt i rfl), if_neg hfile, if_neg hfile]
    refine rel_ite Iff.rfl (fun hk => ⟨rfl,?_⟩) (fun _ => ⟨rfl,h⟩)
    exact h.of_table rfl rfl (h.table.take hk _ _ _)

theorem SameView.fsOpen (h : SameView s t) (hf : OpensFile s.image path) :
    Option.Rel (Matched SameView) (LiteOSFS.fsOpen s (pathOf path)) (LiteOSFS.fsOpen t (pathOf path)) := by
  have hstop : ∀ r : ℤ, Option.Rel (Matched SameView) (some (r,s)) (some (r,t)) := fun r => Option.Rel.some ⟨rfl,h⟩
  cases path with
  | none => exact hstop _
  | some p =>
    show Option.Rel _ (LiteOSFS.fsOpen s (some p.chars)) (LiteOSFS.fsOpen t (some p.chars))
    by_cases hne : p.chars = []
    · simp only [LiteOSFS.fsOpen, if_pos hne]
      exact hstop _
    cases hsp : splitPath p.chars with
    | none =>
      simp only [LiteOSFS.fsOpen, if_neg hne, hsp]
      exact Option.Rel.none
    | some r =>
      cases r with
      | none =>
        simp only [LiteOSFS.fsOpen, if_neg hne, hsp]
        exact hstop _
      | some tokens =>
        cases hval : tokens.all isValidFileName with
        | false =>
          simp only [LiteOSFS.fsOpen, if_neg hne, hsp, hval, Bool.not_false, if_true]
          exact hstop _
        | true =>
          rw [fsOpen_resolve hne hsp hval, fsOpen_resolve hne hsp hval, ← h.names.resolve_eq]
          exact Option.Rel.some (h.openFound (fun i hi => resolve_lt hi) (fun i hi => hf p rfl tokens i hsp hi))

theorem SameView.fsClose (h : SameView s t) : Matched SameView (LiteOSFS.fsClose s fd) (LiteOSFS.fsClose t fd) := by
  rcases fsClose_cases s fd with ⟨he,hno⟩ | ⟨he,ho⟩
  · rcases fsClose_cases t fd with ⟨he',_⟩ | ⟨_,ho'⟩
    · rw [he, he']
      exact ⟨rfl,h⟩
    · exact absurd (h.table.opened_iff.mpr ho') hno
  · rcases fsClose_cases t fd with ⟨_,hno'⟩ | ⟨he',_⟩
    · exact absurd (h.table.opened_iff.mp ho) hno'
    · rw [he, he']
      exact ⟨rfl,h.of_table rfl rfl (h.table.clear _ _ _)⟩

theorem SameView.size_eq (h : SameView s t) (ho : s.Opened fd) (hu : inodeUsed s.image (s.fileOf fd) = true) :
    (s.inode (s.descriptor fd.toNat).inodeNum.toNat).fileSize = (t.inode (t.descriptor fd.toNat).inodeNum.toNat).fileSize := by
  rw [← h.table.descriptor_eq ho]
  exact h.sizes _ (s.fileOf fd).isLt hu

theorem SameView.fsSeek {offset : Int64} {whence : SeekT} (h : SameView s t)
    (hu : s.Opened fd → inodeUsed s.image (s.fileOf fd) = true) :
    Option.Rel (Matched SameView) (LiteOSFS.fsSeek s fd offset whence) (LiteOSFS.fsSeek t fd offset whence) := by
  have hstop : ∀ r : ℤ, Option.Rel (Matched SameView) (some (r,s)) (some (r,t)) := fun r => Option.Rel.some ⟨rfl,h⟩
  by_cases ho : s.Opened fd
  · have ho' := h.table.opened_iff.mp ho
    by_cases hw : whence = .invalid
    · rw [hw, fsSeek_invalid ho, fsSeek_invalid ho']
      exact hstop _
    · rw [fsSeek_opened ho offset hw, fsSeek_opened ho' offset hw, ← h.size_eq ho (hu ho), ← h.table.descriptor_eq ho]
      cases seekTarget (s.descriptor fd.toNat) _ offset.toInt whence with
      | none => exact Option.Rel.none
      | some target =>
        refine Option.Rel.some ⟨rfl,?_⟩
        show SameView (s.storeDescriptor _ _) (t.storeDescriptor _ _)
        rw [storeDescriptor_eq ho.lt, storeDescriptor_eq ho.lt]
        exact h.of_table rfl rfl (h.table.put ho.lt _ _ _)
  · have ho' : ¬ t.Opened fd := fun hc => ho (h.table.opened_iff.mpr hc)
    rw [LiteOSFS.fsSeek, LiteOSFS.fsSeek]
    refine rel_ite Iff.rfl (fun _ => hstop _) (fun hr => ?_)
    have hclosed : s.isOpen fd.toNat = false := by
      by_contra hc
      exact ho ⟨by omega,by omega,by simpa using hc⟩
    have hclosed' : t.isOpen fd.toNat = false := by
      by_contra hc
      exact ho' ⟨by omega,by omega,by simpa using hc⟩
    rw [hclosed, hclosed']
    exact hstop _

theorem SameView.fsMount (h : SameView s t) : SameView (LiteOSFS.fsMount s) (LiteOSFS.fsMount t) :=
  h.of_table rfl rfl ⟨fun _ _ => rfl,fun _ _ _ => rfl⟩

end View

end LiteOSFS
