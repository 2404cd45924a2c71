import LiteOSFS.FileSystem.Descriptors

/-! # What a call does to one descriptor slot -/
namespace LiteOSFS
open Memory CString

/-- Slot `k` of the descriptor table before and after a call. -/
inductive SlotStep (s : F19FS) (ret : ℤ) (k : ℕ) (s' : F19FS) : Prop where
  | same (hd : s'.descriptor k = s.descriptor k) (ho : s'.isOpen k = s.isOpen k)
  | closed (hd : s'.descriptor k = s.descriptor k) (ho : s'.isOpen k = false)
  | cleared (hd : s'.descriptor k = ⟨0,0,0,0⟩) (ho : s'.isOpen k = false)
  | leaked (hfree : s.isOpen k = false) (hd : s'.descriptor k = s.descriptor k)
  | opened (tokens : List CStr) (hcount : (walk s.image tokens).indicator = tokens.length) (hne : tokens ≠ [])
      (hfile : (s.inode (walk s.image tokens).inodeID).fileType ≠ typeDirectory) (hfree : s.isOpen k = false)
      (hd : s'.descriptor k = ⟨UInt8.ofNat (walk s.image tokens).inodeID,1,0,0⟩)
  | advanced (n : ℕ) (hret : ret = n) (hopen : s.isOpen k = true)
      (hd : s'.descriptor k = updateFD (s.descriptor k) n) (ho : s'.isOpen k = true)
  | sought (target : ℤ) (hopen : s.isOpen k = true) (hd : s'.descriptor k = updateFD (s.descriptor k).rewound
      (cutBoundary (s.inode (s.descriptor k).inodeNum.toNat).fileSize.toNat target)) (ho : s'.isOpen k = true)

theorem updateFD_inodeNum (d : FileDescriptor) (n : ℤ) : (updateFD d n).inodeNum = d.inodeNum := by
  rw [updateFD]
  dsimp only
  split_ifs <;> rfl

section Slot
variable {s s' : F19FS} {ret : ℤ} {k : ℕ}

theorem SlotStep.refl : SlotStep s ret k s := SlotStep.same rfl rfl

theorem slotStep_put {fd : ℤ} {m : Mem} {d : FileDescriptor} (ho : s.Opened fd) (h : fd.toNat = k → d = s.descriptor k ∨
      (∃ n : ℕ, ret = n ∧ d = updateFD (s.descriptor k) n) ∨ ∃ target, d = updateFD (s.descriptor k).rewound
        (cutBoundary (s.inode (s.descriptor k).inodeNum.toNat).fileSize.toNat target)) :
    SlotStep s ret k (F19FS.mk m (putDescriptor s.fdTable fd.toNat d)) := by
  have hopen : (F19FS.mk m (putDescriptor s.fdTable fd.toNat d)).isOpen k = s.isOpen k := isOpen_putDescriptor m ho.lt
  have hd : (F19FS.mk m (putDescriptor s.fdTable fd.toNat d)).descriptor k = if fd.toNat = k then d else s.descriptor k :=
    descriptor_putDescriptor m
  by_cases hk : fd.toNat = k
  · rw [if_pos hk] at hd
    have hk1 : s.isOpen k = true := by
      rw [← hk]
      exact ho.2.2
    rcases h hk with he | ⟨n,hr,he⟩ | ⟨target,he⟩
    · exact SlotStep.same (hd.trans he) hopen
    · exact SlotStep.advanced n hr hk1 (hd.trans he) (hopen.trans hk1)
    · exact SlotStep.sought target hk1 (hd.trans he) (hopen.trans hk1)
  · rw [if_neg hk] at hd
    exact SlotStep.same hd hopen

theorem fsSeek_slot {fd : ℤ} {offset : Int64} {whence : SeekT} (h : fsSeek s fd offset whence = some (ret,s')) :
    SlotStep s ret k s' := by
  by_cases ho : s.Opened fd
  swap
  · obtain ⟨r,_,he⟩ := fsSeek_closed ho offset whence
    rw [he] at h
    cases h
    exact SlotStep.refl
  by_cases hw : whence = .invalid
  · rw [hw, fsSeek_invalid ho] at h
    cases h
    exact SlotStep.refl
  · rw [fsSeek_opened ho offset hw] at h
    obtain ⟨target,_,he⟩ := Option.map_eq_some_iff.mp h
    cases he
    rw [storeDescriptor_eq ho.lt]
    exact slotStep_put ho (fun hk => Or.inr (Or.inr ⟨target,by rw [hk]⟩))

theorem fsRead_slot {fd : ℤ} {dstNull : Bool} {nbyte : UInt64} {bytes : List UInt8}
    (h : fsRead s fd dstNull nbyte = some (ret,bytes,s')) : SlotStep s ret k s' := by
  by_cases ho : s.Opened fd
  swap
  · obtain ⟨r,_,he⟩ := fsRead_closed ho dstNull nbyte
    rw [he] at h
    cases h
    exact SlotStep.refl
  cases dstNull with
  | true =>
    rw [fsRead_null] at h
    cases h
    exact SlotStep.refl
  | false =>
    by_cases hn : nbyte = 0
    · rw [hn, fsRead_nothing ho] at h
      cases h
      exact SlotStep.refl
    · rw [fsRead_opened ho hn] at h
      obtain ⟨_,_,he⟩ := Option.map_eq_some_iff.mp h
      cases he
      rw [storeDescriptor_eq ho.lt]
      exact slotStep_put ho (fun hk => Or.inr (Or.inl ⟨bytes.length,rfl,by rw [hk]⟩))

theorem fsWrite_slot {fd : ℤ} {src : Option Mem} {nbyte : UInt64} (h : fsWrite s fd src nbyte = some (ret,s')) :
    SlotStep s ret k s' := by
  rcases fsWrite_cases h with ⟨_,rfl⟩ | ⟨_,_,_,hlo,hhi,hopen,_,⟨_,_,rfl⟩ | ⟨r,_,_,_,rfl,_,htab⟩⟩
  · exact SlotStep.refl
  · exact SlotStep.refl
  · have ho : s.Opened fd := ⟨hlo,hhi,hopen⟩
    obtain ⟨m,t⟩ := s'
    have ht : t = putDescriptor s.fdTable fd.toNat (updateFD (s.descriptor fd.toNat) r) :=
      htab.trans (storeDescriptor_fdTable ho.lt)
    subst ht
    exact slotStep_put ho (fun hk => Or.inr (Or.inl ⟨r,rfl,by rw [hk]⟩))

theorem slotStep_table (ht : s'.fdTable = s.fdTable) : SlotStep s ret k s' := by
  obtain ⟨m,t⟩ := s'
  cases ht
  exact SlotStep.same rfl rfl

theorem fsMove_table {src dst : Option CStr} {junk : Inode} (h : fsMove s src dst junk = some (ret,s')) :
    s'.fdTable = s.fdTable := by
  unfold fsMove at h
  split at h
  · obtain ⟨_,_,he⟩ := Option.map_eq_some_iff.mp h
    cases he
    rfl
  · cases h
    rfl

theorem fsLink_table {src dst : Option CStr} (h : fsLink s src dst = (ret,s')) : s'.fdTable = s.fdTable := by
  unfold fsLink at h
  split at h
  · cases h
    rfl
  · cases h
    rfl

theorem fsOpen_slot {path : Option CStr} (hk : k < 256) (h : fsOpen s path = some (ret,s')) : SlotStep s ret k s' := by
  have hset : (F19FS.mk s.image (setOpen s.fdTable (firstFreeSlot s.fdTable))).descriptor k = s.descriptor k :=
    descriptor_setOpen s.image hk
  have hopen : firstFreeSlot s.fdTable ≠ k →
      (F19FS.mk s.image (setOpen s.fdTable (firstFreeSlot s.fdTable))).isOpen k = s.isOpen k := by
    intro hne
    rw [isOpen_setOpen, decide_eq_false hne, Bool.false_or]
  have hfree : firstFreeSlot s.fdTable < 256 → firstFreeSlot s.fdTable = k → s.isOpen k = false := by
    intro hlt he
    rcases firstFreeSlot_spec s.image s.fdTable with hf | ⟨_,hf,_⟩
    · rw [hf] at hlt
      exact absurd hlt (by decide)
    · rwa [he] at hf
  rcases fsOpen_cases h with ⟨_,rfl⟩ | ⟨p,tokens,_,_,hsp,hval,hcount,hlt,⟨_,_,rfl⟩ | ⟨_,hfile,rfl⟩⟩
  · exact SlotStep.refl
  · by_cases he : firstFreeSlot s.fdTable = k
    · exact SlotStep.leaked (hfree hlt he) hset
    · exact SlotStep.same hset (hopen he)
  · by_cases he : firstFreeSlot s.fdTable = k
    · refine SlotStep.opened tokens hcount ?_ hfile (hfree hlt he) ?_
      · rintro rfl
        exact splitPath_ne_nil hsp rfl
      · rw [descriptor_putDescriptor, if_pos he]
    · refine SlotStep.same ?_ ?_
      · rw [descriptor_putDescriptor, if_neg he]
        exact hset
      · rw [isOpen_putDescriptor _ hlt]
        exact hopen he

theorem call_slot {c : Call} (hk : k < 256) (h : call s c = some (ret,s')) : SlotStep s ret k s' := by
  cases c with
  | create path type =>
    rcases fsCreate_cases h with ⟨_,rfl⟩ | ⟨_,_,_,_,_,_,_,_,_,_,ht⟩
    · exact SlotStep.refl
    · exact slotStep_table ht
  | openFile path => exact fsOpen_slot hk h
  | close fd =>
    have he : fsClose s fd = (ret,s') := Option.some.inj h
    rcases fsClose_cases s fd with ⟨hf,_⟩ | ⟨hf,ho⟩
    · cases hf.symm.trans he
      exact SlotStep.refl
    · cases hf.symm.trans he
      have hd : (F19FS.mk s.image (clearOpen s.fdTable fd.toNat)).descriptor k = s.descriptor k :=
        descriptor_clearOpen s.image hk
      by_cases hfd : fd.toNat = k
      · refine SlotStep.closed hd ?_
        rw [isOpen_clearOpen, decide_eq_true hfd]
        rfl
      · refine SlotStep.same hd ?_
        rw [isOpen_clearOpen, decide_eq_false hfd]
        rfl
  | read fd dstNull nbyte =>
    obtain ⟨⟨ret',bytes,s''⟩,hr,he⟩ := Option.map_eq_some_iff.mp h
    cases he
    exact fsRead_slot hr
  | write fd src nbyte => exact fsWrite_slot h
  | seek fd offset whence => exact fsSeek_slot h
  | remove path =>
    rcases fsRemove_cases h with ⟨_,rfl⟩ | ⟨_,_,_,_,_,_,ht⟩
    · exact SlotStep.refl
    · exact slotStep_table ht
  | move src dst junk => exact slotStep_table (fsMove_table h)
  | link src dst => exact slotStep_table (fsLink_table (Option.some.inj h))
  | remount =>
    cases h
    refine SlotStep.cleared ?_ ?_
    · rw [F19FS.descriptor, fsMount]
      have hz : window blockStoreFdCreate (k * 6) 6 = zeros := by
        funext i
        rw [window]
        split_ifs <;> rfl
      rw [hz]
      rfl
    · rw [F19FS.isOpen, fsMount, bitmapTest]
      simp [blockStoreFdCreate, zeros]

end Slot

end LiteOSFS
