import LiteOSFS.FileSystem.Calls

/-! # The descriptor table

256 records of six bytes and, past them, the bitmap of the open slots. A slot is
changed by the operations on its own descriptor only.
-/
namespace LiteOSFS
open Memory CString

theorem FileDescriptor.toBytes_ofBytes (b : Mem) {i : ℕ} (hi : i < 6) : (ofBytes b).toBytes i = b i := by
  have h2 : ∀ off k, k < 2 → leByte (UInt16.ofNat (leNat b off 2)).toNat k = b (off + k) := by
    intro off k hk
    have hlt := leNat_lt b off 2
    rw [UInt16.toNat_ofNat', Nat.mod_eq_of_lt (by omega), leByte_leNat hk]
  unfold toBytes ofBytes
  dsimp only
  split_ifs with h0 h1 h3
  · rw [show i = 0 by omega]
  · rw [show i = 1 by omega]
  · rw [h2 2 (i - 2) (by omega), show 2 + (i - 2) = i by omega]
  · rw [h2 4 (i - 4) (by omega), show 4 + (i - 4) = i by omega]

/-- A descriptor table with the record of slot `fd` replaced, and with a bit of the bitmap changed. -/
def putDescriptor (m : Mem) (fd : ℕ) (d : FileDescriptor) : Mem := copyIn m (fd * 6) 6 d.toBytes
def setOpen (m : Mem) (fd : ℕ) : Mem := bitmapSet m fdStore.fbm fd
def clearOpen (m : Mem) (fd : ℕ) : Mem := bitmapReset m fdStore.fbm fd

theorem blockStoreFdWrite_table {m : Mem} {fd : ℕ} {d : FileDescriptor} (h : fd < 256) :
    blockStoreFdWrite m fdStore fd d = (6,putDescriptor m fd d) := by
  rw [blockStoreFdWrite, if_pos h, putDescriptor, fdStore, Nat.zero_add]

section Table
variable {s : F19FS} {m : Mem} {fd k : ℕ} {d : FileDescriptor}

theorem storeDescriptor_image : (s.storeDescriptor fd d).image = s.image := rfl

theorem storeDescriptor_fdTable (h : fd < 256) : (s.storeDescriptor fd d).fdTable = putDescriptor s.fdTable fd d := by
  rw [F19FS.storeDescriptor, blockStoreFdWrite_table h]

theorem descriptor_putDescriptor (f : Mem) : (F19FS.mk f (putDescriptor m fd d)).descriptor k =
    if fd = k then d else (F19FS.mk f m).descriptor k := by
  unfold F19FS.descriptor
  split_ifs with h
  · subst h
    simp only [putDescriptor, window_copyIn_same]
    rw [FileDescriptor.ofBytes_congr (c := d.toBytes) (fun i hi => by rw [window_apply_lt hi, Nat.zero_add]),
      FileDescriptor.ofBytes_toBytes]
  · rw [putDescriptor, window_copyIn_of_disjoint (by omega)]

theorem isOpen_putDescriptor (f : Mem) (hfd : fd < 256) :
    (F19FS.mk f (putDescriptor m fd d)).isOpen k = (F19FS.mk f m).isOpen k := by
  apply bitmapTest_congr
  apply copyIn_outside
  right
  simp only [fdStore]
  omega

theorem descriptor_setOpen (f : Mem) (hk : k < 256) :
    (F19FS.mk f (setOpen m fd)).descriptor k = (F19FS.mk f m).descriptor k := by
  have hw : window (setOpen m fd) (k * 6) 6 = window m (k * 6) 6 := window_congr (fun a _ ha =>
    bitmapSet_other (by simp only [fdStore]; omega))
  rw [F19FS.descriptor, F19FS.descriptor, hw]

theorem descriptor_clearOpen (f : Mem) (hk : k < 256) :
    (F19FS.mk f (clearOpen m fd)).descriptor k = (F19FS.mk f m).descriptor k := by
  have hw : window (clearOpen m fd) (k * 6) 6 = window m (k * 6) 6 := window_congr (fun a _ ha =>
    bitmapReset_other (by simp only [fdStore]; omega))
  rw [F19FS.descriptor, F19FS.descriptor, hw]

theorem isOpen_setOpen (f : Mem) :
    (F19FS.mk f (setOpen m fd)).isOpen k = (decide (fd = k) || (F19FS.mk f m).isOpen k) :=
  bitmapTest_bitmapSet _ _ _ _

theorem isOpen_clearOpen (f : Mem) :
    (F19FS.mk f (clearOpen m fd)).isOpen k = (!decide (fd = k) && (F19FS.mk f m).isOpen k) :=
  bitmapTest_bitmapReset _ _ _ _

/-- A record that is written over by what it held before. -/
theorem putDescriptor_putDescriptor (f : Mem) (e : FileDescriptor) :
    putDescriptor (putDescriptor m fd e) fd ((F19FS.mk f m).descriptor fd) = m := by
  rw [putDescriptor, putDescriptor, copyIn_copyIn]
  apply copyIn_eq_self
  intro i hi
  rw [F19FS.descriptor, FileDescriptor.toBytes_ofBytes _ hi, window_apply_lt hi]

end Table

/-- The slot that `fs_open` takes, the least free one. -/
def firstFreeSlot (m : Mem) : ℕ := bitmapFfz m fdStore.fbm

theorem blockStoreAllocate_fd (m : Mem) : blockStoreSubAllocate m fdStore =
    if firstFreeSlot m = sizeMax then (sizeMax,m) else (firstFreeSlot m,setOpen m (firstFreeSlot m)) := rfl

theorem firstFreeSlot_spec (f m : Mem) : firstFreeSlot m = sizeMax ∨
    firstFreeSlot m < 256 ∧ (F19FS.mk f m).isOpen (firstFreeSlot m) = false ∧
      ∀ k < firstFreeSlot m, (F19FS.mk f m).isOpen k = true := by
  rcases bitmapFfz_spec m fdStore.fbm with ⟨he,_⟩ | h
  · exact Or.inl he
  · exact Or.inr h

/-- `fs_open` fails before it takes a slot, fails for want of one, keeps the slot that it took for a
directory, or opens the inode that the walk found. -/
theorem fsOpen_cases {s s' : F19FS} {path : Option CStr} {ret : ℤ} (h : fsOpen s path = some (ret,s')) :
    (ret = -1 ∧ s' = s) ∨
    ∃ p tokens, path = some p ∧ p ≠ [] ∧ splitPath p = some (some tokens) ∧ tokens.all isValidFileName = true ∧
      (walk s.image tokens).indicator = tokens.length ∧ firstFreeSlot s.fdTable < 256 ∧
      ((ret = -1 ∧ (s.inode (walk s.image tokens).inodeID).fileType = typeDirectory ∧
          s' = { s with fdTable := setOpen s.fdTable (firstFreeSlot s.fdTable) }) ∨
        (ret = firstFreeSlot s.fdTable ∧ (s.inode (walk s.image tokens).inodeID).fileType ≠ typeDirectory ∧
          s' = F19FS.mk s.image (putDescriptor (setOpen s.fdTable (firstFreeSlot s.fdTable))
            (firstFreeSlot s.fdTable) ⟨UInt8.ofNat (walk s.image tokens).inodeID,1,0,0⟩))) := by
  unfold fsOpen at h
  cases path with
  | none =>
    cases h
    exact Or.inl ⟨rfl,rfl⟩
  | some p =>
    simp only at h
    rcases ite_cases h with ⟨_,h⟩ | ⟨hne,h⟩
    · cases h
      exact Or.inl ⟨rfl,rfl⟩
    cases hsp : splitPath p with
    | none =>
      rw [hsp] at h
      cases h
    | some r =>
      cases r with
      | none =>
        rw [hsp] at h
        cases h
        exact Or.inl ⟨rfl,rfl⟩
      | some tokens =>
        simp only [hsp] at h
        rcases ite_cases h with ⟨_,h⟩ | ⟨hall,h⟩
        · cases h
          exact Or.inl ⟨rfl,rfl⟩
        rcases ite_cases h with ⟨hcount,h⟩ | ⟨_,h⟩
        · have hlt := walk_lt s.image tokens
          rw [blockStoreInodeRead_table hlt, Option.getD_some, blockStoreAllocate_fd] at h
          rcases firstFreeSlot_spec s.image s.fdTable with hf | ⟨hf,_⟩
          · have hs : ¬ sizeMax < 256 := by decide
            simp only [hf, if_true, hs, if_false] at h
            cases h
            exact Or.inl ⟨rfl,rfl⟩
          · have hne' : firstFreeSlot s.fdTable ≠ sizeMax := by
              unfold sizeMax
              omega
            refine Or.inr ⟨p,tokens,rfl,hne,hsp,by simpa using hall,hcount,hf,?_⟩
            simp only [hne', if_false, hf, if_true] at h
            rcases ite_cases h with ⟨hd,h⟩ | ⟨hd,h⟩
            · cases h
              exact Or.inl ⟨rfl,hd,rfl⟩
            · rw [blockStoreFdWrite_table hf] at h
              cases h
              exact Or.inr ⟨rfl,hd,rfl⟩
        · cases h
          exact Or.inl ⟨rfl,rfl⟩

/-- The argument is the number of an open descriptor. -/
def F19FS.Opened (s : F19FS) (fd : ℤ) : Prop := 0 ≤ fd ∧ fd < 256 ∧ s.isOpen fd.toNat = true

theorem F19FS.Opened.not_range {s : F19FS} {fd : ℤ} (h : s.Opened fd) : ¬ (fd < 0 ∨ fd ≥ 256) := by
  obtain ⟨_,_,_⟩ := h
  omega

theorem F19FS.Opened.lt {s : F19FS} {fd : ℤ} (h : s.Opened fd) : fd.toNat < 256 := by
  obtain ⟨_,_,_⟩ := h
  omega

theorem storeDescriptor_eq {s : F19FS} {fd : ℕ} {d : FileDescriptor} (h : fd < 256) :
    s.storeDescriptor fd d = F19FS.mk s.image (putDescriptor s.fdTable fd d) := by
  rw [F19FS.storeDescriptor, blockStoreFdWrite_table h]

/-- The descriptor with its cursor at the start of the file. -/
def FileDescriptor.rewound (d : FileDescriptor) : FileDescriptor := { d with locateOrder := 0, locateOffset := 0 }

theorem FileDescriptor.rewound_position (d : FileDescriptor) : d.rewound.position = 0 := by
  simp [rewound, position]

theorem fsClose_cases (s : F19FS) (fd : ℤ) :
    (fsClose s fd = (-1,s) ∧ ¬ s.Opened fd) ∨
    (fsClose s fd = (0,{ s with fdTable := clearOpen s.fdTable fd.toNat }) ∧ s.Opened fd) := by
  unfold fsClose
  by_cases hfd : 0 ≤ fd ∧ fd < 256
  · rw [if_pos hfd]
    have htest : blockStoreSubTest s.fdTable fdStore fd.toNat = s.isOpen fd.toNat := by
      rw [blockStoreSubTest, if_neg (by omega), F19FS.isOpen]
    rw [htest]
    cases hopen : s.isOpen fd.toNat with
    | false => exact Or.inl ⟨if_neg Bool.false_ne_true,fun h => Bool.false_ne_true (hopen.symm.trans h.2.2)⟩
    | true =>
      refine Or.inr ⟨?_,hfd.1,hfd.2,hopen⟩
      have hbit : bitmapTest s.fdTable fdStore.fbm fd.toNat = true := hopen
      rw [if_pos rfl, blockStoreSubRelease, if_pos (by omega), releaseBit, if_pos hbit]
      rfl
  · rw [if_neg hfd]
    exact Or.inl ⟨rfl,fun h => hfd ⟨h.1,h.2.1⟩⟩

section Calls
variable {s : F19FS} {fd : ℤ}

theorem fsSeek_closed (h : ¬ s.Opened fd) (offset : Int64) (whence : SeekT) :
    ∃ ret < 0, fsSeek s fd offset whence = some (ret,s) := by
  rw [fsSeek]
  by_cases hr : fd < 0 ∨ fd ≥ 256
  · exact ⟨-1,by decide,if_pos hr⟩
  · have hc : s.isOpen fd.toNat = false := by
      by_contra ho
      exact h ⟨by omega,by omega,by simpa using ho⟩
    exact ⟨-2,by decide,by rw [if_neg hr, hc]; rfl⟩

theorem fsSeek_opened (h : s.Opened fd) (offset : Int64) {whence : SeekT} (hw : whence ≠ .invalid) :
    fsSeek s fd offset whence =
      (seekTarget (s.descriptor fd.toNat) (s.inode (s.descriptor fd.toNat).inodeNum.toNat).fileSize.toNat
        offset.toInt whence).map (fun target =>
          (cutBoundary (s.inode (s.descriptor fd.toNat).inodeNum.toNat).fileSize.toNat target,
            s.storeDescriptor fd.toNat (updateFD (s.descriptor fd.toNat).rewound
              (cutBoundary (s.inode (s.descriptor fd.toNat).inodeNum.toNat).fileSize.toNat target)))) := by
  rw [fsSeek, if_neg h.not_range, h.2.2, if_neg (by simp), if_neg hw]
  simp only
  cases seekTarget (s.descriptor fd.toNat) (s.inode (s.descriptor fd.toNat).inodeNum.toNat).fileSize.toNat
    offset.toInt whence <;> rfl

theorem fsSeek_invalid (h : s.Opened fd) (offset : Int64) : fsSeek s fd offset .invalid = some (-3,s) := by
  rw [fsSeek, if_neg h.not_range, h.2.2, if_neg (by simp), if_pos rfl]

theorem fsRead_closed (h : ¬ s.Opened fd) (dstNull : Bool) (nbyte : UInt64) :
    ∃ ret < 0, fsRead s fd dstNull nbyte = some (ret,[],s) := by
  rw [fsRead]
  by_cases hr : fd < 0 ∨ fd ≥ 256 ∨ dstNull = true
  · exact ⟨-1,by decide,if_pos hr⟩
  · have hc : s.isOpen fd.toNat = false := by
      by_contra ho
      exact h ⟨by omega,by omega,by simpa using ho⟩
    exact ⟨-2,by decide,by rw [if_neg hr, hc]; rfl⟩

theorem fsWrite_closed (h : ¬ s.Opened fd) (src : Option Mem) (nbyte : UInt64) :
    ∃ ret < 0, fsWrite s fd src nbyte = some (ret,s) := by
  cases src with
  | none => exact ⟨-1,by decide,rfl⟩
  | some src =>
    rw [fsWrite]
    by_cases hr : fd < 0 ∨ fd ≥ 256
    · exact ⟨-1,by decide,if_pos hr⟩
    · have hc : s.isOpen fd.toNat = false := by
        by_contra ho
        exact h ⟨by omega,by omega,by simpa using ho⟩
      refine ⟨-2,by decide,?_⟩
      simp only [if_neg hr, hc]
      rfl

theorem fsRead_null (s : F19FS) (fd : ℤ) (nbyte : UInt64) : fsRead s fd true nbyte = some (-1,[],s) :=
  if_pos (Or.inr (Or.inr rfl))

theorem fsRead_nothing (h : s.Opened fd) : fsRead s fd false 0 = some (0,[],s) := by
  have hr := h.not_range
  rw [fsRead, if_neg (by simpa using hr), h.2.2, if_neg (by simp), if_pos rfl]

theorem fsRead_opened (h : s.Opened fd) {nbyte : UInt64} (hn : nbyte ≠ 0) : fsRead s fd false nbyte =
    (readFrom s.image (s.inode (s.descriptor fd.toNat).inodeNum.toNat) (s.descriptor fd.toNat).locateOrder.toNat
      (s.descriptor fd.toNat).locateOffset.toNat (readCount (s.descriptor fd.toNat)
        (s.inode (s.descriptor fd.toNat).inodeNum.toNat).fileSize.toNat nbyte.toNat)).map (fun bytes =>
          ((bytes.length : ℤ),bytes,s.storeDescriptor fd.toNat (updateFD (s.descriptor fd.toNat) bytes.length))) := by
  have hr := h.not_range
  rw [fsRead, if_neg (by simpa using hr), h.2.2, if_neg (by simp), if_neg hn]
  simp only
  cases readFrom s.image (s.inode (s.descriptor fd.toNat).inodeNum.toNat) (s.descriptor fd.toNat).locateOrder.toNat
      (s.descriptor fd.toNat).locateOffset.toNat (readCount (s.descriptor fd.toNat)
        (s.inode (s.descriptor fd.toNat).inodeNum.toNat).fileSize.toNat nbyte.toNat) <;> rfl

/-- Each operation on an open descriptor stores its record, or leaves the table alone. -/
theorem fsSeek_table {s' : F19FS} {offset : Int64} {whence : SeekT} {ret : ℤ}
    (h : fsSeek s fd offset whence = some (ret,s')) :
    s' = s ∨ s.Opened fd ∧ ∃ d, s' = F19FS.mk s.image (putDescriptor s.fdTable fd.toNat d) := by
  by_cases ho : s.Opened fd
  · by_cases hw : whence = .invalid
    · rw [hw, fsSeek_invalid ho] at h
      cases h
      exact Or.inl rfl
    · rw [fsSeek_opened ho offset hw] at h
      obtain ⟨target,_,he⟩ := Option.map_eq_some_iff.mp h
      cases he
      exact Or.inr ⟨ho,_,storeDescriptor_eq ho.lt⟩
  · obtain ⟨r,_,he⟩ := fsSeek_closed ho offset whence
    rw [he] at h
    cases h
    exact Or.inl rfl

theorem fsRead_table {s' : F19FS} {dstNull : Bool} {nbyte : UInt64} {ret : ℤ} {bytes : List UInt8}
    (h : fsRead s fd dstNull nbyte = some (ret,bytes,s')) :
    s' = s ∨ s.Opened fd ∧ ∃ d, s' = F19FS.mk s.image (putDescriptor s.fdTable fd.toNat d) := by
  by_cases ho : s.Opened fd
  · cases dstNull with
    | true =>
      rw [fsRead_null] at h
      cases h
      exact Or.inl rfl
    | false =>
      by_cases hn : nbyte = 0
      · rw [hn, fsRead_nothing ho] at h
        cases h
        exact Or.inl rfl
      · rw [fsRead_opened ho hn] at h
        obtain ⟨bs,_,he⟩ := Option.map_eq_some_iff.mp h
        cases he
        exact Or.inr ⟨ho,_,storeDescriptor_eq ho.lt⟩
  · obtain ⟨r,_,he⟩ := fsRead_closed ho dstNull nbyte
    rw [he] at h
    cases h
    exact Or.inl rfl

theorem fsWrite_table {s' : F19FS} {src : Option Mem} {nbyte : UInt64} {ret : ℤ}
    (h : fsWrite s fd src nbyte = some (ret,s')) :
    s' = s ∨ s.Opened fd ∧ ∃ m d, s' = F19FS.mk m (putDescriptor s.fdTable fd.toNat d) := by
  rcases fsWrite_cases h with ⟨_,rfl⟩ | ⟨_,_,_,hlo,hhi,hopen,_,⟨_,_,rfl⟩ | ⟨_,_,_,_,_,_,htab⟩⟩
  · exact Or.inl rfl
  · exact Or.inl rfl
  · have ho : s.Opened fd := ⟨hlo,hhi,hopen⟩
    obtain ⟨m,t⟩ := s'
    have ht : t = _ := htab.trans (storeDescriptor_fdTable ho.lt)
    exact Or.inr ⟨ho,m,_,by rw [ht]⟩

end Calls
/-- The slot that a call is about, when it is one of the five operations on descriptors. -/
def Call.slot (s : F19FS) : Call → Option ℤ
  | .openFile _ => some (firstFreeSlot s.fdTable)
  | .close fd => some fd
  | .read fd _ _ => some fd
  | .write fd _ _ => some fd
  | .seek fd _ _ => some fd
  | _ => none

theorem call_image {s s' : F19FS} {c : Call} {a ret : ℤ} (hc : c.slot s = some a) (hw : ∀ fd src n, c ≠ .write fd src n)
    (h : call s c = some (ret,s')) : s'.image = s.image := by
  cases c with
  | openFile path => exact fsOpen_image h
  | close fd => rw [← fsClose_image s fd, Option.some.inj h]
  | read fd dstNull nbyte =>
    obtain ⟨⟨_,bytes,_⟩,hr,he⟩ := Option.map_eq_some_iff.mp h
    cases he
    exact fsRead_image hr
  | seek fd offset whence => exact fsSeek_image h
  | write fd src n => exact absurd rfl (hw fd src n)
  | _ => cases hc

end LiteOSFS
