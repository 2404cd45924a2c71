import LiteOSFS.FileSystem.RecordStep
import LiteOSFS.FileSystem.Resolve
import LiteOSFS.FileSystem.SlotStep
import LiteOSFS.Properties.Reading

/-! # What an open descriptor refers to

An open descriptor stays on the file that it was opened on, in that file's life, as long as
no removal frees a file that is open, and no `fs_open` takes a slot for what is no file.
-/
namespace LiteOSFS
open Memory CString Ownership Transition

/-- The inode that `fs_open` finds. -/
def openTarget (s : F19FS) : Call → Option ℕ
  | .openFile (some path) =>
    match splitPath path.chars with
    | some (some tokens) => if tokens.all isValidFileName then resolve s.image tokens else none
    | _ => none
  | _ => none

/-- How often each inode came into use, and for each slot the inode and the life of it that it was opened on last. -/
structure Origins where
  births : ℕ → ℕ
  opened : ℕ → ℕ × ℕ

def noOrigins : Origins := ⟨fun _ => 0,fun _ => (0,0)⟩

/-- What a call adds to the origins: another life for each inode that it takes into use, and the file for the slot
that `fs_open` returns. -/
def origin (s : F19FS) (g : Origins) (c : Call) : Origins where
  births i := if inodeUsed s.image i = false ∧ (call s c).any (fun r => inodeUsed r.2.image i) then g.births i + 1
    else g.births i
  opened k :=
    match openTarget s c with
    | some i => if (call s c).any (fun r => r.1 = (k : ℤ)) then (i,g.births i) else g.opened k
    | none => g.opened k

/-- Descriptor `k` refers to a regular file in use, the one that it was opened on, and stands inside it. -/
structure DescriptorValid (s : F19FS) (g : Origins) (k : ℕ) : Prop where
  file : (s.descriptor k).inodeNum.toNat = (g.opened k).1
  life : g.births (g.opened k).1 = (g.opened k).2
  used : inodeUsed s.image (s.descriptor k).inodeNum.toNat = true
  fileType : (s.inode (s.descriptor k).inodeNum.toNat).fileType = typeRegular
  offset : (s.descriptor k).locateOffset.toNat < 1024
  position : (s.descriptor k).position ≤ (s.inode (s.descriptor k).inodeNum.toNat).fileSize.toNat

/-- The read is cut as it should be, or a block of the file is not there before its end. -/
def ReadsInside (s : F19FS) (fd : ℤ) (nbyte : UInt64) : Prop :=
  CountCut (s.descriptor fd.toNat) (s.inode (s.fileOf fd)).fileSize.toNat nbyte.toNat ∨
    ∃ c, nodePtr s.image (s.inode (s.fileOf fd)) (.data c) = 0 ∧ (s.descriptor fd.toNat).locateOrder.toNat ≤ c ∧
      (c = (s.descriptor fd.toNat).locateOrder.toNat ∨ c * 1024 ≤ (s.inode (s.fileOf fd)).fileSize.toNat)

/-- The target lies before the file, or the file size is not negative as an `int`, or it comes out in the first block. -/
def SeeksInside (size : ℕ) (target : ℤ) : Prop :=
  target ≤ 0 ∨ 0 ≤ (size : ℤ).bmod (2 ^ 32) ∨ (size : ℤ).bmod (2 ^ 32) % 65536 ≤ 1024

/-- Calls that keep the descriptors on their files: what `fs_open` takes a slot for is a regular file in use, no
removal frees a file that is open, and a transfer or a seek leaves the position inside the file. -/
def DescriptorKept (s : F19FS) : Call → Prop
  | .openFile path => ∀ i, openTarget s (.openFile path) = some i → (∃ k < 256, s.isOpen k = false) →
      inodeUsed s.image i = true ∧ (s.inode i).fileType = typeRegular
  | .remove path => ∀ p ∈ path, ∀ k < 256, s.isOpen k = true →
      ¬ RemoveFrees s.image p.chars (s.descriptor k).inodeNum.toNat
  | .read fd dstNull nbyte => s.Opened fd → dstNull = false → ReadsInside s fd nbyte
  | .write fd src nbyte => s.Opened fd → src.isSome → (s.inode (s.fileOf fd)).fileSize.toNat +
      min nbyte.toNat 67116032 < 2 ^ 64
  | .seek fd offset whence => s.Opened fd → whence ≠ .invalid →
      ∀ t, seekTarget (s.descriptor fd.toNat) (s.inode (s.fileOf fd)).fileSize.toNat offset.toInt whence = some t →
        SeeksInside (s.inode (s.fileOf fd)).fileSize.toNat t
  | _ => True

section Origin
variable {s s' : F19FS} {g : Origins} {c : Call} {ret : ℤ} {i k : ℕ}

theorem origin_births (hu : inodeUsed s.image i = true) : (origin s g c).births i = g.births i := by
  simp [origin, hu]

theorem origin_opened (hc : call s c = some (ret,s')) (h : openTarget s c = none ∨ ret ≠ (k : ℤ)) :
    (origin s g c).opened k = g.opened k := by
  simp only [origin, hc, Option.any_some, decide_eq_true_eq]
  rcases h with hn | hne
  · rw [hn]
  · cases openTarget s c with
    | none => rfl
    | some i => exact if_neg hne

/-- A descriptor whose file stays in use is valid after a call, if it stands inside its file. -/
theorem DescriptorValid.step (h : DescriptorValid s g k) (hc : call s c = some (ret,s'))
    (hslot : openTarget s c = none ∨ ret ≠ (k : ℤ)) (hnum : (s'.descriptor k).inodeNum = (s.descriptor k).inodeNum)
    (hused : inodeUsed s'.image (s.descriptor k).inodeNum.toNat = true)
    (htype : (s'.inode (s.descriptor k).inodeNum.toNat).fileType = typeRegular)
    (hoff : (s'.descriptor k).locateOffset.toNat < 1024)
    (hpos : (s'.descriptor k).position ≤ (s'.inode (s.descriptor k).inodeNum.toNat).fileSize.toNat) :
    DescriptorValid s' (origin s g c) k := by
  have hopened := origin_opened (g := g) hc hslot
  refine ⟨?_,?_,?_,?_,hoff,?_⟩
  · rw [hnum, hopened, h.file]
  · rw [hopened, origin_births, h.life]
    rw [← h.file]
    exact h.used
  · rwa [hnum]
  · rwa [hnum]
  · rwa [hnum]

/-- A descriptor that the call does not touch. -/
theorem DescriptorValid.kept (h : DescriptorValid s g k) (hc : call s c = some (ret,s'))
    (hslot : openTarget s c = none ∨ ret ≠ (k : ℤ)) (hd : s'.descriptor k = s.descriptor k)
    (hstay : FileStays s.image s'.image (s.descriptor k).inodeNum.toNat) : DescriptorValid s' (origin s g c) k := by
  refine h.step hc hslot (by rw [hd]) hstay.used hstay.fileType (by rw [hd]; exact h.offset) ?_
  rw [hd, F19FS.inode, hstay.fileSize]
  exact h.position

/-- A descriptor whose cursor is moved. -/
theorem DescriptorValid.moved (h : DescriptorValid s g k) (hc : call s c = some (ret,s'))
    (hslot : openTarget s c = none ∨ ret ≠ (k : ℤ)) (him : s'.image = s.image)
    (hnum : (s'.descriptor k).inodeNum = (s.descriptor k).inodeNum) (hoff : (s'.descriptor k).locateOffset.toNat < 1024)
    (hpos : (s'.descriptor k).position ≤ (s.inode (s.descriptor k).inodeNum.toNat).fileSize.toNat) :
    DescriptorValid s' (origin s g c) k := by
  refine h.step hc hslot hnum ?_ ?_ hoff ?_
  · rw [him]
    exact h.used
  · rw [F19FS.inode, him]
    exact h.fileType
  · rw [F19FS.inode, him]
    exact hpos

end Origin

section Step
variable {s s' : F19FS} {g : Origins} {ret : ℤ} {k : ℕ}

/-- The descriptors on files in use, each on the one that it was opened on. -/
def DescriptorsValid (s : F19FS) (g : Origins) : Prop := ∀ k < 256, s.isOpen k = true → DescriptorValid s g k

theorem isOpen_table (h : s'.fdTable = s.fdTable) (k : ℕ) : s'.isOpen k = s.isOpen k := by
  rw [F19FS.isOpen, F19FS.isOpen, h]

theorem descriptor_table (h : s'.fdTable = s.fdTable) (k : ℕ) : s'.descriptor k = s.descriptor k := by
  rw [F19FS.descriptor, F19FS.descriptor, h]

/-- A call that leaves the table alone, and the files that are open. -/
theorem DescriptorsValid.table {c : Call} (h : DescriptorsValid s g) (hc : call s c = some (ret,s'))
    (hnone : openTarget s c = none) (ht : s'.fdTable = s.fdTable)
    (hstay : ∀ k < 256, s.isOpen k = true → FileStays s.image s'.image (s.descriptor k).inodeNum.toNat) :
    DescriptorsValid s' (origin s g c) := by
  intro k hk ho
  rw [isOpen_table ht] at ho
  exact (h k hk ho).kept hc (Or.inl hnone) (descriptor_table ht k) (hstay k hk ho)

/-- A call that stores the record of its own descriptor at most. -/
theorem DescriptorsValid.stored {c : Call} {fd : ℤ} {d : FileDescriptor} (h : DescriptorsValid s g)
    (hc : call s c = some (ret,s')) (hnone : openTarget s c = none) (hfd : fd.toNat < 256)
    (hs : s' = F19FS.mk s.image (putDescriptor s.fdTable fd.toNat d)) (hnum : d.inodeNum = (s.descriptor fd.toNat).inodeNum)
    (hoff : d.locateOffset.toNat < 1024) (hpos : d.position ≤ (s.inode (s.descriptor fd.toNat).inodeNum.toNat).fileSize.toNat) :
    DescriptorsValid s' (origin s g c) := by
  intro k hk ho
  have hopen : s'.isOpen k = s.isOpen k := by
    rw [hs]
    exact isOpen_putDescriptor s.image hfd
  have hd : s'.descriptor k = if fd.toNat = k then d else s.descriptor k := by
    rw [hs]
    exact descriptor_putDescriptor s.image
  have hv := h k hk (hopen.symm.trans ho)
  have him : s'.image = s.image := by rw [hs]
  by_cases hfk : fd.toNat = k
  · rw [if_pos hfk] at hd
    subst hfk
    exact hv.moved hc (Or.inl hnone) him (by rw [hd, hnum]) (by rwa [hd]) (by rwa [hd])
  · rw [if_neg hfk] at hd
    exact hv.moved hc (Or.inl hnone) him (by rw [hd]) (by rw [hd]; exact hv.offset) (by rw [hd]; exact hv.position)

theorem DescriptorsValid.same {c : Call} (h : DescriptorsValid s g) (hc : call s c = some (ret,s))
    (hnone : openTarget s c = none) : DescriptorsValid s (origin s g c) :=
  h.table hc hnone rfl (fun k hk ho => FileStays.refl (h k hk ho).used (h k hk ho).fileType)

theorem openTarget_splits {path : PathArg} {tokens : List CStr} (hsp : splitPath path.chars = some (some tokens))
    (hval : tokens.all isValidFileName = true) (hcount : (walk s.image tokens).indicator = tokens.length) :
    openTarget s (.openFile (some path)) = some (walk s.image tokens).inodeID := by
  simp only [openTarget, hsp, hval, if_true]
  exact if_pos hcount

theorem openFile_valid {path : Option PathArg} (h : DescriptorsValid s g) (hg : DescriptorKept s (.openFile path))
    (hc : call s (.openFile path) = some (ret,s')) : DescriptorsValid s' (origin s g (.openFile path)) := by
  rcases fsOpen_cases hc with ⟨rfl,rfl⟩ | ⟨p,tokens,hp,_,hsp,hval,hcount,hlt,hcase⟩
  · exact fun k hk ho => (h k hk ho).kept hc (Or.inr (by omega)) rfl (FileStays.refl (h k hk ho).used (h k hk ho).fileType)
  obtain ⟨path,rfl,rfl⟩ := Option.map_eq_some_iff.mp hp
  have htarget := openTarget_splits hsp hval hcount
  obtain ⟨_,hfree,_⟩ := (firstFreeSlot_spec s.image s.fdTable).resolve_left (fun he => by
    rw [he] at hlt
    exact absurd hlt (by decide))
  obtain ⟨hused,hreg⟩ := hg _ htarget ⟨_,hlt,hfree⟩
  rcases hcase with ⟨_,hdir,_⟩ | ⟨rfl,_,hs'⟩
  · rw [hreg] at hdir
    exact absurd hdir (by decide)
  have him : s'.image = s.image := by rw [hs']
  intro k hk ho
  by_cases hfk : firstFreeSlot s.fdTable = k
  · have hd : s'.descriptor k = ⟨UInt8.ofNat (walk s.image tokens).inodeID,1,0,0⟩ := by
      rw [hs', descriptor_putDescriptor, if_pos hfk]
    have hnum : (s'.descriptor k).inodeNum.toNat = (walk s.image tokens).inodeID := by
      rw [hd]
      exact (UInt8.toNat_ofNat' ).trans (Nat.mod_eq_of_lt (walk_lt s.image tokens))
    have hopened : (origin s g (.openFile (some path))).opened k =
        ((walk s.image tokens).inodeID,g.births (walk s.image tokens).inodeID) := by
      simp [origin, htarget, hc, hfk]
    refine ⟨by rw [hnum, hopened],by rw [hopened, origin_births hused],?_,?_,?_,?_⟩
    · rw [hnum, him, hused]
    · rw [hnum, F19FS.inode, him]
      exact hreg
    · rw [hd]
      exact show (0 : ℕ) < 1024 by decide
    · rw [hd]
      exact (FileDescriptor.rewound_position ⟨UInt8.ofNat (walk s.image tokens).inodeID,1,0,0⟩).le.trans (Nat.zero_le _)
  · have hopen : s'.isOpen k = s.isOpen k := by
      rw [hs', isOpen_putDescriptor _ hlt, isOpen_setOpen, decide_eq_false hfk, Bool.false_or]
    have hd : s'.descriptor k = s.descriptor k := by
      rw [hs', descriptor_putDescriptor, if_neg hfk]
      exact descriptor_setOpen s.image hk
    have hv := h k hk (hopen.symm.trans ho)
    refine hv.kept hc (Or.inr (fun he => hfk (Int.ofNat_inj.mp he))) hd ?_
    rw [him]
    exact FileStays.refl hv.used hv.fileType

theorem close_valid {fd : ℤ} (h : DescriptorsValid s g) (hc : call s (.close fd) = some (ret,s')) :
    DescriptorsValid s' (origin s g (.close fd)) := by
  have he : fsClose s fd = (ret,s') := Option.some.inj hc
  rcases fsClose_cases s fd with ⟨hf,_⟩ | ⟨hf,_⟩
  · cases hf.symm.trans he
    exact h.same hc rfl
  · cases hf.symm.trans he
    intro k hk ho
    rw [isOpen_clearOpen] at ho
    have hv := h k hk (Bool.and_eq_true_iff.mp ho).2
    exact hv.kept hc (Or.inl rfl) (descriptor_clearOpen s.image hk) (FileStays.refl hv.used hv.fileType)

/-- The bytes that a read gives are inside the file. -/
theorem read_inside {fd : ℤ} {nbyte : UInt64} {bytes : List UInt8} (hi : ImageInv s.image)
    (hfile : (s.inode (s.fileOf fd)).fileType ≠ typeDirectory) (hoff : (s.descriptor fd.toNat).locateOffset.toNat ≤ 1024)
    (hpos : (s.descriptor fd.toNat).position ≤ (s.inode (s.fileOf fd)).fileSize.toNat) (hg : ReadsInside s fd nbyte)
    (hr : readFrom s.image (s.inode (s.fileOf fd)) (s.descriptor fd.toNat).locateOrder.toNat
      (s.descriptor fd.toNat).locateOffset.toNat (readCount (s.descriptor fd.toNat)
        (s.inode (s.fileOf fd)).fileSize.toNat nbyte.toNat) = some bytes) :
    (s.descriptor fd.toNat).position + bytes.length ≤ (s.inode (s.fileOf fd)).fileSize.toNat := by
  have hid : ∀ n, nodePtr s.image (s.inode (s.fileOf fd)) n ≤ 65528 := hi.sound.nodePtr_le (i := s.fileOf fd) hfile
  have hout := readFrom_outcome hid (UInt16.toNat_lt (s.descriptor fd.toNat).locateOrder) hoff
    (n := readCount (s.descriptor fd.toNat) (s.inode (s.fileOf fd)).fileSize.toNat nbyte.toNat)
    (readCount_lt (UInt64.toNat_lt nbyte))
  rw [hr] at hout
  cases hout with
  | read hreads =>
    rcases hg with hcut | ⟨c,hz,hle,hc⟩
    · have hlen := hreads.length_le
      rw [readCount_eq hpos (UInt64.toNat_lt nbyte) hcut] at hlen
      omega
    · have hlen := hreads.length_le_of_hole hoff hle hz
      have hp : (s.descriptor fd.toNat).position =
        (s.descriptor fd.toNat).locateOrder.toNat * 1024 + (s.descriptor fd.toNat).locateOffset.toNat := rfl
      rcases hc with hc | hc
      · rw [hc] at hlen
        omega
      · omega

theorem read_valid {fd : ℤ} {dstNull : Bool} {nbyte : UInt64} (hi : ImageInv s.image) (h : DescriptorsValid s g)
    (hg : DescriptorKept s (.read fd dstNull nbyte)) (hc : call s (.read fd dstNull nbyte) = some (ret,s')) :
    DescriptorsValid s' (origin s g (.read fd dstNull nbyte)) := by
  obtain ⟨⟨_,bytes,_⟩,hr,he⟩ := Option.map_eq_some_iff.mp hc
  cases he
  by_cases ho : s.Opened fd
  swap
  · obtain ⟨r,_,he⟩ := fsRead_closed ho dstNull nbyte
    cases he.symm.trans hr
    exact h.same hc rfl
  cases dstNull with
  | true =>
    cases (fsRead_null s fd nbyte).symm.trans hr
    exact h.same hc rfl
  | false =>
    by_cases hn : nbyte = 0
    · subst hn
      cases (fsRead_nothing ho).symm.trans hr
      exact h.same hc rfl
    · rw [fsRead_opened ho hn] at hr
      obtain ⟨bs,hread,he⟩ := Option.map_eq_some_iff.mp hr
      cases he
      have hv := h _ ho.lt ho.2.2
      have hfile : (s.inode (s.fileOf fd)).fileType ≠ typeDirectory := by
        rw [show (s.inode (s.fileOf fd)).fileType = typeRegular from hv.fileType]
        decide
      refine h.stored hc rfl ho.lt (storeDescriptor_eq ho.lt) (updateFD_inodeNum _ _) (updateFD_offset hv.offset.le _) ?_
      rw [updateFD_position hv.offset.le]
      exact (Nat.mod_le _ _).trans (read_inside hi hfile hv.offset.le hv.position (hg ho rfl) hread)

/-- A negative count leaves a cursor at the start of the file in the first block. -/
theorem updateFD_negative {d : FileDescriptor} {n : ℤ} (hn : n < 0) (h : n % 65536 ≤ 1024) :
    (updateFD d.rewound n).locateOffset.toNat < 1024 ∧ (updateFD d.rewound n).position ≤ 1024 := by
  have hz : d.rewound.locateOffset.toNat = 0 := rfl
  have hoff : (UInt16.ofInt (((0 : ℕ) : ℤ) + n)).toNat = (n % 65536).toNat := by
    rw [UInt16.ofInt, UInt16.toNat_ofNat']
    omega
  rw [FileDescriptor.position, updateFD]
  simp only [hz]
  rw [if_pos (show (((65536 + 1024 - 0) % 65536 : ℕ) : ℤ) ≥ n by omega)]
  split_ifs with hfull
  · exact ⟨show (0 : ℕ) < 1024 by decide,(show (UInt16.ofInt (0 + 1)).toNat * 1024 + 0 ≤ 1024 by decide)⟩
  · have hne : (n % 65536).toNat ≠ 1024 := by
      intro he
      exact hfull (UInt16.toNat_inj.mp (hoff.trans he))
    have horder : d.rewound.locateOrder.toNat = 0 := rfl
    simp only [hoff, horder]
    omega

theorem seek_valid {fd : ℤ} {offset : Int64} {whence : SeekT} (h : DescriptorsValid s g)
    (hg : DescriptorKept s (.seek fd offset whence)) (hc : call s (.seek fd offset whence) = some (ret,s')) :
    DescriptorsValid s' (origin s g (.seek fd offset whence)) := by
  have hs : fsSeek s fd offset whence = some (ret,s') := hc
  by_cases ho : s.Opened fd
  swap
  · obtain ⟨r,_,he⟩ := fsSeek_closed ho offset whence
    cases he.symm.trans hs
    exact h.same hc rfl
  by_cases hw : whence = .invalid
  · subst hw
    cases (fsSeek_invalid ho offset).symm.trans hs
    exact h.same hc rfl
  rw [fsSeek_opened ho offset hw] at hs
  obtain ⟨t,ht,he⟩ := Option.map_eq_some_iff.mp hs
  cases he
  have hin : SeeksInside (s.inode (s.fileOf fd)).fileSize.toNat t := hg ho hw t ht
  have hsize := UInt64.toNat_lt (s.inode (s.fileOf fd)).fileSize
  have hz : (s.descriptor fd.toNat).rewound.locateOffset.toNat ≤ 1024 := Nat.zero_le _
  have hcut : (updateFD (s.descriptor fd.toNat).rewound (cutBoundary (s.inode (s.fileOf fd)).fileSize.toNat t)).locateOffset.toNat
      < 1024 ∧ (updateFD (s.descriptor fd.toNat).rewound (cutBoundary (s.inode (s.fileOf fd)).fileSize.toNat t)).position ≤
        (s.inode (s.fileOf fd)).fileSize.toNat := by
    generalize (s.inode (s.fileOf fd)).fileSize.toNat = size at *
    by_cases hneg : cutBoundary size t < 0
    · have hback : (size : ℤ).bmod (2 ^ 32) < 0 ∧ (size : ℤ).bmod (2 ^ 32) % 65536 ≤ 1024 ∧
          cutBoundary size t = (size : ℤ).bmod (2 ^ 32) := by
        unfold SeeksInside at hin
        unfold cutBoundary at hneg ⊢
        simp only at hneg ⊢
        split_ifs at hneg ⊢ <;> omega
      have hlarge : 1024 ≤ size := by
        by_contra hlt
        rw [Int.bmod_eq_of_le (by omega) (by omega)] at hback
        omega
      rw [hback.2.2]
      obtain ⟨hoff,hpos⟩ := updateFD_negative (d := s.descriptor fd.toNat) hback.1 hback.2.1
      exact ⟨hoff,hpos.trans hlarge⟩
    · obtain ⟨v,hv⟩ := Int.eq_ofNat_of_zero_le (not_lt.mp hneg)
      have hle : v ≤ size := by
        have hb : (size : ℤ).bmod (2 ^ 32) ≤ size := by
          simp only [Int.bmod]
          split_ifs <;> omega
        unfold cutBoundary at hv
        simp only at hv
        split_ifs at hv <;> omega
      rw [hv, updateFD_position hz, FileDescriptor.rewound_position, Nat.zero_add]
      exact ⟨updateFD_offset hz v,(Nat.mod_le _ _).trans hle⟩
  exact h.stored hc rfl ho.lt (storeDescriptor_eq ho.lt) (updateFD_inodeNum _ _) hcut.1 hcut.2

theorem WriteDone.marks {fd : ℤ} {src m' : Mem} {nbyte : UInt64} {r sum j : ℕ} {x' : Inode}
    (hd : WriteDone s fd src nbyte r sum m' x' s') (hj : j < 256) :
    inodeUsed s'.image j = inodeUsed s.image j ∧ (s'.inode j).fileType = (s.inode j).fileType := by
  refine ⟨?_,?_⟩
  · rw [hd.image, inodeUsed_putInode hj, hd.effect.ext.inodeBits j hj]
  · rw [F19FS.inode, hd.image, inodeAt_putInode]
    split_ifs with hij
    · have ht : x'.fileType = (s.inode (s.fileOf fd)).fileType := attributes_fileType hd.effect.ext.attrs
      rw [← hij]
      exact ht
    · rw [hd.effect.ext.inodes j hj]
      rfl

theorem write_valid {fd : ℤ} {src : Option Mem} {nbyte : UInt64} (hi : ImageInv s.image) (h : DescriptorsValid s g)
    (hsafe : WriteSafe s fd nbyte) (hg : DescriptorKept s (.write fd src nbyte))
    (hc : call s (.write fd src nbyte) = some (ret,s')) : DescriptorsValid s' (origin s g (.write fd src nbyte)) := by
  have hw : fsWrite s fd src nbyte = some (ret,s') := hc
  by_cases ho : s.Opened fd
  swap
  · obtain ⟨r,_,he⟩ := fsWrite_closed ho src nbyte
    cases he.symm.trans hw
    exact h.same hc rfl
  cases src with
  | none =>
    cases hw
    exact h.same hc rfl
  | some src =>
    have hfd := h _ ho.lt ho.2.2
    rcases fsWrite_done hi hsafe hfd.offset.le hw with ⟨_,_,hno⟩ | ⟨r,sum,m',x',rfl,hd⟩
    · exact absurd ho hno
    have hroom := hg ho rfl
    have hr : r ≤ min nbyte.toNat 67116032 :=
      le_min (hd.count_le.trans hd.effect.sumLe) ((Nat.le_add_left _ _).trans (hd.end_bound hfd.offset.le))
    have hsize : (s'.inode (s.fileOf fd)).fileSize.toNat = (s.inode (s.fileOf fd)).fileSize.toNat + r := by
      rw [hd.inode_eq (s.fileOf fd).isLt, if_pos rfl, UInt64.toNat_add, UInt64.toNat_ofNat']
      omega
    have hgrow : ∀ j < 256, (s.inode j).fileSize.toNat ≤ (s'.inode j).fileSize.toNat := by
      intro j hj
      by_cases hij : (s.fileOf fd).val = j
      · rw [← hij, hsize]
        exact Nat.le_add_right _ _
      · rw [hd.inode_eq hj, if_neg hij]
    intro k hk hok
    have hslot : s'.isOpen k = s.isOpen k ∧ (s'.descriptor k = s.descriptor k ∨
        fd.toNat = k ∧ s'.descriptor k = updateFD (s.descriptor k) r) := by
      obtain ⟨m,t⟩ := s'
      rcases hd.table with ht | ⟨_,ht⟩
      · have ht : t = putDescriptor s.fdTable fd.toNat (updateFD (s.descriptor fd.toNat) r) := ht
        subst ht
        refine ⟨isOpen_putDescriptor m ho.lt,?_⟩
        rw [descriptor_putDescriptor]
        split_ifs with hfk
        · rw [hfk]
          exact Or.inr ⟨rfl,rfl⟩
        · exact Or.inl rfl
      · exact ⟨isOpen_table ht k,Or.inl (descriptor_table ht k)⟩
    have hv := h k hk (hslot.1.symm.trans hok)
    have hlt : (s.descriptor k).inodeNum.toNat < 256 := UInt8.toNat_lt _
    obtain ⟨hused,htype⟩ := hd.marks hlt
    rcases hslot.2 with hsame | ⟨rfl,hmoved⟩
    · refine hv.step hc (Or.inl rfl) (by rw [hsame]) (hused.trans hv.used) (htype.trans hv.fileType) ?_ ?_
      · rw [hsame]
        exact hv.offset
      · rw [hsame]
        exact hv.position.trans (hgrow _ hlt)
    · refine hv.step hc (Or.inl rfl) (by rw [hmoved, updateFD_inodeNum]) (hused.trans hv.used) (htype.trans hv.fileType) ?_ ?_
      · rw [hmoved]
        exact updateFD_offset hv.offset.le r
      · rw [hmoved, updateFD_position hv.offset.le]
        refine (Nat.mod_le _ _).trans ?_
        have hend := Nat.add_le_add_right hv.position r
        exact hend.trans hsize.ge

/-- One call keeps the descriptors valid. -/
theorem step_valid {c : Call} (hi : ImageInv s.image) (h : DescriptorsValid s g) (hsafe : Safe s c)
    (hg : DescriptorKept s c) (hc : call s c = some (ret,s')) : DescriptorsValid s' (origin s g c) := by
  have hlt : ∀ k, (s.descriptor k).inodeNum.toNat < 256 := fun k => UInt8.toNat_lt _
  cases c with
  | openFile path => exact openFile_valid h hg hc
  | close fd => exact close_valid h hc
  | read fd dstNull nbyte => exact read_valid hi h hg hc
  | write fd src nbyte => exact write_valid hi h hsafe hg hc
  | seek fd offset whence => exact seek_valid h hg hc
  | create path type =>
    have ht : s'.fdTable = s.fdTable := by
      rcases fsCreate_cases hc with ⟨_,rfl⟩ | ⟨_,_,_,_,_,_,_,_,_,_,ht⟩
      · rfl
      · exact ht
    exact h.table hc rfl ht (fun k hk ho => fsCreate_stays hi (hlt k) (h k hk ho).used (h k hk ho).fileType hc)
  | remove path =>
    have ht : s'.fdTable = s.fdTable := by
      rcases fsRemove_cases hc with ⟨_,rfl⟩ | ⟨_,_,_,_,_,_,ht⟩
      · rfl
      · exact ht
    refine h.table hc rfl ht (fun k hk ho => ?_)
    have hblock : ∀ p ∈ pathOf path, RemoveSafe s.image p := by
      intro p hp
      obtain ⟨a,ha,rfl⟩ := mem_pathOf hp
      exact hsafe a ha
    rcases fsRemove_stays hi (hlt k) (h k hk ho).used (h k hk ho).fileType hblock hc with ⟨p,hp,hf⟩ | hstay
    · obtain ⟨a,ha,rfl⟩ := mem_pathOf hp
      exact absurd hf (hg a ha k hk ho)
    · exact hstay
  | move src dst junk =>
    refine h.table hc rfl (fsMove_table hc) (fun k hk ho => ?_)
    refine fsMove_stays hi (nulFree_pathOf src) (nulFree_pathOf dst) (fun p hp q hq => ?_) (hlt k) (h k hk ho).used
      (h k hk ho).fileType hc
    obtain ⟨a,ha,rfl⟩ := mem_pathOf hp
    obtain ⟨b,hb,rfl⟩ := mem_pathOf hq
    exact hsafe a ha b hb
  | link src dst =>
    have hl := Option.some.inj hc
    refine h.table hc rfl (fsLink_table hl) (fun k hk ho => ?_)
    refine fsLink_stays hi (fun p hp q hq => ?_) (hlt k) (h k hk ho).used (h k hk ho).fileType hl
    obtain ⟨a,ha,rfl⟩ := mem_pathOf hp
    obtain ⟨b,hb,rfl⟩ := mem_pathOf hq
    exact hsafe a ha b hb
  | remount =>
    intro k hk ho
    cases hc
    rw [F19FS.isOpen, fsMount, bitmapTest] at ho
    simp [blockStoreFdCreate, zeros] at ho

theorem fsFormat_closed (k : ℕ) : fsFormat.isOpen k = false := by
  rw [F19FS.isOpen, show fsFormat.fdTable = blockStoreFdCreate from rfl, bitmapTest]
  simp [blockStoreFdCreate, zeros]

end Step

/-- In every state that safe calls lead to which keep the descriptors on their files, each open descriptor refers to
an allocated regular file, the very one that it was opened on, and its cursor is inside that file. -/
theorem descriptors_valid {s : F19FS} {g : Origins}
    (h : Reach (ghost step origin) (fun q c => Safe q.1 c ∧ DescriptorKept q.1 c) (fsFormat,noOrigins) (s,g)) :
    ∀ k < 256, s.isOpen k = true → DescriptorValid s g k := by
  have hinv : ImageInv s.image ∧ DescriptorsValid s g := by
    refine h.invariant (P := fun q => ImageInv q.1.image ∧ DescriptorsValid q.1 q.2)
      ⟨fsFormat_inv,fun k _ ho => absurd ho (by rw [fsFormat_closed]; decide)⟩ (fun {q q' c} hp hg hs => ?_)
    obtain ⟨hstep,hn⟩ := of_ghost hs
    obtain ⟨ret,hc⟩ := step_call hstep
    rw [hn]
    exact ⟨(step_inv hp.1 hg.1 hstep).1,step_valid hp.1 hp.2 hg.1 hg.2 hc⟩
  exact hinv.2

theorem descriptors_valid_open : ∃ s s' g, run step fsFormat [.create (pathArg ['/','a']) .regular] = some s ∧
    step s (.openFile (pathArg ['/','a'])) = some s' ∧ s'.isOpen 0 = true ∧ DescriptorValid s' g 0 := by
  have hrun : ((run step fsFormat [.create (pathArg ['/','a']) .regular]).bind fun s =>
      (step s (.openFile (pathArg ['/','a']))).map fun s' =>
        decide (openTarget s (.openFile (pathArg ['/','a'])) = some 1) && inodeUsed s.image 1 &&
        decide ((s.inode 1).fileType = typeRegular) && s'.isOpen 0) = some true := by
    decide +kernel
  obtain ⟨s,hs,ho⟩ := Option.bind_eq_some_iff.mp hrun
  obtain ⟨s',ho,hr⟩ := Option.map_eq_some_iff.mp ho
  simp only [Bool.and_eq_true, decide_eq_true_eq] at hr
  obtain ⟨⟨⟨htarget,hused⟩,hreg⟩,hopen⟩ := hr
  obtain ⟨s₁,h₁,he⟩ := run_cons.mp hs
  cases he
  have hstart : Reach (ghost step origin) (fun q c => Safe q.1 c ∧ DescriptorKept q.1 c) (fsFormat,noOrigins)
      (fsFormat,noOrigins) := Reach.refl
  have hfirst : Safe fsFormat (.create (pathArg ['/','a']) .regular) ∧
      DescriptorKept fsFormat (.create (pathArg ['/','a']) .regular) := ⟨trivial,trivial⟩
  have hmade := hstart.tail_ghost hfirst h₁
  have hsecond : Safe s (.openFile (pathArg ['/','a'])) ∧ DescriptorKept s (.openFile (pathArg ['/','a'])) := by
    refine ⟨trivial,fun i hi _ => ?_⟩
    cases htarget.symm.trans hi
    exact ⟨hused,hreg⟩
  have hopened := hmade.tail_ghost hsecond ho
  exact ⟨s,s',_,hs,ho,hopen,descriptors_valid hopened 0 (by decide) hopen⟩

/-- The descriptor of a file that was removed refers to the file that is created next. -/
theorem descriptors_valid_fails : ¬ ∀ s g, Reach (ghost step origin) (fun _ _ => True) (fsFormat,noOrigins) (s,g) →
    ∀ k < 256, s.isOpen k = true → DescriptorValid s g k := by
  intro hall
  have hrun : (run (ghost step origin) (fsFormat,noOrigins) [.create (pathArg ['/','a']) .regular,
      .openFile (pathArg ['/','a']),.remove (pathArg ['/','a']),.create (pathArg ['/','b']) .regular]).map (fun q =>
        q.1.isOpen 0 && decide (q.2.opened 0 = (1,1)) && decide (q.2.births 1 = 2)) = some true := by
    decide +kernel
  obtain ⟨⟨s,g⟩,hs,hr⟩ := Option.map_eq_some_iff.mp hrun
  simp only [Bool.and_eq_true, decide_eq_true_eq] at hr
  obtain ⟨⟨hopen,hfile⟩,hbirths⟩ := hr
  have hlife := (hall s g (reach_of_run hs) 0 (by decide) hopen).life
  rw [hfile, hbirths] at hlife
  exact absurd hlife (by decide)

end LiteOSFS
