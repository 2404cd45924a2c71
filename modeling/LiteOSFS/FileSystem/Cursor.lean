import LiteOSFS.FileSystem.State
import LiteOSFS.Storage.Image

/-! # The cursor of a descriptor and fs_seek -/
namespace LiteOSFS
open Memory

/-- `updateFD`: 16-bit fields, a signed 64-bit count. -/
def updateFD (fd : FileDescriptor) (nbyte : ℤ) : FileDescriptor :=
  let blankSpace : ℕ := (65536 + 1024 - fd.locateOffset.toNat) % 65536
  if (blankSpace : ℤ) ≥ nbyte then
    let offset := UInt16.ofInt (fd.locateOffset.toNat + nbyte)
    if offset = 1024 then
      { fd with locateOrder := UInt16.ofInt (fd.locateOrder.toNat + 1), locateOffset := 0 }
    else { fd with locateOffset := offset }
  else
    let nbyte := nbyte - blankSpace
    { fd with
      locateOrder := UInt16.ofInt (fd.locateOrder.toNat + 1 + nbyte.tdiv 1024)
      locateOffset := UInt16.ofInt (nbyte.tmod 1024) }

/-- `cutBoundary`, whose first parameter is an `int`. -/
def cutBoundary (fileSize : ℕ) (offset : ℤ) : ℤ :=
  let fileSize : ℤ := (fileSize : ℤ).bmod (2 ^ 32)
  if offset ≤ 0 then 0 else if offset > fileSize then fileSize else offset

def getPreviosOffset (fd : FileDescriptor) : ℕ :=
  let location := fd.locateOrder.toNat
  let offset := fd.locateOffset.toNat
  if location = 0 then offset
  else if offset ≠ 0 then (location - 1) * 1024 + offset
  else location * 1024

/-- The byte at which the cursor stands. -/
def FileDescriptor.position (fd : FileDescriptor) : ℕ := fd.locateOrder.toNat * 1024 + fd.locateOffset.toNat

/-- `bitmap_test(block_store_get_bm(fs->BlockStore_fd), fd)`. -/
def F19FS.isOpen (s : F19FS) (fd : ℕ) : Bool := bitmapTest s.fdTable fdStore.fbm fd

/-- The descriptor in slot `fd`. -/
def F19FS.descriptor (s : F19FS) (fd : ℕ) : FileDescriptor :=
  FileDescriptor.ofBytes (window s.fdTable (fd * 6) 6)

/-- The inode record in slot `i` of the table. -/
def F19FS.inode (s : F19FS) (i : ℕ) : Inode := inodeAt s.image i

def F19FS.storeDescriptor (s : F19FS) (fd : ℕ) (d : FileDescriptor) : F19FS :=
  { s with fdTable := (blockStoreFdWrite s.fdTable fdStore fd d).2 }

/-- The target of a seek before it is cut; `none` is the overflow of a signed addition. Adding an
`off_t` to a `size_t` wraps. -/
def seekTarget (fd : FileDescriptor) (fileSize : ℕ) (offset : ℤ) : SeekT → Option ℤ
  | .set => some offset
  | .cur =>
    let sum := offset + getPreviosOffset fd
    if sum < 2 ^ 63 then some sum else none
  | .tail => some ((offset + fileSize).bmod (2 ^ 64))
  | .invalid => some 0

def fsSeek (s : F19FS) (fd : ℤ) (offset : Int64) (whence : SeekT) : Option (ℤ × F19FS) :=
  if fd < 0 ∨ fd ≥ 256 then some (-1,s)
  else if !s.isOpen fd.toNat then some (-2,s)
  else if whence = .invalid then some (-3,s)
  else
    let d := s.descriptor fd.toNat
    let fileSize := (s.inode d.inodeNum.toNat).fileSize.toNat
    match seekTarget d fileSize offset.toInt whence with
    | none => none
    | some target =>
      let offset := cutBoundary fileSize target
      let d := updateFD { d with locateOrder := 0, locateOffset := 0 } offset
      some (offset,s.storeDescriptor fd.toNat d)

/-- A size of less than 2 GiB is not changed by the `int`. -/
theorem cutBoundary_of_small {fileSize : ℕ} (h : fileSize < 2 ^ 31) (offset : ℤ) :
    ∃ v ≤ fileSize, cutBoundary fileSize offset = (v : ℤ) := by
  have hf : (fileSize : ℤ).bmod (2 ^ 32) = fileSize := by
    simp only [Int.bmod]
    split_ifs <;> omega
  refine ⟨(max 0 (min offset fileSize)).toNat,by omega,?_⟩
  simp only [cutBoundary, hf]
  split_ifs <;> omega

theorem ofInt_natCast (k : ℕ) : UInt16.ofInt (k : ℤ) = UInt16.ofNat k := by
  apply UInt16.toNat_inj.mp
  rw [UInt16.ofInt, UInt16.toNat_ofNat', UInt16.toNat_ofNat']
  omega

/-- Advancing a cursor by a count. -/
theorem updateFD_eq {fd : FileDescriptor} (ho : fd.locateOffset.toNat ≤ 1024) (n : ℕ) :
    updateFD fd n = { fd with
      locateOrder := UInt16.ofNat ((fd.position + n) / 1024)
      locateOffset := UInt16.ofNat ((fd.position + n) % 1024) } := by
  have hp : fd.position = fd.locateOrder.toNat * 1024 + fd.locateOffset.toNat := rfl
  have hblank : (65536 + 1024 - fd.locateOffset.toNat) % 65536 = 1024 - fd.locateOffset.toNat := by omega
  rw [updateFD]
  simp only [hblank]
  by_cases hn : ((1024 - fd.locateOffset.toNat : ℕ) : ℤ) ≥ n
  · have hsum : (fd.locateOffset.toNat : ℤ) + n = ((fd.locateOffset.toNat + n : ℕ) : ℤ) := by push_cast; rfl
    rw [if_pos hn, hsum, ofInt_natCast]
    by_cases hfull : fd.locateOffset.toNat + n = 1024
    · have horder : (fd.locateOrder.toNat : ℤ) + 1 = ((fd.locateOrder.toNat + 1 : ℕ) : ℤ) := by push_cast; rfl
      rw [hfull, if_pos (show UInt16.ofNat 1024 = 1024 from rfl), horder, ofInt_natCast, show (fd.position + n) / 1024 = fd.locateOrder.toNat + 1 by omega,
        show (fd.position + n) % 1024 = 0 by omega]
      rfl
    · have hne : UInt16.ofNat (fd.locateOffset.toNat + n) ≠ 1024 := by
        intro he
        have ht := congrArg UInt16.toNat he
        rw [UInt16.toNat_ofNat', Nat.mod_eq_of_lt (by omega)] at ht
        exact hfull ht
      rw [if_neg hne, show (fd.position + n) / 1024 = fd.locateOrder.toNat by omega,
        show (fd.position + n) % 1024 = fd.locateOffset.toNat + n by omega, UInt16.ofNat_toNat]
  · obtain ⟨k,hk⟩ : ∃ k : ℕ, n = (1024 - fd.locateOffset.toNat) + k := ⟨n - (1024 - fd.locateOffset.toNat),by omega⟩
    have hrest : (n : ℤ) - ((1024 - fd.locateOffset.toNat : ℕ) : ℤ) = (k : ℤ) := by omega
    have hdiv : (k : ℤ).tdiv 1024 = ((k / 1024 : ℕ) : ℤ) := rfl
    have hmod : (k : ℤ).tmod 1024 = ((k % 1024 : ℕ) : ℤ) := rfl
    have horder : (fd.locateOrder.toNat : ℤ) + 1 + ((k / 1024 : ℕ) : ℤ) =
        ((fd.locateOrder.toNat + 1 + k / 1024 : ℕ) : ℤ) := by push_cast; rfl
    rw [if_neg hn, hrest, hdiv, hmod, horder, ofInt_natCast, ofInt_natCast,
      show (fd.position + n) / 1024 = fd.locateOrder.toNat + 1 + k / 1024 by omega,
      show (fd.position + n) % 1024 = k % 1024 by omega]

theorem updateFD_offset {fd : FileDescriptor} (ho : fd.locateOffset.toNat ≤ 1024) (n : ℕ) :
    (updateFD fd n).locateOffset.toNat < 1024 := by
  rw [updateFD_eq ho]
  simp only [UInt16.toNat_ofNat']
  omega

/-- The cursor has 26 bits. -/
theorem updateFD_position {fd : FileDescriptor} (ho : fd.locateOffset.toNat ≤ 1024) (n : ℕ) :
    (updateFD fd n).position = (fd.position + n) % (65536 * 1024) := by
  rw [updateFD_eq ho, FileDescriptor.position]
  simp only [UInt16.toNat_ofNat']
  generalize fd.position + n = p
  omega

end LiteOSFS
