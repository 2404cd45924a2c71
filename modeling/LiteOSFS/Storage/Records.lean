import LiteOSFS.Storage.Bitmap
import Mathlib.Data.Fintype.Basic
import Mathlib.Tactic.FinCases

/-! # The fixed-width records of the image

`struct inode` (64 bytes) and `struct fileDescriptor` (6 bytes) with the layout
that the compiler gives them on a 64-bit little-endian machine, and the entry
bitmap that overlays the first word of an inode.
-/
namespace LiteOSFS
open Memory

/-- `struct inode`; `pad` is the byte of padding before `inodeNumber`. -/
@[ext] structure Inode where
  vacantFile : UInt32
  owner : Fin 18 → UInt8
  fileType : UInt8
  pad : UInt8
  inodeNumber : UInt64
  fileSize : UInt64
  linkCount : UInt64
  directPointer : Fin 6 → UInt16
  indirectPointer : UInt16
  doubleIndirectPointer : UInt16

/-- `directPointer[0]`, which is all that a directory uses. -/
def firstDirect : Fin 6 := 0

/-- The file types that inodes hold: the characters `d` and `r`. -/
def typeDirectory : UInt8 := 100
def typeRegular : UInt8 := 114

/-- What `calloc` and `memset` to zero leave in an inode. -/
def Inode.cleared : Inode where
  vacantFile := 0
  owner _ := 0
  fileType := 0
  pad := 0
  inodeNumber := 0
  fileSize := 0
  linkCount := 0
  directPointer _ := 0
  indirectPointer := 0
  doubleIndirectPointer := 0

def Inode.ofBytes (b : Mem) : Inode where
  vacantFile := UInt32.ofNat (leNat b 0 4)
  owner k := b (4 + k)
  fileType := b 22
  pad := b 23
  inodeNumber := UInt64.ofNat (leNat b 24 8)
  fileSize := UInt64.ofNat (leNat b 32 8)
  linkCount := UInt64.ofNat (leNat b 40 8)
  directPointer k := UInt16.ofNat (leNat b (48 + 2 * k) 2)
  indirectPointer := UInt16.ofNat (leNat b 60 2)
  doubleIndirectPointer := UInt16.ofNat (leNat b 62 2)

def Inode.toBytes (x : Inode) : Mem := fun i =>
  if i < 4 then leByte x.vacantFile.toNat i
  else if h : i < 22 then x.owner ⟨i - 4,by omega⟩
  else if i < 23 then x.fileType
  else if i < 24 then x.pad
  else if i < 32 then leByte x.inodeNumber.toNat (i - 24)
  else if i < 40 then leByte x.fileSize.toNat (i - 32)
  else if i < 48 then leByte x.linkCount.toNat (i - 40)
  else if h : i < 60 then leByte (x.directPointer ⟨(i - 48) / 2,by omega⟩).toNat ((i - 48) % 2)
  else if i < 62 then leByte x.indirectPointer.toNat (i - 60)
  else leByte x.doubleIndirectPointer.toNat (i - 62)

private theorem ofNat_leNat_two {b : Mem} {off : ℕ} {v : UInt16}
    (h : ∀ k < 2, b (off + k) = leByte v.toNat k) : UInt16.ofNat (leNat b off 2) = v := by
  rw [leNat_of_leByte h, Nat.mod_eq_of_lt (by have := v.toNat_lt; omega), UInt16.ofNat_toNat]

private theorem ofNat_leNat_four {b : Mem} {off : ℕ} {v : UInt32}
    (h : ∀ k < 4, b (off + k) = leByte v.toNat k) : UInt32.ofNat (leNat b off 4) = v := by
  rw [leNat_of_leByte h, Nat.mod_eq_of_lt (by have := v.toNat_lt; omega), UInt32.ofNat_toNat]

private theorem ofNat_leNat_eight {b : Mem} {off : ℕ} {v : UInt64}
    (h : ∀ k < 8, b (off + k) = leByte v.toNat k) : UInt64.ofNat (leNat b off 8) = v := by
  rw [leNat_of_leByte h, Nat.mod_eq_of_lt (by have := v.toNat_lt; omega), UInt64.ofNat_toNat]

theorem Inode.ofBytes_congr {b c : Mem} (h : ∀ i < 64, b i = c i) : ofBytes b = ofBytes c := by
  have hl : ∀ off n, off + n ≤ 64 → leNat b off n = leNat c off n :=
    fun off n hn => leNat_congr (fun a _ ha => h a (by omega))
  have ho : (fun k : Fin 18 => b (4 + k)) = fun k : Fin 18 => c (4 + k) := funext (fun k => h _ (by omega))
  have hd : (fun k : Fin 6 => UInt16.ofNat (leNat b (48 + 2 * k) 2)) =
      fun k : Fin 6 => UInt16.ofNat (leNat c (48 + 2 * k) 2) := funext (fun k => by rw [hl _ _ (by omega)])
  rw [ofBytes, ofBytes, hl 0 4 (by omega), ho, h 22 (by omega), h 23 (by omega), hl 24 8 (by omega),
    hl 32 8 (by omega), hl 40 8 (by omega), hd, hl 60 2 (by omega), hl 62 2 (by omega)]

theorem Inode.toBytes_inodeNumber (x : Inode) {k : ℕ} (hk : k < 8) :
    x.toBytes (24 + k) = leByte x.inodeNumber.toNat k := by
  unfold toBytes
  rw [if_neg (by omega), dif_neg (by omega), if_neg (by omega), if_neg (by omega), if_pos (by omega),
    Nat.add_sub_cancel_left]

theorem Inode.toBytes_fileSize (x : Inode) {k : ℕ} (hk : k < 8) :
    x.toBytes (32 + k) = leByte x.fileSize.toNat k := by
  unfold toBytes
  rw [if_neg (by omega), dif_neg (by omega), if_neg (by omega), if_neg (by omega), if_neg (by omega),
    if_pos (by omega), Nat.add_sub_cancel_left]

theorem Inode.toBytes_linkCount (x : Inode) {k : ℕ} (hk : k < 8) :
    x.toBytes (40 + k) = leByte x.linkCount.toNat k := by
  unfold toBytes
  rw [if_neg (by omega), dif_neg (by omega), if_neg (by omega), if_neg (by omega), if_neg (by omega),
    if_neg (by omega), if_pos (by omega), Nat.add_sub_cancel_left]

theorem Inode.toBytes_directPointer (x : Inode) (j : Fin 6) {k : ℕ} (hk : k < 2) :
    x.toBytes (48 + 2 * j + k) = leByte (x.directPointer j).toNat k := by
  have hj : (⟨(48 + 2 * j + k - 48) / 2,by omega⟩ : Fin 6) = j := Fin.ext (by simp only; omega)
  unfold toBytes
  rw [if_neg (by omega), dif_neg (by omega), if_neg (by omega), if_neg (by omega), if_neg (by omega),
    if_neg (by omega), if_neg (by omega), dif_pos (by omega), hj,
    show (48 + 2 * j + k - 48) % 2 = k by omega]

theorem Inode.toBytes_indirectPointer (x : Inode) {k : ℕ} (hk : k < 2) :
    x.toBytes (60 + k) = leByte x.indirectPointer.toNat k := by
  unfold toBytes
  rw [if_neg (by omega), dif_neg (by omega), if_neg (by omega), if_neg (by omega), if_neg (by omega),
    if_neg (by omega), if_neg (by omega), dif_neg (by omega), if_pos (by omega), Nat.add_sub_cancel_left]

theorem Inode.toBytes_doubleIndirectPointer (x : Inode) {k : ℕ} (hk : k < 2) :
    x.toBytes (62 + k) = leByte x.doubleIndirectPointer.toNat k := by
  unfold toBytes
  rw [if_neg (by omega), dif_neg (by omega), if_neg (by omega), if_neg (by omega), if_neg (by omega),
    if_neg (by omega), if_neg (by omega), dif_neg (by omega), if_neg (by omega), Nat.add_sub_cancel_left]

theorem Inode.toBytes_owner (x : Inode) (k : Fin 18) : x.toBytes (4 + k) = x.owner k := by
  unfold toBytes
  rw [if_neg (by omega), dif_pos (by omega)]
  congr
  omega

/-- An inode read back is the inode that was stored. -/
@[simp] theorem Inode.ofBytes_toBytes (x : Inode) : ofBytes x.toBytes = x := by
  have hv : UInt32.ofNat (leNat x.toBytes 0 4) = x.vacantFile :=
    ofNat_leNat_four (fun k hk => by rw [Nat.zero_add, toBytes, if_pos hk])
  have hn : UInt64.ofNat (leNat x.toBytes 24 8) = x.inodeNumber :=
    ofNat_leNat_eight (fun _ hk => x.toBytes_inodeNumber hk)
  have hs : UInt64.ofNat (leNat x.toBytes 32 8) = x.fileSize :=
    ofNat_leNat_eight (fun _ hk => x.toBytes_fileSize hk)
  have hl : UInt64.ofNat (leNat x.toBytes 40 8) = x.linkCount :=
    ofNat_leNat_eight (fun _ hk => x.toBytes_linkCount hk)
  have hd : ∀ j : Fin 6, UInt16.ofNat (leNat x.toBytes (48 + 2 * j) 2) = x.directPointer j :=
    fun j => ofNat_leNat_two (fun _ hk => x.toBytes_directPointer j hk)
  have hi : UInt16.ofNat (leNat x.toBytes 60 2) = x.indirectPointer :=
    ofNat_leNat_two (fun _ hk => x.toBytes_indirectPointer hk)
  have hdd : UInt16.ofNat (leNat x.toBytes 62 2) = x.doubleIndirectPointer :=
    ofNat_leNat_two (fun _ hk => x.toBytes_doubleIndirectPointer hk)
  have ho : (fun k : Fin 18 => x.toBytes (4 + k)) = x.owner := funext x.toBytes_owner
  rw [ofBytes, hv, hn, hs, hl, hi, hdd, ho, funext hd]
  rfl

/-- The bytes of an inode that was read are the bytes it was read from. -/
theorem Inode.toBytes_ofBytes (b : Mem) {i : ℕ} (hi : i < 64) : (ofBytes b).toBytes i = b i := by
  have h2 : ∀ off k, k < 2 → leByte (UInt16.ofNat (leNat b off 2)).toNat k = b (off + k) := by
    intro off k hk
    have hlt := leNat_lt b off 2
    rw [UInt16.toNat_ofNat', Nat.mod_eq_of_lt (by omega), leByte_leNat hk]
  have h4 : ∀ off k, k < 4 → leByte (UInt32.ofNat (leNat b off 4)).toNat k = b (off + k) := by
    intro off k hk
    have hlt := leNat_lt b off 4
    rw [UInt32.toNat_ofNat', Nat.mod_eq_of_lt (by omega), leByte_leNat hk]
  have h8 : ∀ off k, k < 8 → leByte (UInt64.ofNat (leNat b off 8)).toNat k = b (off + k) := by
    intro off k hk
    have hlt := leNat_lt b off 8
    rw [UInt64.toNat_ofNat', Nat.mod_eq_of_lt (by omega), leByte_leNat hk]
  unfold toBytes ofBytes
  dsimp only
  split_ifs with h0 h1 h3 h5 h6 h7 h9 h10 h11
  · rw [h4 0 i h0, Nat.zero_add]
  · congr 1
    omega
  · congr 1
    omega
  · congr 1
    omega
  · rw [h8 _ _ (by omega)]
    congr 1
    omega
  · rw [h8 _ _ (by omega)]
    congr 1
    omega
  · rw [h8 _ _ (by omega)]
    congr 1
    omega
  · rw [h2 _ _ (by omega)]
    congr 1
    omega
  · rw [h2 _ _ (by omega)]
    congr 1
    omega
  · rw [h2 _ _ (by omega)]
    congr 1
    omega

/-- `struct fileDescriptor`. -/
@[ext] structure FileDescriptor where
  inodeNum : UInt8
  usage : UInt8
  locateOrder : UInt16
  locateOffset : UInt16

def FileDescriptor.ofBytes (b : Mem) : FileDescriptor where
  inodeNum := b 0
  usage := b 1
  locateOrder := UInt16.ofNat (leNat b 2 2)
  locateOffset := UInt16.ofNat (leNat b 4 2)

def FileDescriptor.toBytes (x : FileDescriptor) : Mem := fun i =>
  if i < 1 then x.inodeNum
  else if i < 2 then x.usage
  else if i < 4 then leByte x.locateOrder.toNat (i - 2)
  else leByte x.locateOffset.toNat (i - 4)

theorem FileDescriptor.ofBytes_congr {b c : Mem} (h : ∀ i < 6, b i = c i) : ofBytes b = ofBytes c := by
  have hl : ∀ off n, off + n ≤ 6 → leNat b off n = leNat c off n :=
    fun off n hn => leNat_congr (fun a _ ha => h a (by omega))
  rw [ofBytes, ofBytes, h 0 (by omega), h 1 (by omega), hl 2 2 (by omega), hl 4 2 (by omega)]

@[simp] theorem FileDescriptor.ofBytes_toBytes (x : FileDescriptor) : ofBytes x.toBytes = x := by
  apply FileDescriptor.ext
  · rfl
  · rfl
  · apply ofNat_leNat_two
    intro k hk
    unfold toBytes
    rw [if_neg (by omega), if_neg (by omega), if_pos (by omega), Nat.add_sub_cancel_left]
  · apply ofNat_leNat_two
    intro k hk
    unfold toBytes
    rw [if_neg (by omega), if_neg (by omega), if_neg (by omega), Nat.add_sub_cancel_left]

/-- The bytes of `vacantFile`, which `bitmap_overlay(NUM_OF_ENTRIES, &vacantFile)` points at. -/
def vacantBytes (v : UInt32) : Mem := fun i => if i < 4 then leByte v.toNat i else 0

def entryBitmap : Bitmap := ⟨0,31⟩

/-- `vacantFile` after its bytes were changed through the overlay. -/
def vacantOf (b : Mem) : UInt32 := UInt32.ofNat (leNat b 0 4)

/-- Slot `j` of a directory is in use. -/
def Inode.live (x : Inode) (j : ℕ) : Bool := bitmapTest (vacantBytes x.vacantFile) entryBitmap j

/-- The two ways in which the code reads an entry bit agree. -/
theorem Inode.live_eq (x : Inode) {j : ℕ} (h : j < 31) : x.live j = x.vacantFile.toNat.testBit j := by
  rw [live, bitmapTest_eq, vacantBytes, if_pos (by simp only [entryBitmap]; omega), entryBitmap,
    Nat.zero_add, leByte, UInt8.toNat_ofNat', Nat.testBit_mod_two_pow, show 256 = 2 ^ 8 from rfl,
    ← pow_mul, Nat.testBit_div_two_pow, decide_eq_true (Nat.mod_lt _ (by omega)), Bool.true_and]
  congr 1
  omega

theorem vacantBytes_vacantOf {b : Mem} {i : ℕ} (hi : i < 4) : vacantBytes (vacantOf b) i = b i := by
  have hlt := leNat_lt b 0 4
  rw [vacantBytes, if_pos hi, vacantOf, UInt32.toNat_ofNat', Nat.mod_eq_of_lt (by omega),
    leByte_leNat hi, Nat.zero_add]

/-- The bits of `vacantFile` are those of the bytes it was rebuilt from. -/
theorem bitmapTest_vacantOf (b : Mem) {j : ℕ} (h : j < 31) :
    bitmapTest (vacantBytes (vacantOf b)) entryBitmap j = bitmapTest b entryBitmap j :=
  bitmapTest_congr (vacantBytes_vacantOf (by simp only [entryBitmap]; omega))

/-- A block as an array of 512 block numbers, and back. -/
def pointersOf (b : Mem) : ℕ → UInt16 := fun j => UInt16.ofNat (leNat b (2 * j) 2)
def pointerBytes (p : ℕ → UInt16) : Mem := fun i => leByte (p (i / 2)).toNat (i % 2)

theorem pointersOf_congr {b c : Mem} {j : ℕ} (h0 : b (2 * j) = c (2 * j))
    (h1 : b (2 * j + 1) = c (2 * j + 1)) : pointersOf b j = pointersOf c j := by
  rw [pointersOf, pointersOf, leNat_congr]
  intro a ha ha'
  obtain rfl | rfl : a = 2 * j ∨ a = 2 * j + 1 := by omega
  · exact h0
  · exact h1

@[simp] theorem pointersOf_pointerBytes (p : ℕ → UInt16) (j : ℕ) : pointersOf (pointerBytes p) j = p j := by
  apply ofNat_leNat_two
  intro k hk
  rw [pointerBytes, show (2 * j + k) / 2 = j by omega, show (2 * j + k) % 2 = k by omega]

theorem pointerBytes_pointersOf (b : Mem) : pointerBytes (pointersOf b) = b := by
  funext i
  have hlt := leNat_lt b (2 * (i / 2)) 2
  rw [pointerBytes, pointersOf, UInt16.toNat_ofNat', Nat.mod_eq_of_lt (by omega), leByte_leNat (by omega)]
  congr 1
  omega

end LiteOSFS
