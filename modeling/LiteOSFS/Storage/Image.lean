import LiteOSFS.Storage.BlockStore

/-! # What is stored in an image

Four views of an image (the used bit of a block, the used bit of an inode, an
inode record, the bytes of a block) and what each primitive change does to each.
The regions are disjoint for block ids from 17 to 65527 and inode ids below 256.
-/
namespace LiteOSFS
open Memory

def used (m : Mem) (id : ℕ) : Bool := bitmapTest m wholeStore.fbm id
def inodeUsed (m : Mem) (i : ℕ) : Bool := bitmapTest m inodeStore.fbm i
def inodeAt (m : Mem) (i : ℕ) : Inode := Inode.ofBytes (window m (1024 + i * 64) 64)
def blockAt (m : Mem) (id : ℕ) : Mem := window m (id * 1024) 1024

def setUsed (m : Mem) (id : ℕ) : Mem := bitmapSet m wholeStore.fbm id
def clearUsed (m : Mem) (id : ℕ) : Mem := bitmapReset m wholeStore.fbm id
def setInodeUsed (m : Mem) (i : ℕ) : Mem := bitmapSet m inodeStore.fbm i
def clearInodeUsed (m : Mem) (i : ℕ) : Mem := bitmapReset m inodeStore.fbm i
def putInode (m : Mem) (i : ℕ) (x : Inode) : Mem := copyIn m (1024 + i * 64) 64 x.toBytes
def putBlock (m : Mem) (id : ℕ) (b : Mem) : Mem := copyIn m (id * 1024) 1024 b

/-- A block id at which directory, index and data blocks may lie. -/
def DataId (id : ℕ) : Prop := 17 ≤ id ∧ id < 65528

/-- A block id at which writes do not reach the inode table. -/
def OffTable (id : ℕ) : Prop := id = 0 ∨ DataId id

instance (id : ℕ) : Decidable (DataId id) := inferInstanceAs (Decidable (_ ∧ _))

/-- Agreement of two images on an interval of addresses. -/
def AgreeOn (m m' : Mem) (lo hi : ℕ) : Prop := ∀ a, lo ≤ a → a < hi → m a = m' a

theorem used_congr {m m' : Mem} {id : ℕ} (h : AgreeOn m m' (65528 * 1024) (65536 * 1024)) (hid : id < 65536) :
    used m id = used m' id :=
  bitmapTest_congr (h _ (by simp only [wholeStore]; omega) (by simp only [wholeStore]; omega))

theorem inodeUsed_congr {m m' : Mem} {i : ℕ} (h : AgreeOn m m' 0 1024) (hi : i < 256) :
    inodeUsed m i = inodeUsed m' i :=
  bitmapTest_congr (h _ (by omega) (by simp only [inodeStore]; omega))

theorem inodeAt_congr {m m' : Mem} {i : ℕ} (h : AgreeOn m m' (1024 + i * 64) (1024 + i * 64 + 64)) :
    inodeAt m i = inodeAt m' i := by
  rw [inodeAt, inodeAt, window_congr (fun a ha ha' => h a ha ha')]

theorem blockAt_congr {m m' : Mem} {id : ℕ} (h : AgreeOn m m' (id * 1024) (id * 1024 + 1024)) :
    blockAt m id = blockAt m' id := window_congr (fun a ha ha' => h a ha ha')

theorem copyIn_agreeOn {m b : Mem} {x n lo hi : ℕ} (h : x + n ≤ lo ∨ hi ≤ x) :
    AgreeOn (copyIn m x n b) m lo hi := fun _ _ _ => copyIn_outside (by omega)

theorem setUsed_agreeOn (m : Mem) (id : ℕ) {lo hi : ℕ} (h : hi ≤ 65528 * 1024) :
    AgreeOn (setUsed m id) m lo hi :=
  fun _ _ _ => bitmapSet_other (by simp only [wholeStore]; omega)

theorem clearUsed_agreeOn (m : Mem) (id : ℕ) {lo hi : ℕ} (h : hi ≤ 65528 * 1024) :
    AgreeOn (clearUsed m id) m lo hi :=
  fun _ _ _ => bitmapReset_other (by simp only [wholeStore]; omega)

theorem setInodeUsed_agreeOn (m : Mem) {i : ℕ} (hi : i < 256) {lo h : ℕ} (hl : 1024 ≤ lo) :
    AgreeOn (setInodeUsed m i) m lo h :=
  fun _ _ _ => bitmapSet_other (by simp only [inodeStore]; omega)

theorem clearInodeUsed_agreeOn (m : Mem) {i : ℕ} (hi : i < 256) {lo h : ℕ} (hl : 1024 ≤ lo) :
    AgreeOn (clearInodeUsed m i) m lo h :=
  fun _ _ _ => bitmapReset_other (by simp only [inodeStore]; omega)

theorem putBlock_putBlock (m b c : Mem) (id : ℕ) : putBlock (putBlock m id b) id c = putBlock m id c :=
  copyIn_copyIn _ _ _ _ _

theorem putBlock_comm {m b c : Mem} {id id' : ℕ} (h : id ≠ id') :
    putBlock (putBlock m id b) id' c = putBlock (putBlock m id' c) id b := copyIn_comm (by omega)

theorem putBlock_congr {m b c : Mem} {id : ℕ} (h : ∀ k < 1024, b k = c k) : putBlock m id b = putBlock m id c :=
  copyIn_congr h

theorem putBlock_blockAt (m : Mem) (id : ℕ) : putBlock m id (blockAt m id) = m :=
  copyIn_eq_self (fun _ hk => window_apply_lt hk)

theorem putInode_putInode (m : Mem) (i : ℕ) (x y : Inode) : putInode (putInode m i x) i y = putInode m i y :=
  copyIn_copyIn _ _ _ _ _

theorem putInode_inodeAt (m : Mem) (i : ℕ) : putInode m i (inodeAt m i) = m :=
  copyIn_eq_self (fun _ hk => by rw [inodeAt, Inode.toBytes_ofBytes _ hk, window_apply_lt hk])

theorem setUsed_putBlock {m c : Mem} {id b : ℕ} (hid : DataId id) :
    setUsed (putBlock m id c) b = putBlock (setUsed m b) id c := by
  obtain ⟨_,_⟩ := hid
  funext a
  by_cases ha : id * 1024 ≤ a ∧ a < id * 1024 + 1024
  · rw [setUsed_agreeOn _ b le_rfl a (Nat.zero_le a) (by omega), putBlock, putBlock,
      copyIn_inside ha.1 ha.2, copyIn_inside ha.1 ha.2]
  · have ho : ∀ m' : Mem, putBlock m' id c a = m' a := fun m' => copyIn_outside (by omega)
    rw [ho]
    simp only [setUsed, bitmapSet, ho]

section Used
variable {m : Mem} {b : ℕ}

@[simp] theorem used_setUsed (id : ℕ) : used (setUsed m id) b = (decide (id = b) || used m b) :=
  bitmapTest_bitmapSet _ _ _ _

@[simp] theorem used_clearUsed (id : ℕ) : used (clearUsed m id) b = (!decide (id = b) && used m b) :=
  bitmapTest_bitmapReset _ _ _ _

theorem used_setInodeUsed {i : ℕ} (hi : i < 256) (hb : b < 65536) : used (setInodeUsed m i) b = used m b :=
  used_congr (setInodeUsed_agreeOn m hi (by omega)) hb

theorem used_clearInodeUsed {i : ℕ} (hi : i < 256) (hb : b < 65536) :
    used (clearInodeUsed m i) b = used m b :=
  used_congr (clearInodeUsed_agreeOn m hi (by omega)) hb

theorem used_putInode {i : ℕ} {x : Inode} (hi : i < 256) (hb : b < 65536) :
    used (putInode m i x) b = used m b :=
  used_congr (copyIn_agreeOn (by omega)) hb

theorem used_putBlock {id : ℕ} {c : Mem} (hid : DataId id) (hb : b < 65536) :
    used (putBlock m id c) b = used m b := by
  obtain ⟨_,_⟩ := hid
  exact used_congr (copyIn_agreeOn (by omega)) hb

end Used

section InodeUsed
variable {m : Mem} {j : ℕ}

theorem inodeUsed_setUsed {id : ℕ} (hj : j < 256) : inodeUsed (setUsed m id) j = inodeUsed m j :=
  inodeUsed_congr (setUsed_agreeOn m id (by omega)) hj

theorem inodeUsed_clearUsed {id : ℕ} (hj : j < 256) : inodeUsed (clearUsed m id) j = inodeUsed m j :=
  inodeUsed_congr (clearUsed_agreeOn m id (by omega)) hj

@[simp] theorem inodeUsed_setInodeUsed (i : ℕ) :
    inodeUsed (setInodeUsed m i) j = (decide (i = j) || inodeUsed m j) := bitmapTest_bitmapSet _ _ _ _

@[simp] theorem inodeUsed_clearInodeUsed (i : ℕ) :
    inodeUsed (clearInodeUsed m i) j = (!decide (i = j) && inodeUsed m j) := bitmapTest_bitmapReset _ _ _ _

theorem inodeUsed_putInode {i : ℕ} {x : Inode} (hj : j < 256) :
    inodeUsed (putInode m i x) j = inodeUsed m j := inodeUsed_congr (copyIn_agreeOn (by omega)) hj

theorem inodeUsed_putBlock {id : ℕ} {c : Mem} (hid : DataId id) (hj : j < 256) :
    inodeUsed (putBlock m id c) j = inodeUsed m j := by
  obtain ⟨_,_⟩ := hid
  exact inodeUsed_congr (copyIn_agreeOn (by omega)) hj

end InodeUsed

section InodeAt
variable {m : Mem} {j : ℕ}

theorem inodeAt_setUsed {id : ℕ} (hj : j < 256) : inodeAt (setUsed m id) j = inodeAt m j :=
  inodeAt_congr (setUsed_agreeOn m id (by omega))

theorem inodeAt_clearUsed {id : ℕ} (hj : j < 256) : inodeAt (clearUsed m id) j = inodeAt m j :=
  inodeAt_congr (clearUsed_agreeOn m id (by omega))

theorem inodeAt_setInodeUsed {i : ℕ} (hi : i < 256) : inodeAt (setInodeUsed m i) j = inodeAt m j :=
  inodeAt_congr (setInodeUsed_agreeOn m hi (by omega))

theorem inodeAt_clearInodeUsed {i : ℕ} (hi : i < 256) : inodeAt (clearInodeUsed m i) j = inodeAt m j :=
  inodeAt_congr (clearInodeUsed_agreeOn m hi (by omega))

theorem inodeAt_putInode (i : ℕ) (x : Inode) :
    inodeAt (putInode m i x) j = if i = j then x else inodeAt m j := by
  split_ifs with h
  · subst h
    rw [inodeAt, putInode, window_copyIn_same,
      Inode.ofBytes_congr (c := x.toBytes) (fun k hk => by simp [window,hk]), Inode.ofBytes_toBytes]
  · exact inodeAt_congr (copyIn_agreeOn (by omega))

theorem inodeAt_putBlock_offTable {id : ℕ} {c : Mem} (hid : OffTable id) (hj : j < 256) :
    inodeAt (putBlock m id c) j = inodeAt m j := by
  rcases hid with rfl | ⟨_,_⟩
  · exact inodeAt_congr (copyIn_agreeOn (by omega))
  · exact inodeAt_congr (copyIn_agreeOn (by omega))

theorem inodeAt_putBlock {id : ℕ} {c : Mem} (hid : DataId id) (hj : j < 256) :
    inodeAt (putBlock m id c) j = inodeAt m j := inodeAt_putBlock_offTable (Or.inr hid) hj

end InodeAt

section BlockAt
variable {m : Mem} {b : ℕ}

theorem blockAt_setUsed {id : ℕ} (hb : DataId b) : blockAt (setUsed m id) b = blockAt m b := by
  obtain ⟨_,_⟩ := hb
  exact blockAt_congr (setUsed_agreeOn m id (by omega))

theorem blockAt_clearUsed {id : ℕ} (hb : DataId b) : blockAt (clearUsed m id) b = blockAt m b := by
  obtain ⟨_,_⟩ := hb
  exact blockAt_congr (clearUsed_agreeOn m id (by omega))

theorem blockAt_setInodeUsed {i : ℕ} (hi : i < 256) (hb : DataId b) :
    blockAt (setInodeUsed m i) b = blockAt m b := by
  obtain ⟨_,_⟩ := hb
  exact blockAt_congr (setInodeUsed_agreeOn m hi (by omega))

theorem blockAt_clearInodeUsed {i : ℕ} (hi : i < 256) (hb : DataId b) :
    blockAt (clearInodeUsed m i) b = blockAt m b := by
  obtain ⟨_,_⟩ := hb
  exact blockAt_congr (clearInodeUsed_agreeOn m hi (by omega))

theorem blockAt_putInode_offTable {i : ℕ} {x : Inode} (hi : i < 256) (hb : OffTable b) :
    blockAt (putInode m i x) b = blockAt m b := by
  rcases hb with rfl | ⟨_,_⟩
  · exact blockAt_congr (copyIn_agreeOn (by omega))
  · exact blockAt_congr (copyIn_agreeOn (by omega))

theorem blockAt_putInode {i : ℕ} {x : Inode} (hi : i < 256) (hb : DataId b) :
    blockAt (putInode m i x) b = blockAt m b := blockAt_putInode_offTable hi (Or.inr hb)

theorem blockAt_putBlock (id : ℕ) (c : Mem) :
    blockAt (putBlock m id c) b = if id = b then window c 0 1024 else blockAt m b := by
  split_ifs with h
  · subst h
    exact window_copyIn_same _ _ _ _
  · exact blockAt_congr (copyIn_agreeOn (by omega))

end BlockAt

end LiteOSFS
