import LiteOSFS.FileSystem.Namespace
import Mathlib.Tactic.Linarith

/-! # Calls on the file of an open descriptor -/
namespace LiteOSFS
open Memory CString Ownership

/-- The inode of a descriptor. -/
def F19FS.fileOf (s : F19FS) (fd : ℤ) : Fin 256 := ⟨(s.descriptor fd.toNat).inodeNum.toNat,UInt8.toNat_lt _⟩

theorem Wrote.sum_bound {m m' : Mem} {x x' : Inode} {b off n sum : ℕ} {src : Mem}
    (h : Wrote m x b off src n sum m' x') (hb : b < 65536) : b * 1024 + sum ≤ 67115008 := by
  have hle : sum = 0 ∨ b * 1024 + sum ≤ 67115008 := by
    clear hb
    induction h with
    | done => exact Or.inl rfl
    | full => exact Or.inl rfl
    | @step m x b off src n sum m₁ x₁ m' x' hb _ _ _ ih =>
      right
      have hmin : min (1024 - off) n ≤ 1024 := (min_le_left _ _).trans (Nat.sub_le _ _)
      generalize min (1024 - off) n = k at hmin
      have hb' : b + 1 ≤ 65542 := hb
      rcases ih with h0 | h0
      · linarith
      · linarith
  omega

theorem WriteCall.sum_bound {m m' : Mem} {x x' : Inode} {b off n sum : ℕ} {src : Mem}
    (h : WriteCall m x b off src n sum m' x') (hb : b < 65536) : b * 1024 + sum ≤ 67115008 := by
  cases h with
  | wrote h => exact h.sum_bound hb
  | index _ _ hsum _ => omega
  | touch _ _ hsum _ _ => omega

/-- What a write through descriptor `fd` does: `sum` bytes reach the file, `r` of them are counted. -/
structure WriteDone (s : F19FS) (fd : ℤ) (src : Mem) (nbyte : UInt64) (r sum : ℕ) (m' : Mem) (x' : Inode)
    (s' : F19FS) : Prop where
  opened : s.Opened fd
  wrote : WriteCall s.image (s.inode (s.fileOf fd)) (s.descriptor fd.toNat).locateOrder.toNat
    (s.descriptor fd.toNat).locateOffset.toNat src nbyte.toNat sum m' x'
  effect : WriteEffect s.image (tableOf s.image) (s.fileOf fd) (s.descriptor fd.toNat).locateOrder.toNat
    (s.descriptor fd.toNat).locateOffset.toNat src nbyte.toNat sum m' x'
  counted : r = sum ∨ SpillDrops s.image (s.inode (s.fileOf fd)) (s.descriptor fd.toNat).locateOrder.toNat
      (s.descriptor fd.toNat).locateOffset.toNat nbyte.toNat ∧
    sum = 6144 - (s.descriptor fd.toNat).position ∧ r = 5120 - (s.descriptor fd.toNat).position
  image : s'.image = putInode m' (s.fileOf fd) { x' with fileSize := x'.fileSize + UInt64.ofNat r }
  table : s'.fdTable = putDescriptor s.fdTable fd.toNat (updateFD (s.descriptor fd.toNat) r) ∨
    r = 0 ∧ s'.fdTable = s.fdTable

theorem ready_of_writeSafe {s : F19FS} {fd : ℤ} {nbyte : UInt64} (hi : ImageInv s.image) (ho : s.Opened fd)
    (hsafe : WriteSafe s fd nbyte) (hoff : (s.descriptor fd.toNat).locateOffset.toNat ≤ 1024) :
    Ready s.image (tableOf s.image) (s.fileOf fd) (s.descriptor fd.toNat).locateOrder.toNat
      (s.descriptor fd.toNat).locateOffset.toNat nbyte.toNat := by
  obtain ⟨hfile,hclean⟩ := hsafe ho.1 ho.2.1 ho.2.2
  rw [writtenNodes, if_pos hoff] at hclean
  exact ⟨hi.sound,hfile,UInt16.toNat_lt _,hoff,UInt64.toNat_lt _,hclean⟩

theorem fsWrite_done {s s' : F19FS} {fd : ℤ} {src : Mem} {nbyte : UInt64} {ret : ℤ} (hi : ImageInv s.image)
    (hsafe : WriteSafe s fd nbyte) (hoff : (s.descriptor fd.toNat).locateOffset.toNat ≤ 1024)
    (h : fsWrite s fd (some src) nbyte = some (ret,s')) :
    (ret < 0 ∧ s' = s ∧ ¬ s.Opened fd) ∨ ∃ (r sum : ℕ) (m' : Mem) (x' : Inode), ret = r ∧ WriteDone s fd src nbyte r sum m' x' s' := by
  by_cases ho : s.Opened fd
  swap
  · obtain ⟨r,hr,he⟩ := fsWrite_closed ho (some src) nbyte
    rw [he] at h
    cases h
    exact Or.inl ⟨hr,rfl,ho⟩
  right
  have hr := ready_of_writeSafe hi ho hsafe hoff
  rcases fsWrite_cases h with ⟨⟨_,hsrc | hn⟩,rfl⟩ | ⟨src₀,res,hsrc,_,_,_,hw,hres⟩
  · cases hsrc
  · exact absurd ho hn
  · cases hsrc
    rcases hres with ⟨rfl,rfl,rfl⟩ | ⟨r,m',x',rfl,rfl,him,hfd⟩
    · have hc := writeFrom_none hr hw
      refine ⟨0,0,_,_,rfl,ho,hc,hc.effect hr,Or.inl rfl,?_,Or.inr ⟨rfl,rfl⟩⟩
      have hx : ({ tableOf s'.image (s'.fileOf fd) with fileSize := (tableOf s'.image (s'.fileOf fd)).fileSize + UInt64.ofNat 0 } : Inode) = tableOf s'.image (s'.fileOf fd) :=
        Inode.ext rfl rfl rfl rfl rfl (UInt64.add_zero _) rfl rfl rfl rfl
      rw [hx]
      exact (putInode_inodeAt _ _).symm
    · obtain ⟨sum,hc,hsum⟩ := writeFrom_wrote hr hw
      refine ⟨r,sum,m',x',rfl,ho,hc,hc.effect hr,hsum,him,Or.inl ?_⟩
      rw [hfd, storeDescriptor_fdTable ho.lt]

section Stored
variable {m : Mem} {x : Inode} {i : ℕ}

/-- Storing the inode of a file with another size leaves its block map alone. -/
theorem nodePtr_putInode (hi : i < 256) (hid : ∀ n, nodePtr m x n ≠ 0 → DataId (nodePtr m x n)) (y : Inode)
    (size : UInt64) (n : Node) : nodePtr (putInode m i y) { x with fileSize := size } n = nodePtr m x n := by
  have ht : ∀ n, ({ x with fileSize := size } : Inode).top n = x.top n := fun n => by cases n <;> rfl
  rw [nodePtr_top_congr ht]
  exact (nodePtr_congr (fun n p j _ hp => (blockAt_putInode hi (hid p hp)).symm) n).symm

theorem fileByte_putInode (hi : i < 256) (hid : ∀ n, nodePtr m x n ≠ 0 → DataId (nodePtr m x n)) (y : Inode)
    (size : UInt64) (o : ℕ) : fileByte (putInode m i y) { x with fileSize := size } o = fileByte m x o := by
  have hp := nodePtr_putInode hi hid y size (.data (o / 1024))
  unfold fileByte
  simp only [hp]
  split_ifs with h0
  · rfl
  · rw [blockAt_putInode hi (hid _ h0)]

end Stored

section Done
variable {s s' : F19FS} {fd : ℤ} {src : Mem} {nbyte : UInt64} {r sum : ℕ} {m' : Mem} {x' : Inode}

theorem WriteDone.count_le (h : WriteDone s fd src nbyte r sum m' x' s') : r ≤ sum := by
  rcases h.counted with he | ⟨_,hs,hr⟩
  · exact he.le
  · omega

theorem WriteDone.end_bound (h : WriteDone s fd src nbyte r sum m' x' s')
    (hoff : (s.descriptor fd.toNat).locateOffset.toNat ≤ 1024) :
    (s.descriptor fd.toNat).position + r ≤ 67116032 := by
  have hb := h.wrote.sum_bound (UInt16.toNat_lt _)
  have hr := h.count_le
  rw [FileDescriptor.position]
  linarith

/-- The size after a write, and the records of the other inodes. -/
theorem WriteDone.inode_eq (h : WriteDone s fd src nbyte r sum m' x' s') {j : ℕ} (hj : j < 256) :
    (s'.inode j).fileSize = if (s.fileOf fd).val = j then (s.inode j).fileSize + UInt64.ofNat r
      else (s.inode j).fileSize := by
  rw [F19FS.inode, h.image, inodeAt_putInode]
  split_ifs with hij
  · subst hij
    have ha : x'.attributes.fileSize = (tableOf s.image (s.fileOf fd)).attributes.fileSize := by rw [h.effect.ext.attrs]
    have hx : x'.fileSize = (s.inode (s.fileOf fd)).fileSize := ha
    rw [hx]
  · rw [h.effect.ext.inodes j hj]
    rfl

theorem WriteDone.dataId (h : WriteDone s fd src nbyte r sum m' x' s')
    (hfile : (s.inode (s.fileOf fd)).fileType ≠ typeDirectory) {n : Node} (hn : nodePtr m' x' n ≠ 0) :
    DataId (nodePtr m' x' n) := by
  have hext := h.effect.ext
  have htype : x'.fileType ≠ typeDirectory := by
    rw [attributes_fileType hext.attrs]
    exact hfile
  have hown : held m' (Function.update (tableOf s.image) (s.fileOf fd) x') (s.fileOf fd,n) = nodePtr m' x' n := by
    rw [held_update_same, owns_of_file htype]
  rw [← hown] at hn ⊢
  exact hext.sound.own.dataId hn

theorem WriteDone.inode (h : WriteDone s fd src nbyte r sum m' x' s') :
    s'.inode (s.fileOf fd) = { x' with fileSize := x'.fileSize + UInt64.ofNat r } := by
  rw [F19FS.inode, h.image, inodeAt_putInode, if_pos rfl]

theorem WriteDone.nodePtr_eq (h : WriteDone s fd src nbyte r sum m' x' s')
    (hfile : (s.inode (s.fileOf fd)).fileType ≠ typeDirectory) (n : Node) :
    nodePtr s'.image (s'.inode (s.fileOf fd)) n = nodePtr m' x' n := by
  rw [h.inode, h.image]
  exact nodePtr_putInode (s.fileOf fd).isLt (fun _ hn => h.dataId hfile hn) _ _ n

theorem WriteDone.fileByte_eq (h : WriteDone s fd src nbyte r sum m' x' s')
    (hfile : (s.inode (s.fileOf fd)).fileType ≠ typeDirectory) (o : ℕ) :
    fileByte s'.image (s'.inode (s.fileOf fd)) o = fileByte m' x' o := by
  rw [h.inode, h.image]
  exact fileByte_putInode (s.fileOf fd).isLt (fun _ hn => h.dataId hfile hn) _ _ o

end Done

/-- A write changes no record but that of its own file. -/
theorem fsWrite_other {s s' : F19FS} {fd : ℤ} {src : Option Mem} {nbyte : UInt64} {ret : ℤ} (hi : ImageInv s.image)
    (hsafe : WriteSafe s fd nbyte) (h : fsWrite s fd src nbyte = some (ret,s')) {j : ℕ} (hj : j < 256)
    (hne : (s.fileOf fd).val ≠ j) : s'.inode j = s.inode j := by
  rcases fsWrite_extends hi hsafe h with rfl | ⟨_,_,i,m',x',size,rfl,_,_,hext,him,_⟩
  · rfl
  · have hij : (s.descriptor fd.toNat).inodeNum.toNat ≠ j := hne
    rw [F19FS.inode, him, inodeAt_putInode, if_neg hij, hext.inodes j hj]
    rfl

end LiteOSFS
