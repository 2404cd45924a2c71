import LiteOSFS.FileSystem.Directory
import LiteOSFS.Storage.Growth

/-! # The invariant of the image

Blocks are owned exclusively; a directory's record carries its own number, is
marked used, and has a block when it has an entry; the root is a directory. Each
lemma is about one primitive change that the operations are composed of.
-/
namespace LiteOSFS
open Memory Ownership

/-- What holds of the record `x` at index `i` when it is a directory. -/
structure RecordOk (m : Mem) (i : ℕ) (x : Inode) : Prop where
  self : x.fileType = typeDirectory → x.inodeNumber.toNat = i
  marked : x.fileType = typeDirectory → inodeUsed m i = true
  block : x.fileType = typeDirectory → ∀ j < 31, x.live j = true → x.dirBlock ≠ 0

structure ImageInv (m : Mem) : Prop where
  sound : Sound m (tableOf m)
  record : ∀ i < 256, RecordOk m i (inodeAt m i)
  root : (inodeAt m 0).fileType = typeDirectory

theorem tableOf_congr {m m' : Mem} (h : ∀ i < 256, inodeAt m' i = inodeAt m i) : tableOf m' = tableOf m :=
  funext (fun i => h i i.isLt)

theorem tableOf_putInode {m : Mem} {i : ℕ} (hi : i < 256) (x : Inode) :
    tableOf (putInode m i x) = Function.update (tableOf m) ⟨i,hi⟩ x := by
  funext j
  rw [tableOf, inodeAt_putInode, Function.update_apply]
  by_cases hj : i = j.val
  · rw [if_pos hj, if_pos (Fin.ext hj.symm)]
  · rw [if_neg hj, if_neg (fun he => hj (congrArg Fin.val he).symm), tableOf]

/-- Ownership does not depend on the inode bitmap and table. -/
theorem Sound.congr {m m' : Mem} {t : Table} (h : Sound m t) (hu : ∀ b < 65536, used m' b = used m b)
    (hb : ∀ b, DataId b → blockAt m' b = blockAt m b) : Sound m' t := by
  refine ⟨fun b hlt => ?_,h.own.frame (fun b hd hub => ?_) (fun q n j _ hne => (hb _ (h.own.dataId hne)).symm)⟩
  · rw [hu b (by omega)]
    exact h.sys b hlt
  · rwa [hu b (by have := hd.2; omega)]

theorem Sound.updateDrop {m : Mem} {t : Table} {i : Fin 256} {x : Inode} (h : Sound m t)
    (hx : ∀ n, owns m x n = 0 ∨ owns m x n = owns m (t i) n) : Sound m (Function.update t i x) := by
  refine ⟨h.sys,h.own.drop (fun q => ?_)⟩
  obtain ⟨j,n⟩ := q
  by_cases hj : j = i
  · subst hj
    rw [held_update_same]
    exact hx n
  · exact Or.inr (held_update_of_ne hj)

/-- A directory takes a block that nothing holds. -/
theorem Sound.updateBlock {m : Mem} {t : Table} {i : Fin 256} {x : Inode} (h : Sound m t)
    (hdir : x.fileType = typeDirectory) (hblock : Allocated m x.dirBlock) (hfree : ∀ q, held m t q ≠ x.dirBlock) :
    Sound m (Function.update t i x) := by
  have hdrop : ∀ q, held m (Function.update t i Inode.cleared) q = 0 ∨
      held m (Function.update t i Inode.cleared) q = held m t q := by
    intro q
    obtain ⟨j,n⟩ := q
    by_cases hj : j = i
    · subst hj
      left
      rw [held_update_same, owns_of_file (by decide)]
      cases n with
      | data b =>
        simp only [nodePtr, Inode.top, Inode.cleared]
        split_ifs <;> rfl
      | _ => rfl
    · exact Or.inr (held_update_of_ne hj)
  have hne : ∀ q, held m (Function.update t i Inode.cleared) q ≠ x.dirBlock := by
    intro q
    rcases hdrop q with h0 | h0
    · rw [h0]
      exact Ne.symm hblock.1.ne_zero
    · rw [h0]
      exact hfree q
  refine ⟨h.sys,(h.own.drop hdrop).assign (a := (i,.data 0)) (v := x.dirBlock) hne hblock (fun _ hn => hn) ?_
    (fun q hq => ?_)⟩
  · rw [held_update_same, owns_data_zero]
    rfl
  · obtain ⟨j,n⟩ := q
    by_cases hj : j = i
    · subst hj
      have hn : n ≠ .data 0 := fun he => hq (by rw [he])
      rcases hdrop (j,n) with h0 | h0
      · rw [h0, held_update_same, owns_of_directory hdir hn]
      · rw [held_update_same, owns_of_directory hdir hn]
        rw [held_update_same, owns_of_file (by decide)]
        cases n with
        | data b =>
          simp only [nodePtr, Inode.top, Inode.cleared]
          split_ifs <;> rfl
        | _ => rfl
    · rw [held_update_of_ne hj, held_update_of_ne hj]

section Primitives
variable {m : Mem}

theorem RecordOk.congr {m' : Mem} {i : ℕ} {x : Inode} (h : RecordOk m i x)
    (hu : inodeUsed m i = true → inodeUsed m' i = true) : RecordOk m' i x :=
  ⟨h.self,fun hd => hu (h.marked hd),h.block⟩

theorem ImageInv.setUsed (h : ImageInv m) (id : ℕ) : ImageInv (setUsed m id) := by
  have ht : tableOf (LiteOSFS.setUsed m id) = tableOf m := tableOf_congr (fun i hi => inodeAt_setUsed hi)
  refine ⟨?_,fun i hi => ?_,?_⟩
  · rw [ht]
    refine ⟨fun b hb => ?_,h.sound.own.setUsed⟩
    rw [used_setUsed, h.sound.sys b hb, Bool.or_true]
  · rw [inodeAt_setUsed hi]
    exact (h.record i hi).congr (fun hu => by rwa [inodeUsed_setUsed hi])
  · rw [inodeAt_setUsed (by omega)]
    exact h.root

theorem ImageInv.setInodeUsed (h : ImageInv m) {i : ℕ} (hi : i < 256) : ImageInv (setInodeUsed m i) := by
  have ht : tableOf (LiteOSFS.setInodeUsed m i) = tableOf m := tableOf_congr (fun _ _ => inodeAt_setInodeUsed hi)
  refine ⟨?_,fun j hj => ?_,?_⟩
  · rw [ht]
    exact h.sound.congr (fun b hb => used_setInodeUsed hi hb) (fun b hb => blockAt_setInodeUsed hi hb)
  · rw [inodeAt_setInodeUsed hi]
    exact (h.record j hj).congr (fun hu => by rw [inodeUsed_setInodeUsed, hu, Bool.or_true])
  · rw [inodeAt_setInodeUsed hi]
    exact h.root

theorem ImageInv.clearInodeUsed (h : ImageInv m) {i : ℕ} (hi : i < 256)
    (hfile : (inodeAt m i).fileType ≠ typeDirectory) : ImageInv (clearInodeUsed m i) := by
  have ht : tableOf (LiteOSFS.clearInodeUsed m i) = tableOf m := tableOf_congr (fun _ _ => inodeAt_clearInodeUsed hi)
  refine ⟨?_,fun j hj => ?_,?_⟩
  · rw [ht]
    exact h.sound.congr (fun b hb => used_clearInodeUsed hi hb) (fun b hb => blockAt_clearInodeUsed hi hb)
  · rw [inodeAt_clearInodeUsed hi]
    refine ⟨(h.record j hj).self,fun hd => ?_,(h.record j hj).block⟩
    have hij : i ≠ j := by
      rintro rfl
      exact hfile hd
    rw [inodeUsed_clearInodeUsed, decide_eq_false hij]
    exact (h.record j hj).marked hd
  · rw [inodeAt_clearInodeUsed hi]
    exact h.root

/-- A block that no index place holds is written. -/
theorem ImageInv.putBlock (h : ImageInv m) {id : ℕ} {c : Mem} (hid : DataId id)
    (hq : ∀ (q : Place) (n : Node) (j : ℕ), n.parent = some (q.2,j) → held m (tableOf m) q ≠ 0 →
      held m (tableOf m) q ≠ id) : ImageInv (putBlock m id c) := by
  have ht : tableOf (LiteOSFS.putBlock m id c) = tableOf m := tableOf_congr (fun _ hj => inodeAt_putBlock hid hj)
  refine ⟨?_,fun j hj => ?_,?_⟩
  · rw [ht]
    refine ⟨fun b hb => ?_,h.sound.own.putBlock hid hq⟩
    rw [used_putBlock hid (by omega)]
    exact h.sound.sys b hb
  · rw [inodeAt_putBlock hid hj]
    exact (h.record j hj).congr (fun hu => by rwa [inodeUsed_putBlock hid hj])
  · rw [inodeAt_putBlock hid (by omega)]
    exact h.root

/-- The first block of a record holds no pointers of anyone. -/
theorem not_index_of_data {t : Table} {q q' : Place} {b : ℕ} (h : Owned m t) (hq' : q'.2 = .data b) (n : Node)
    (j : ℕ) (hp : n.parent = some (q.2,j)) (hne : held m t q ≠ 0) : held m t q ≠ held m t q' := by
  apply h.ne_of_ne hne
  rintro rfl
  exact Node.parent_ne_data hp hq'

theorem ImageInv.putInode (h : ImageInv m) {i : ℕ} {x : Inode} (hi : i < 256)
    (hs : Sound m (Function.update (tableOf m) ⟨i,hi⟩ x)) (hrec : RecordOk m i x)
    (hroot : i = 0 → x.fileType = typeDirectory) : ImageInv (putInode m i x) := by
  refine ⟨?_,fun j hj => ?_,?_⟩
  · rw [tableOf_putInode hi]
    exact hs.congr (fun b hb => used_putInode hi hb) (fun b hb => blockAt_putInode hi hb)
  · rw [inodeAt_putInode]
    split_ifs with hij
    · subst hij
      exact hrec.congr (fun hu => by rwa [inodeUsed_putInode hj])
    · exact (h.record j hj).congr (fun hu => by rwa [inodeUsed_putInode hj])
  · rw [inodeAt_putInode]
    split_ifs with h0
    · exact hroot h0
    · exact h.root

/-- The record of a directory is replaced by one with the same block. -/
theorem ImageInv.putDirectory (h : ImageInv m) {i : ℕ} (hi : i < 256) (hold : (inodeAt m i).fileType = typeDirectory)
    {x : Inode} (hdir : x.fileType = typeDirectory) (hnum : x.inodeNumber.toNat = i)
    (hblock : x.dirBlock = (inodeAt m i).dirBlock) (hne : (inodeAt m i).dirBlock ≠ 0) :
    ImageInv (LiteOSFS.putInode m i x) := by
  refine h.putInode hi (h.sound.updateDrop (fun n => ?_)) ⟨fun _ => hnum,fun _ => (h.record i hi).marked hold,
    fun _ _ _ _ => by rwa [hblock]⟩ (fun _ => hdir)
  by_cases hn : n = .data 0
  · right
    rw [hn, owns_data_zero, owns_data_zero, ← Inode.dirBlock, hblock]
    rfl
  · exact Or.inl (owns_of_directory hdir hn)

theorem owns_links {x : Inode} {links : UInt64} (n : Node) : owns m { x with linkCount := links } n = owns m x n :=
  owns_top_congr rfl (fun n => by cases n <;> rfl) n

theorem RecordOk.links {i : ℕ} {x : Inode} (h : RecordOk m i x) (links : UInt64) :
    RecordOk m i { x with linkCount := links } := ⟨h.self,h.marked,h.block⟩

theorem ImageInv.putLinks (h : ImageInv m) {i : ℕ} (hi : i < 256) (links : UInt64) :
    ImageInv (LiteOSFS.putInode m i { inodeAt m i with linkCount := links }) := by
  refine h.putInode hi (h.sound.updateDrop (fun n => Or.inr ?_)) ((h.record i hi).links links) ?_
  · exact owns_links n
  · rintro rfl
    exact h.root

end Primitives

/-- The block of a directory, when it has one. -/
theorem ImageInv.dirBlock_dataId {m : Mem} (h : ImageInv m) {i : ℕ} (hi : i < 256)
    (hne : (inodeAt m i).dirBlock ≠ 0) : DataId (inodeAt m i).dirBlock ∧
      used m (inodeAt m i).dirBlock = true ∧
      held m (tableOf m) (⟨i,hi⟩,.data 0) = (inodeAt m i).dirBlock := by
  have hh : held m (tableOf m) (⟨i,hi⟩,.data 0) = (inodeAt m i).dirBlock := owns_data_zero
  rw [← hh] at hne ⊢
  obtain ⟨hd,hu⟩ := h.sound.own.holds _ hne
  exact ⟨hd,hu,rfl⟩

theorem ImageInv.dirBlock_le {m : Mem} (h : ImageInv m) {i : ℕ} (hi : i < 256) :
    (inodeAt m i).dirBlock ≤ 65528 := by
  by_cases hz : (inodeAt m i).dirBlock = 0
  · omega
  · have hd := (h.dirBlock_dataId hi hz).1.2
    omega

theorem ImageInv.offTable {m : Mem} (h : ImageInv m) {i : ℕ} (hi : i < 256) : OffTable (inodeAt m i).dirBlock := by
  by_cases hz : (inodeAt m i).dirBlock = 0
  · exact Or.inl hz
  · exact Or.inr (h.dirBlock_dataId hi hz).1

theorem ImageInv.readDir {m : Mem} (h : ImageInv m) {i : ℕ} (hi : i < 256) :
    readDir m i = some (inodeAt m i,blockAt m (inodeAt m i).dirBlock) := by
  rw [LiteOSFS.readDir, blockStoreInodeRead_table hi]
  simp only [Option.bind_some]
  rw [blockStoreRead_data (h.dirBlock_le hi)]
  rfl

end LiteOSFS
