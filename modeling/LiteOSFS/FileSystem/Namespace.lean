import LiteOSFS.FileSystem.Descriptors

/-! # The entries of the directories -/
namespace LiteOSFS
open Memory CString Ownership

/-- The live entries of a directory in slot order, with their names and inode numbers. -/
def liveEntries (m : Mem) (d : ℕ) : List (CStr × ℕ) :=
  ((List.range 31).filter (inodeAt m d).live).map fun j =>
    (entryName (blockAt m (inodeAt m d).dirBlock) j,entryInode (blockAt m (inodeAt m d).dirBlock) j)

theorem liveEntries_congr {m m' : Mem} {d : ℕ} (hi : inodeAt m' d = inodeAt m d)
    (hb : blockAt m' (inodeAt m d).dirBlock = blockAt m (inodeAt m d).dirBlock) :
    liveEntries m' d = liveEntries m d := by
  rw [liveEntries, liveEntries, hi, hb]

theorem liveEntries_of_none {m : Mem} {d : ℕ} (h : ∀ j < 31, (inodeAt m d).live j = false) : liveEntries m d = [] := by
  have hf : (List.range 31).filter (inodeAt m d).live = [] := by
    apply List.filter_eq_nil_iff.mpr
    intro j hj
    simp [h j (List.mem_range.mp hj)]
  rw [liveEntries, hf, List.map_nil]

section Extends
variable {m m' : Mem} {i j : Fin 256} {x' : Inode}

/-- Extending file `i` leaves the bytes of every other file and the block of every directory alone. -/
theorem Extends.nodePtr_other (h : Extends m (tableOf m) i m' x') (hj : j ≠ i)
    (hfile : (inodeAt m j).fileType ≠ typeDirectory) (n : Node) :
    nodePtr m' (inodeAt m j) n = nodePtr m (inodeAt m j) n := by
  have hown : ∀ m'' : Mem, held m'' (Function.update (tableOf m) i x') (j,n) = nodePtr m'' (inodeAt m j) n := by
    intro m''
    rw [held_update_of_ne hj]
    exact owns_of_file hfile
  have hold : held m (tableOf m) (j,n) = nodePtr m (inodeAt m j) n := owns_of_file hfile
  by_cases h0 : held m (tableOf m) (j,n) = 0
  · by_contra hne
    have h1 : held m' (Function.update (tableOf m) i x') (j,n) ≠ 0 := by
      rw [hown]
      rw [hold] at h0
      rwa [h0] at hne
    exact hj (h.fresh _ h0 h1).1
  · have hk := h.keeps _ h0
    rwa [hown, hold] at hk

theorem Extends.blockAt_other (h : Extends m (tableOf m) i m' x') (hs : Sound m (tableOf m)) (hj : j ≠ i) {n : Node}
    (hn : owns m (inodeAt m j) n ≠ 0) : blockAt m' (owns m (inodeAt m j) n) = blockAt m (owns m (inodeAt m j) n) := by
  have hq : held m (tableOf m) (j,n) ≠ 0 := hn
  apply h.blocks _ (hs.own.holds _ hq)
  intro l he
  exact hs.own.ne_of_ne hq (show ((j,n) : Place) ≠ (i,l) from fun hp => hj (congrArg Prod.fst hp)) he.symm

theorem Extends.fileByte_other (h : Extends m (tableOf m) i m' x') (hs : Sound m (tableOf m)) (hj : j ≠ i)
    (hfile : (inodeAt m j).fileType ≠ typeDirectory) (o : ℕ) :
    fileByte m' (inodeAt m j) o = fileByte m (inodeAt m j) o := by
  unfold fileByte
  rw [h.nodePtr_other hj hfile]
  simp only
  split_ifs with h0
  · rfl
  · have ho : owns m (inodeAt m j) (.data (o / 1024)) = nodePtr m (inodeAt m j) (.data (o / 1024)) := owns_of_file hfile
    have hb := h.blockAt_other hs hj (n := .data (o / 1024)) (by rwa [ho])
    rw [ho] at hb
    rw [hb]

end Extends

end LiteOSFS
