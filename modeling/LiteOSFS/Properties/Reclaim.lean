import LiteOSFS.FileSystem.Calls
import Mathlib.Data.Set.Card

/-! # What fs_remove gives back

The removal of the last link of a regular file, in any image in which the file's
pointers are sound: the marks of the blocks on its pointer tree and the mark of its
inode go, and no other mark changes.
-/
namespace LiteOSFS
open Memory CString Ownership Transition

section Reclaim
variable {m m' : Mem} {d i : ℕ} {name : CStr}

/-- The removal of a regular file below its parent. -/
theorem removeIn_file (hi : i < 256) (hreg : (inodeAt m i).fileType = typeRegular)
    (hlinks : (inodeAt m i).linkCount = 1)
    (htree : ∀ n, nodePtr m (inodeAt m i) n ≠ 0 → DataId (nodePtr m (inodeAt m i) n))
    (hr : removeIn m d i name = some (0,m')) :
    ∃ m₁ k, Freed (fun b => b ≠ 0 ∧ ∃ n, nodePtr m (inodeAt m i) n = b) m m₁ ∧ d < 256 ∧
      m' = unlinked m₁ d i (inodeAt m d) (blockAt m (inodeAt m d).dirBlock) k := by
  obtain ⟨m₁,hm₁,hf⟩ := releaseFile_spec htree
  rw [removeIn] at hr
  cases hread : readDir m d with
  | none =>
    rw [hread] at hr
    cases hr
  | some r =>
    obtain ⟨x,dir⟩ := r
    obtain ⟨hd,rfl,hb,rfl⟩ := readDir_some hread
    have hone : ¬ (inodeAt m i).linkCount > 1 := by
      rw [hlinks]
      decide
    simp only [hread, blockStoreInodeRead_table hi, hreg, if_true, if_neg hone, hm₁, Option.map_some, Option.some.injEq,
      unlinkInode, blockStoreInodeWrite_table hi, blockStoreRelease_inode hi] at hr
    cases hk : getFileIndexInDir (inodeAt m d) (blockAt m (inodeAt m d).dirBlock) name with
    | none =>
      rw [hk] at hr
      cases hr
    | some k =>
      simp only [hk, blockStoreWrite_data hb, blockStoreInodeWrite_table hd] at hr
      cases hr
      exact ⟨m₁,k,hf,hd,rfl⟩

/-- The marks once an inode is unlinked from a directory with a data block. -/
theorem used_unlinked {k b : ℕ} {x : Inode} {dir : Mem} (hd : d < 256) (hi : i < 256) (hx : DataId x.dirBlock)
    (hb : b < 65536) : used (unlinked m d i x dir k) b = used m b := by
  rw [unlinked, used_putInode hd hb, used_putBlock hx hb, used_freeInode hi hb, used_putInode hi hb]

/-- As many marks go as the tree has pointers. -/
theorem usedBlocks_drop {x : Inode} (htree : ∀ n, nodePtr m x n ≠ 0 → DataId (nodePtr m x n) ∧ used m (nodePtr m x n) = true)
    (hinj : ∀ n n', nodePtr m x n ≠ 0 → nodePtr m x n = nodePtr m x n' → n = n')
    (hmarks : ∀ b < 65528, used m' b = true ↔ used m b = true ∧ ¬ ∃ n, nodePtr m x n ≠ 0 ∧ nodePtr m x n = b) :
    blockStoreGetUsedBlocks m wholeStore = blockStoreGetUsedBlocks m' wholeStore + {n | nodePtr m x n ≠ 0}.ncard := by
  classical
  have htreeSet : ((Finset.range 65528).filter (fun b => ∃ n, nodePtr m x n ≠ 0 ∧ nodePtr m x n = b) : Set ℕ) =
      nodePtr m x '' {n | nodePtr m x n ≠ 0} := by
    ext b
    simp only [Finset.coe_filter, Finset.mem_range, Set.mem_ofPred_eq, Set.mem_image]
    constructor
    · rintro ⟨_,n,hn,rfl⟩
      exact ⟨n,hn,rfl⟩
    · rintro ⟨n,hn,rfl⟩
      exact ⟨(htree n hn).1.2,n,hn,rfl⟩
  have hinjOn : Set.InjOn (nodePtr m x) {n | nodePtr m x n ≠ 0} := fun n hn n' _ he => hinj n n' hn he
  have hcard : {n | nodePtr m x n ≠ 0}.ncard =
      ((Finset.range 65528).filter (fun b => ∃ n, nodePtr m x n ≠ 0 ∧ nodePtr m x n = b)).card := by
    rw [← hinjOn.ncard_image, ← htreeSet, Set.ncard_coe_finset]
  have hsplit : (Finset.range 65528).filter (fun b => used m b = true) =
      (Finset.range 65528).filter (fun b => used m' b = true) ∪
        (Finset.range 65528).filter (fun b => ∃ n, nodePtr m x n ≠ 0 ∧ nodePtr m x n = b) := by
    ext b
    simp only [Finset.mem_union, Finset.mem_filter, Finset.mem_range]
    constructor
    · rintro ⟨hb,hu⟩
      by_cases hc : ∃ n, nodePtr m x n ≠ 0 ∧ nodePtr m x n = b
      · exact Or.inr ⟨hb,hc⟩
      · exact Or.inl ⟨hb,(hmarks b hb).mpr ⟨hu,hc⟩⟩
    · rintro (⟨hb,hu⟩ | ⟨hb,n,hn,rfl⟩)
      · exact ⟨hb,((hmarks b hb).mp hu).1⟩
      · exact ⟨hb,(htree n hn).2⟩
  rw [hcard, usedBlocks_card, usedBlocks_card, hsplit, Finset.card_union_of_disjoint]
  rw [Finset.disjoint_left]
  intro b hb hc
  obtain ⟨hb,hu⟩ := Finset.mem_filter.mp hb
  exact ((hmarks b (Finset.mem_range.mp hb)).mp hu).2 (Finset.mem_filter.mp hc).2

/-- In the image of a run of safe calls every file is such a tree. -/
theorem ImageInv.tree (h : ImageInv m) (hi : i < 256) (hfile : (inodeAt m i).fileType ≠ typeDirectory) :
    (∀ n, nodePtr m (inodeAt m i) n ≠ 0 → DataId (nodePtr m (inodeAt m i) n) ∧ used m (nodePtr m (inodeAt m i) n) = true) ∧
      ∀ n n', nodePtr m (inodeAt m i) n ≠ 0 → nodePtr m (inodeAt m i) n = nodePtr m (inodeAt m i) n' → n = n' := by
  have hown : ∀ n, held m (tableOf m) (⟨i,hi⟩,n) = nodePtr m (inodeAt m i) n := fun n => owns_of_file hfile
  refine ⟨fun n hn => dataId_of_node (i := ⟨i,hi⟩) h.sound hfile hn,fun n n' hn he => ?_⟩
  rw [← hown, ← hown] at he
  rw [← hown] at hn
  exact congrArg Prod.snd (h.sound.own.inj _ _ hn he)

end Reclaim

/-- `fs_remove` of a regular file with one link, whose pointers are distinct used data blocks and whose parent
has a data block, clears the marks of the file's blocks and of its inode. -/
theorem remove_reclaims {s s' : F19FS} {path : CStr} {i : ℕ}
    (hpath : getFileInodeID s.image (parentOf s.image path) (basename path) = i)
    (hreg : (s.inode i).fileType = typeRegular) (hlinks : (s.inode i).linkCount = 1)
    (htree : ∀ n, nodePtr s.image (s.inode i) n ≠ 0 → (17 ≤ nodePtr s.image (s.inode i) n ∧
      nodePtr s.image (s.inode i) n < 65528) ∧ used s.image (nodePtr s.image (s.inode i) n) = true)
    (hinj : ∀ n n', nodePtr s.image (s.inode i) n ≠ 0 →
      nodePtr s.image (s.inode i) n = nodePtr s.image (s.inode i) n' → n = n')
    (hdir : parentOf s.image path < 256 → 17 ≤ (s.inode (parentOf s.image path)).dirBlock ∧
      (s.inode (parentOf s.image path)).dirBlock < 65528)
    (hr : fsRemove s (some path) = some (0,s')) :
    (∀ b < 65528, used s'.image b = true ↔ used s.image b = true ∧
      ¬ ∃ n, nodePtr s.image (s.inode i) n ≠ 0 ∧ nodePtr s.image (s.inode i) n = b) ∧
    (∀ j < 256, inodeUsed s'.image j = true ↔ inodeUsed s.image j = true ∧ j ≠ i) ∧
    blockStoreGetUsedBlocks s.image wholeStore =
      blockStoreGetUsedBlocks s'.image wholeStore + {n | nodePtr s.image (s.inode i) n ≠ 0}.ncard := by
  subst hpath
  have hi := getFileInodeID_lt s.image (parentOf s.image path) (basename path)
  rcases fsRemove_cases hr with ⟨hneg,_⟩ | ⟨p,hp,_,_,_,hr,_⟩
  · exact absurd hneg (by decide)
  obtain rfl := Option.some.inj hp
  obtain ⟨m₁,k,hf,hd,him⟩ := removeIn_file hi hreg hlinks (fun n hn => (htree n hn).1) hr
  have hx : DataId (inodeAt s.image (parentOf s.image path)).dirBlock := hdir hd
  have hmarks : ∀ b < 65528, used s'.image b = true ↔ used s.image b = true ∧ ¬ ∃ n, nodePtr s.image
      (s.inode (getFileInodeID s.image (parentOf s.image path) (basename path))) n ≠ 0 ∧ nodePtr s.image
      (s.inode (getFileInodeID s.image (parentOf s.image path) (basename path))) n = b := by
    intro b hb
    rw [him, used_unlinked hd hi hx (by omega), hf.marks b (by omega)]
    refine and_congr_right (fun _ => not_congr ?_)
    constructor
    · rintro ⟨hne,n,rfl⟩
      exact ⟨n,hne,rfl⟩
    · rintro ⟨n,hne,rfl⟩
      exact ⟨hne,n,rfl⟩
  refine ⟨hmarks,fun j hj => ?_,usedBlocks_drop htree hinj hmarks⟩
  rw [him, inodeUsed_unlinked hx hj, hf.inodeUsed_eq hj, Bool.and_eq_true, Bool.not_eq_true',
    decide_eq_false_iff_not, and_comm, ne_comm]

theorem remove_reclaims_written : ∃ s s', run step fsFormat [.create (pathArg ['/','a']) .regular,
      .openFile (pathArg ['/','a']),.write 0 (some zeros) 1] = some s ∧ fsRemove s (some (ofChars ['/','a'])) = some (0,s') ∧
    (∀ j < 256, inodeUsed s'.image j = true ↔ inodeUsed s.image j = true ∧ j ≠ 1) ∧
    blockStoreGetUsedBlocks s.image wholeStore =
      blockStoreGetUsedBlocks s'.image wholeStore + {n | nodePtr s.image (s.inode 1) n ≠ 0}.ncard := by
  have hs : (run (checked plain step) fsFormat [.create (pathArg ['/','a']) .regular,
      .openFile (pathArg ['/','a']),.write 0 (some zeros) 1]).bind (fun s : F19FS =>
        (fsRemove s (some (ofChars ['/','a']))).map (fun r =>
          decide (getFileInodeID s.image (parentOf s.image (ofChars ['/','a'])) (basename (ofChars ['/','a'])) = 1) &&
          decide ((s.inode 1).fileType = typeRegular ∧ (s.inode 1).linkCount = 1) &&
          decide (17 ≤ (s.inode (parentOf s.image (ofChars ['/','a']))).dirBlock ∧
            (s.inode (parentOf s.image (ofChars ['/','a']))).dirBlock < 65528) && decide (r.1 = 0))) = some true := by
    decide +kernel
  obtain ⟨s,hs,hr⟩ := Option.bind_eq_some_iff.mp hs
  obtain ⟨⟨ret,s'⟩,hr,hf⟩ := Option.map_eq_some_iff.mp hr
  simp only [Bool.and_eq_true, decide_eq_true_eq] at hf
  obtain ⟨⟨⟨hpath,hreg,hlinks⟩,hdir⟩,rfl⟩ := hf
  obtain ⟨htree,hinj⟩ := (reachable_of_plain hs).inv.tree (show 1 < 256 by decide) (by
    show (s.inode 1).fileType ≠ typeDirectory
    rw [hreg]
    decide)
  have hall := remove_reclaims hpath hreg hlinks htree hinj (fun _ => hdir) hr
  exact ⟨s,s',run_of_checked hs,hr,hall.2⟩

end LiteOSFS
