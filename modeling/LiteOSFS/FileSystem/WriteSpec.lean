import LiteOSFS.Storage.FreeList
import LiteOSFS.FileSystem.Write

/-! # Writing block by block

`Wrote` describes a write without the three levels of the code: block after block
the path to the block is grown and the piece of the source that falls into it is
stored.
-/
namespace LiteOSFS
open Memory Ownership

/-- A data block of the file gets new bytes. -/
def storeAt (m : Mem) (x : Inode) (b : ℕ) (c : Mem) : Mem := putBlock m (nodePtr m x (.data b)) c

/-- The bytes stored in block `b`: a fresh direct block takes 1024 bytes of the source from its start. -/
def piece (m : Mem) (x : Inode) (m₁ : Mem) (x₁ : Inode) (b off : ℕ) (src : Mem) (len : ℕ) : Mem :=
  if b < 6 ∧ nodePtr m x (.data b) = 0 then copyIn zeros 0 1024 src
  else copyIn (blockAt m₁ (nodePtr m₁ x₁ (.data b))) off len src

/-- Blocks up to 65541 lie in the range of a 16-bit locator. -/
inductive Wrote : Mem → Inode → (b off : ℕ) → Mem → (n sum : ℕ) → Mem → Inode → Prop where
  | done {m x b off src} : Wrote m x b off src 0 0 m x
  | full {m x b off src n m' x'} (hb : b < 65542) (hn : 0 < n) (h : growPath m x (pathTo b) = (false,m',x')) :
      Wrote m x b off src n 0 m' x'
  | step {m x b off src n sum m₁ x₁ m' x'} (hb : b < 65542) (hn : 0 < n)
      (h : growPath m x (pathTo b) = (true,m₁,x₁))
      (hr : Wrote (storeAt m₁ x₁ b (piece m x m₁ x₁ b off src (min (1024 - off) n))) x₁ (b + 1) 0
        (shift src (min (1024 - off) n)) (n - min (1024 - off) n) sum m' x') :
      Wrote m x b off src n (min (1024 - off) n + sum) m' x'

/-- A call. With no bytes to write it may still allocate: the direct block that the cursor stands in, or
the index blocks above it. -/
inductive WriteCall (m : Mem) (x : Inode) (b off : ℕ) (src : Mem) (n sum : ℕ) (m' : Mem) (x' : Inode) : Prop where
  | wrote (h : Wrote m x b off src n sum m' x')
  | index {ok : Bool} (hb : b < 65542) (hn : n = 0) (hsum : sum = 0)
      (h : growPath m x (pathTo b).dropLast = (ok,m',x'))
  | touch {m₁ : Mem} (hb : b < 6) (hn : n = 0) (hsum : sum = 0) (h : growPath m x (pathTo b) = (true,m₁,x'))
      (hm : m' = storeAt m₁ x' b (piece m x m₁ x' b off src 0))

theorem WriteCall.wrote_of_pos {m m' : Mem} {x x' : Inode} {b off n sum : ℕ} {src : Mem}
    (h : WriteCall m x b off src n sum m' x') (hn : 0 < n) : Wrote m x b off src n sum m' x' := by
  cases h with
  | wrote h => exact h
  | index _ h0 => omega
  | touch _ h0 => omega

/-- The nodes that a write of `n` bytes at offset `off` of block `b` visits. -/
def touchedNodes (b off n : ℕ) : List Node :=
  (List.range' b ((off + max n 1 - 1) / 1024 + 1)).flatMap pathTo

theorem touchedNodes_step {b off n : ℕ} (hoff : off ≤ 1024) :
    ∃ rest, touchedNodes b off n = pathTo b ++ rest ∧
      (0 < n - min (1024 - off) n → rest = touchedNodes (b + 1) 0 (n - min (1024 - off) n)) := by
  refine ⟨(List.range' (b + 1) ((off + max n 1 - 1) / 1024)).flatMap pathTo,?_,fun hn => ?_⟩
  · rw [touchedNodes, List.range'_succ, List.flatMap_cons]
  · rw [touchedNodes]
    congr 2
    omega

/-- Below block 518 there are no second-level index blocks. -/
theorem clean_of_low {m : Mem} {x : Inode} {b off n : ℕ} (h : b + (off + max n 1 - 1) / 1024 < 518) :
    Clean m x (touchedNodes b off n) := by
  intro k id hk
  obtain ⟨c,hc,hmem⟩ := List.mem_flatMap.mp (fill_subset hk)
  have hlt : c < 518 := by
    have hr := List.mem_range'_1.mp hc
    omega
  unfold pathTo at hmem
  split_ifs at hmem <;> simp at hmem

section Store
variable {m : Mem} {t : Table} {i : Fin 256} {b : ℕ} {c : Mem}

theorem held_storeAt (hs : Sound m t) (hfile : (t i).fileType ≠ typeDirectory) (q : Place) : held (storeAt m (t i) b c) t q = held m t q := by
  have hown : held m t (i,.data b) = nodePtr m (t i) (.data b) := owns_of_file hfile
  apply held_putBlock
  intro q n j hp hne
  rw [← hown]
  apply hs.own.ne_of_ne hne
  rintro rfl
  exact Node.parent_ne_data hp rfl

theorem dataId_of_node {n : Node} (hs : Sound m t) (hfile : (t i).fileType ≠ typeDirectory)
    (hn : nodePtr m (t i) n ≠ 0) : DataId (nodePtr m (t i) n) ∧ used m (nodePtr m (t i) n) = true := by
  have hown : held m t (i,n) = nodePtr m (t i) n := owns_of_file hfile
  rw [← hown] at hn ⊢
  exact hs.own.holds _ hn

theorem Sound.nodePtr_le (hs : Sound m t) (hfile : (t i).fileType ≠ typeDirectory) (n : Node) :
    nodePtr m (t i) n ≤ 65528 := by
  by_cases hn : nodePtr m (t i) n = 0
  · omega
  · exact (dataId_of_node hs hfile hn).1.2.le

theorem node_ne {n n' : Node} (hs : Sound m t) (hfile : (t i).fileType ≠ typeDirectory)
    (hn : nodePtr m (t i) n ≠ 0) (hne : n ≠ n') : nodePtr m (t i) n ≠ nodePtr m (t i) n' := by
  have hown : ∀ n, held m t (i,n) = nodePtr m (t i) n := fun n => owns_of_file hfile
  rw [← hown] at hn
  rw [← hown, ← hown]
  exact hs.own.ne_of_ne hn (by simpa using hne)

theorem storeAt_extends (hs : Sound m t) (hfile : (t i).fileType ≠ typeDirectory)
    (hb : nodePtr m (t i) (.data b) ≠ 0) : Extends m t i (storeAt m (t i) b c) (t i) := by
  have hown : held m t (i,.data b) = nodePtr m (t i) (.data b) := owns_of_file hfile
  have hid := (dataId_of_node hs hfile hb).1
  have hheld : ∀ q, held (storeAt m (t i) b c) t q = held m t q := held_storeAt hs hfile
  have hsteps : SysSteps m (storeAt m (t i) b c) := SysSteps.putBlock hid c
  have hindex : ∀ (q : Place) (n : Node) (j : ℕ), n.parent = some (q.2,j) → held m t q ≠ 0 →
      held m t q ≠ nodePtr m (t i) (.data b) := by
    intro q n j hp hne
    rw [← hown]
    apply hs.own.ne_of_ne hne
    rintro rfl
    exact Node.parent_ne_data hp rfl
  constructor
  · rw [Function.update_eq_self]
    exact ⟨hsteps.sysUsed hs.sys,hs.own.putBlock hid hindex⟩
  · rfl
  · intro q _
    rw [Function.update_eq_self, hheld]
  · intro q h0 h1
    rw [Function.update_eq_self, hheld] at h1
    exact absurd h0 h1
  · intro k hk hu
    rwa [storeAt, used_putBlock hid hk]
  · intro k _ hk
    rw [storeAt, blockAt_putBlock, if_neg]
    rw [← hown]
    exact hk _
  · exact fun j hj => inodeAt_putBlock hid hj
  · exact fun j hj => inodeUsed_putBlock hid hj
  · exact hsteps

theorem nodePtr_storeAt (hs : Sound m t) (hfile : (t i).fileType ≠ typeDirectory) (n : Node) : nodePtr (storeAt m (t i) b c) (t i) n = nodePtr m (t i) n := by
  have hh := held_storeAt (b := b) (c := c) hs hfile (i,n)
  rwa [held, held, owns_of_file hfile, owns_of_file hfile] at hh

theorem Clean.storeAt {ns : List Node} (h : Clean m (t i) ns) (hs : Sound m t)
    (hfile : (t i).fileType ≠ typeDirectory) (hb : nodePtr m (t i) (.data b) ≠ 0) :
    Clean (storeAt m (t i) b c) (t i) ns := by
  obtain ⟨hid,hu⟩ := dataId_of_node hs hfile hb
  have hhas : hasNode (LiteOSFS.storeAt m (t i) b c) (t i) = hasNode m (t i) := by
    funext n
    rw [hasNode, hasNode, nodePtr_storeAt hs hfile]
  have hfree : freeBlocks (LiteOSFS.storeAt m (t i) b c) = freeBlocks m :=
    freeBlocks_congr (fun k hk => used_putBlock hid (by omega))
  intro k id hk
  rw [hhas, hfree] at hk
  rw [LiteOSFS.storeAt, blockAt_putBlock, if_neg, h k id hk]
  rintro rfl
  rw [(mem_freeBlocks.mp (mem_of_mem_fill hk)).2] at hu
  cases hu

/-- A store changes the bytes of its own block only. -/
theorem fileByte_storeAt (hs : Sound m t) (hfile : (t i).fileType ≠ typeDirectory)
    (hb : nodePtr m (t i) (.data b) ≠ 0) (o : ℕ) : fileByte (storeAt m (t i) b c) (t i) o =
      if o / 1024 = b then some (c (o % 1024)) else fileByte m (t i) o := by
  have hown : ∀ n, held m t (i,n) = nodePtr m (t i) n := fun n => owns_of_file hfile
  rw [fileByte, nodePtr_storeAt hs hfile, storeAt, blockAt_putBlock, fileByte]
  by_cases ho : o / 1024 = b
  · rw [if_pos ho, ho, if_neg hb, if_pos rfl, window_apply_lt (Nat.mod_lt _ (by omega)), Nat.zero_add]
  · rw [if_neg ho]
    by_cases hz : nodePtr m (t i) (.data (o / 1024)) = 0
    · rw [if_pos hz, if_pos hz]
    · rw [if_neg hz, if_neg hz, if_neg]
      rw [← hown, ← hown]
      exact hs.own.ne_of_ne (by rwa [hown]) (by simp [Ne.symm ho])

end Store

/-- One block of a write. -/
theorem touch_spec {m : Mem} {t : Table} {i : Fin 256} {b : ℕ} {rest : List Node} (hs : Sound m t)
    (hfile : (t i).fileType ≠ typeDirectory) (hb : b < 262662) (hc : Clean m (t i) (pathTo b ++ rest))
    {m₁ : Mem} {x₁ : Inode} (h : growPath m (t i) (pathTo b) = (true,m₁,x₁)) (c : Mem) :
    Grows m t i (pathTo b) m₁ x₁ ∧ x₁.fileType ≠ typeDirectory ∧ nodePtr m₁ x₁ (.data b) ≠ 0 ∧
      Extends m₁ (Function.update t i x₁) i (storeAt m₁ x₁ b c) x₁ ∧
      Clean (storeAt m₁ x₁ b c) x₁ rest ∧
      ∀ n, nodePtr (storeAt m₁ x₁ b c) x₁ n = nodePtr m₁ x₁ n := by
  obtain ⟨hg,hok,_⟩ := growPath_spec hs hfile (rooted_pathTo hb) (by simp) hc h
  obtain ⟨hall,hclean⟩ := hok rfl
  have hupd : (Function.update t i x₁) i = x₁ := Function.update_self ..
  have htype : x₁.fileType ≠ typeDirectory := by rwa [attributes_fileType hg.attrs]
  have hdata : nodePtr m₁ x₁ (.data b) ≠ 0 := by
    apply hall
    unfold pathTo
    split_ifs <;> simp
  have hs₁ := hg.sound
  have hfile₁ : (Function.update t i x₁ i).fileType ≠ typeDirectory := by rwa [hupd]
  have hdata₁ : nodePtr m₁ (Function.update t i x₁ i) (.data b) ≠ 0 := by rwa [hupd]
  have he := storeAt_extends (c := c) hs₁ hfile₁ hdata₁
  have hc₁ : Clean m₁ (Function.update t i x₁ i) rest := by rwa [hupd]
  have hcl := hc₁.storeAt (c := c) hs₁ hfile₁ hdata₁
  have hn := nodePtr_storeAt (c := c) (b := b) hs₁ hfile₁
  simp only [hupd] at he hcl hn
  exact ⟨hg,htype,hdata,he,hcl,hn⟩

end LiteOSFS
