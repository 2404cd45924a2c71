import LiteOSFS.FileSystem.WriteLevels
import Mathlib.Order.Interval.Finset.Nat
import Mathlib.Data.Finset.Union
import Mathlib.Order.Bounds.Basic

/-! # How far the free blocks reach

A byte of a file costs the blocks on the way to it that are not there yet. A write
takes them in the order of the bytes, so it ends at the last byte that the free
blocks pay for.
-/
namespace LiteOSFS
open Memory Ownership

/-- The nodes on the way to `r` bytes from offset `p` on. -/
def byteNodes (p r : ℕ) : Finset Node := (Finset.Ico p (p + r)).biUnion (fun o => (pathTo (o / 1024)).toFinset)

def absent (m : Mem) (x : Inode) (s : Finset Node) : Finset Node := s.filter (fun n => hasNode m x n = false)

/-- The data, indirect and double-indirect blocks to allocate before these bytes can be stored. -/
def blocksNeeded (m : Mem) (x : Inode) (p r : ℕ) : ℕ := (absent m x (byteNodes p r)).card

def Affordable (m : Mem) (x : Inode) (p r : ℕ) : Prop := blocksNeeded m x p r ≤ (freeBlocks m).length

section Bytes
variable {b off p r : ℕ} {n : Node}

theorem mem_byteNodes : n ∈ byteNodes p r ↔ ∃ o, (p ≤ o ∧ o < p + r) ∧ n ∈ pathTo (o / 1024) := by
  simp only [byteNodes, Finset.mem_biUnion, Finset.mem_Ico, List.mem_toFinset]

theorem byteNodes_zero : byteNodes p 0 = ∅ := by simp [byteNodes]

theorem byteNodes_mono {r' : ℕ} (h : r ≤ r') : byteNodes p r ⊆ byteNodes p r' := by
  apply Finset.biUnion_subset_biUnion_of_subset_left
  exact Finset.Ico_subset_Ico_right (by omega)

/-- Bytes of one block. -/
theorem byteNodes_block (hr : 0 < r) (hle : off + r ≤ 1024) :
    byteNodes (b * 1024 + off) r = (pathTo b).toFinset := by
  ext n
  rw [mem_byteNodes, List.mem_toFinset]
  constructor
  · rintro ⟨o,ho,hn⟩
    rwa [show o / 1024 = b by omega] at hn
  · intro hn
    exact ⟨b * 1024 + off,⟨le_rfl,by omega⟩,by rwa [show (b * 1024 + off) / 1024 = b by omega]⟩

/-- The rest of a block and the bytes after it. -/
theorem byteNodes_succ (hoff : off < 1024) :
    byteNodes (b * 1024 + off) (1024 - off + r) = (pathTo b).toFinset ∪ byteNodes ((b + 1) * 1024) r := by
  have hblock : byteNodes (b * 1024 + off) (1024 - off) = (pathTo b).toFinset := byteNodes_block (by omega) (by omega)
  ext n
  rw [Finset.mem_union, ← hblock, mem_byteNodes, mem_byteNodes, mem_byteNodes]
  constructor
  · rintro ⟨o,ho,hn⟩
    by_cases hlt : o < (b + 1) * 1024
    · exact Or.inl ⟨o,⟨ho.1,by omega⟩,hn⟩
    · exact Or.inr ⟨o,⟨by omega,by omega⟩,hn⟩
  · rintro (⟨o,ho,hn⟩ | ⟨o,ho,hn⟩)
    · exact ⟨o,⟨ho.1,by omega⟩,hn⟩
    · exact ⟨o,⟨by omega,by omega⟩,hn⟩

theorem pathTo_nodup (b : ℕ) : (pathTo b).Nodup := by
  unfold pathTo
  split_ifs <;> simp

end Bytes

section Absent
variable {m m' : Mem} {x x' : Inode} {p r : ℕ}

theorem blocksNeeded_zero : blocksNeeded m x p 0 = 0 := by
  rw [blocksNeeded, byteNodes_zero]
  rfl

theorem Affordable.mono {r' : ℕ} (h : Affordable m x p r') (hle : r ≤ r') : Affordable m x p r :=
  (Finset.card_le_card (Finset.filter_subset_filter _ (byteNodes_mono hle))).trans h

theorem affordable_zero : Affordable m x p 0 := by
  rw [Affordable, blocksNeeded_zero]
  exact Nat.zero_le _

theorem card_absent_list {ns : List Node} (h : ns.Nodup) :
    (absent m x ns.toFinset).card = ns.countP (fun n => !hasNode m x n) := by
  have hf : absent m x ns.toFinset = (ns.filter (fun n => !hasNode m x n)).toFinset := by
    ext n
    simp [absent]
  rw [hf, List.toFinset_card_of_nodup (h.filter _), List.countP_eq_length_filter]

/-- Blocks that were allocated for some nodes are not needed again for others. -/
theorem card_absent_union {s u : Finset Node}
    (h : ∀ n, hasNode m' x' n = (hasNode m x n || decide (n ∈ s))) :
    (absent m x (s ∪ u)).card = (absent m x s).card + (absent m' x' u).card := by
  have hu : absent m x (s ∪ u) = absent m x s ∪ absent m' x' u := by
    ext n
    simp only [absent, Finset.mem_filter, Finset.mem_union, h, Bool.or_eq_false_iff, decide_eq_false_iff_not]
    tauto
  rw [hu, Finset.card_union_of_disjoint]
  rw [Finset.disjoint_left]
  intro n hs hu
  have hn := (Finset.mem_filter.mp hu).2
  rw [h n, Bool.or_eq_false_iff, decide_eq_false_iff_not] at hn
  exact hn.2 (Finset.mem_filter.mp hs).1

end Absent

section Count
variable {m m' : Mem} {t : Table} {i : Fin 256} {x' : Inode}

theorem GrownAt.hasNode_eq {n : Node} {id : ℕ} (g : GrownAt m t i n id m' x') (hfile : (t i).fileType ≠ typeDirectory)
    (l : Node) : hasNode m' x' l = (hasNode m (t i) l || decide (l = n)) := by
  have htype : x'.fileType ≠ typeDirectory := by rwa [attributes_fileType g.attrs]
  have hh := g.holds (i,l)
  rw [held_update_same, owns_of_file htype, held, owns_of_file hfile] at hh
  rw [hasNode, hh, hasNode]
  by_cases hl : l = n
  · simp [hl, g.data.ne_zero]
  · simp [hl]

/-- Each missing node of a list takes one free block; the list is completed when they suffice. -/
theorem growPath_count {before ns rest : List Node} (hs : Sound m t) (hfile : (t i).fileType ≠ typeDirectory)
    (hroot : Rooted before ns) (hbefore : ∀ p ∈ before, nodePtr m (t i) p ≠ 0) (hc : Clean m (t i) (ns ++ rest))
    (hnd : ns.Nodup) {ok : Bool} (h : growPath m (t i) ns = (ok,m',x')) :
    (ok = true → (freeBlocks m).length = ns.countP (fun n => !hasNode m (t i) n) + (freeBlocks m').length) ∧
    (ok = false → (freeBlocks m).length < ns.countP (fun n => !hasNode m (t i) n)) := by
  induction ns generalizing m t before with
  | nil =>
    cases h
    simp
  | cons n ns ih =>
    obtain ⟨hpar,hroot'⟩ := hroot
    obtain ⟨hnot,hnd'⟩ := List.nodup_cons.mp hnd
    rw [List.countP_cons]
    by_cases hn : nodePtr m (t i) n = 0
    · rw [hasNode_false hn]
      by_cases hf : firstFree m = sizeMax
      · rw [growPath_none (grow_full hn hf)] at h
        cases h
        rw [freeBlocks_eq_nil hf]
        simp
      · obtain ⟨⟨m₁,x₁⟩,hg⟩ : ∃ r, grow m (t i) n = some r := ⟨_,grow_fresh hn hf⟩
        rw [growPath_some hg] at h
        have g := grow_missing hs hfile hn (fun p j hp => ⟨hbefore p (hpar p j hp).1,(hpar p j hp).2⟩)
          (fun k hk => hc.head hs.sys hn hf k hk) hg
        have hgr := g.grows hs hfile hn
        have hupd : (Function.update t i x₁) i = x₁ := Function.update_self ..
        have hhas := g.hasNode_eq hfile
        have hbefore' : ∀ p ∈ n :: before, nodePtr m₁ x₁ p ≠ 0 := by
          intro p hp
          have hh := hhas p
          rcases List.mem_cons.mp hp with rfl | hp
          · simpa [hasNode] using hh
          · rw [hasNode_true (hbefore p hp)] at hh
            simpa [hasNode] using hh
        have hcount : ns.countP (fun l => !hasNode m₁ x₁ l) = ns.countP (fun l => !hasNode m (t i) l) := by
          apply List.countP_congr
          intro l hl
          have hne : l ≠ n := fun he => hnot (he ▸ hl)
          simp [hhas l, hne]
        obtain ⟨hok,hfull⟩ := ih (m := m₁) (t := Function.update t i x₁) hgr.sound
          (by rw [hupd, attributes_fileType g.attrs]; exact hfile) hroot' (by rwa [hupd])
          (by rw [hupd]; exact hc.tail hs hfile hn hf g) hnd' (by rwa [hupd])
        rw [hupd, hcount] at hok hfull
        rw [freeBlocks_cons hs.sys hf g.marks, List.length_cons]
        refine ⟨fun ht => ?_,fun hff => ?_⟩
        · have he := hok ht
          simp only [Bool.not_false, if_true]
          omega
        · have hlt := hfull hff
          simp only [Bool.not_false, if_true]
          omega
    · rw [growPath_some (grow_present hn)] at h
      rw [hasNode_true hn]
      simp only [Bool.not_true, Bool.false_eq_true, if_false, Nat.add_zero]
      refine ih hs hfile hroot' (fun p hp => ?_) (hc.skip hn) hnd' h
      rcases List.mem_cons.mp hp with rfl | hp
      · exact hn
      · exact hbefore p hp

end Count

/-- The nodes of a list can be grown one after the other, with more to come. -/
structure Visitable (m : Mem) (t : Table) (i : Fin 256) (ns rest : List Node) : Prop where
  sound : Sound m t
  file : (t i).fileType ≠ typeDirectory
  rooted : Rooted [] ns
  nodup : ns.Nodup
  clean : Clean m (t i) (ns ++ rest)

section Visit
variable {i : Fin 256} {t : Table} {m m₁ : Mem} {x₁ : Inode} {b off n k r : ℕ} {ns rest : List Node}

theorem visitable_path (hs : Sound m t) (hfile : (t i).fileType ≠ typeDirectory) (hb : b < 262662)
    (hc : Clean m (t i) (pathTo b ++ rest)) : Visitable m t i (pathTo b) rest :=
  ⟨hs,hfile,rooted_pathTo hb,pathTo_nodup b,hc⟩

theorem Ready.visitable (hr : Ready m t i b off n) : ∃ rest, Visitable m t i (pathTo b) rest := by
  have hb := hr.bLt
  obtain ⟨rest,htouch,_⟩ := touchedNodes_step (b := b) (n := n) hr.offLt
  exact ⟨rest,visitable_path hr.sound hr.file (by omega) (htouch ▸ hr.clean)⟩

theorem Ready.visitable_up (hr : Ready m t i b off n) : ∃ rest, Visitable m t i (pathTo b).dropLast rest := by
  obtain ⟨rest,hv⟩ := hr.visitable
  have hc := hv.clean
  rw [pathTo_concat b, List.append_assoc] at hc
  exact ⟨_,hv.sound,hv.file,rooted_dropLast hv.rooted,hv.nodup.sublist (List.dropLast_sublist _),hc⟩

theorem Visitable.count (hv : Visitable m t i ns rest) {ok : Bool} (h : growPath m (t i) ns = (ok,m₁,x₁)) :
    (ok = true → (freeBlocks m).length = (absent m (t i) ns.toFinset).card + (freeBlocks m₁).length) ∧
    (ok = false → (freeBlocks m).length < (absent m (t i) ns.toFinset).card) := by
  rw [card_absent_list hv.nodup]
  exact growPath_count hv.sound hv.file hv.rooted (by simp) hv.clean hv.nodup h

theorem Visitable.grown (hv : Visitable m t i ns rest) (h : growPath m (t i) ns = (true,m₁,x₁)) (l : Node) :
    hasNode m₁ x₁ l = (hasNode m (t i) l || decide (l ∈ ns.toFinset)) := by
  obtain ⟨hg,hok,_⟩ := growPath_spec hv.sound hv.file hv.rooted (by simp) hv.clean h
  simp only [hasNode, List.mem_toFinset]
  by_cases hl : l ∈ ns
  · simp [hl, (hok rfl).1 l hl]
  by_cases h0 : nodePtr m (t i) l = 0
  · have h1 : nodePtr m₁ x₁ l = 0 := by
      by_contra h1
      exact hl (hg.visited l h0 h1)
    simp [hl, h1, h0]
  · simp [hg.nodePtr_eq hv.file h0, h0]

/-- What the nodes of the list cost is paid when they are grown. -/
theorem Visitable.paid (hv : Visitable m t i ns rest) (h : growPath m (t i) ns = (true,m₁,x₁)) (u : Finset Node) :
    (absent m (t i) (ns.toFinset ∪ u)).card ≤ (freeBlocks m).length ↔
      (absent m₁ x₁ u).card ≤ (freeBlocks m₁).length := by
  rw [card_absent_union (hv.grown h), (hv.count h).1 rfl, Nat.add_le_add_iff_left]

/-- Storing a block's bytes costs nothing. -/
theorem Visitable.stored (hv : Visitable m t i (pathTo b) rest) (h : growPath m (t i) (pathTo b) = (true,m₁,x₁))
    (c : Mem) : freeBlocks (storeAt m₁ x₁ b c) = freeBlocks m₁ ∧
      hasNode (storeAt m₁ x₁ b c) x₁ = hasNode m₁ x₁ := by
  obtain ⟨hg,hok,_⟩ := growPath_spec hv.sound hv.file hv.rooted (by simp) hv.clean h
  have hupd : (Function.update t i x₁) i = x₁ := Function.update_self ..
  have hfile : (Function.update t i x₁ i).fileType ≠ typeDirectory := by
    rw [hupd, attributes_fileType hg.attrs]
    exact hv.file
  have hdata : nodePtr m₁ (Function.update t i x₁ i) (.data b) ≠ 0 := by
    rw [hupd]
    exact (hok rfl).1 _ (by rw [pathTo_concat b]; simp)
  have hkeep := nodePtr_storeAt (b := b) (c := c) hg.sound hfile
  have hid := (dataId_of_node hg.sound hfile hdata).1
  rw [hupd] at hkeep hid
  refine ⟨freeBlocks_congr (fun k hk => used_putBlock hid (by omega)),?_⟩
  funext n
  rw [hasNode, hasNode, hkeep]

theorem Visitable.affordable_block (hv : Visitable m t i (pathTo b) rest)
    (h : growPath m (t i) (pathTo b) = (true,m₁,x₁)) (hk : off + k ≤ 1024) :
    Affordable m (t i) (b * 1024 + off) k := by
  rcases Nat.eq_zero_or_pos k with rfl | hpos
  · exact affordable_zero
  · rw [Affordable, blocksNeeded, byteNodes_block hpos hk, (hv.count h).1 rfl]
    exact Nat.le_add_right _ _

theorem Visitable.not_affordable {m' : Mem} {x' : Inode} (hv : Visitable m t i (pathTo b) rest)
    (h : growPath m (t i) (pathTo b) = (false,m',x')) (hoff : off < 1024) (hk : 0 < k) :
    ¬ Affordable m (t i) (b * 1024 + off) k := by
  intro ha
  have h1 := Affordable.mono ha (Nat.succ_le_of_lt hk)
  rw [Affordable, blocksNeeded, byteNodes_block Nat.one_pos (by omega)] at h1
  exact absurd h1 (not_le.mpr ((hv.count h).2 rfl))

/-- What is affordable after a block is what was affordable past it. -/
theorem Visitable.affordable_succ (hv : Visitable m t i (pathTo b) rest)
    (h : growPath m (t i) (pathTo b) = (true,m₁,x₁)) (hoff : off < 1024) (c : Mem) :
    Affordable (storeAt m₁ x₁ b c) x₁ ((b + 1) * 1024) r ↔ Affordable m (t i) (b * 1024 + off) (1024 - off + r) := by
  obtain ⟨hfree,hhas⟩ := hv.stored h c
  rw [Affordable, Affordable, blocksNeeded, blocksNeeded, byteNodes_succ hoff, hv.paid h, absent, absent, hhas, hfree]

/-- The index blocks of the first block are part of the cost. -/
theorem Visitable.affordable_up (hv : Visitable m t i (pathTo b).dropLast rest)
    (h : growPath m (t i) (pathTo b).dropLast = (true,m₁,x₁)) (hoff : off < 1024) :
    Affordable m₁ x₁ (b * 1024 + off) k ↔ Affordable m (t i) (b * 1024 + off) k := by
  rcases Nat.eq_zero_or_pos k with rfl | hpos
  · exact iff_of_true affordable_zero affordable_zero
  have hsub : (pathTo b).dropLast.toFinset ⊆ byteNodes (b * 1024 + off) k := by
    intro l hl
    rw [mem_byteNodes]
    refine ⟨b * 1024 + off,⟨le_rfl,by omega⟩,?_⟩
    rw [show (b * 1024 + off) / 1024 = b by omega]
    exact List.dropLast_subset _ (List.mem_toFinset.mp hl)
  have hp := hv.paid h (byteNodes (b * 1024 + off) k)
  rw [Finset.union_eq_right.mpr hsub] at hp
  exact hp.symm

end Visit

/-- A write ends where the free blocks end. -/
theorem Wrote.greatest {i : Fin 256} {m m' : Mem} {t : Table} {x x' : Inode} {b off n sum : ℕ} {src : Mem}
    (h : Wrote m x b off src n sum m' x') (hx : x = t i) (hs : Sound m t) (hfile : (t i).fileType ≠ typeDirectory)
    (hoff : off < 1024) (hc : 0 < n → Clean m (t i) (touchedNodes b off n)) :
    IsGreatest {r | r ≤ n ∧ Affordable m x (b * 1024 + off) r} sum ∧ (sum < n → freeBlocks m' = []) := by
  induction h generalizing t with
  | done => exact ⟨⟨⟨le_rfl,affordable_zero⟩,fun r h => h.1⟩,fun h => absurd h (lt_irrefl 0)⟩
  | @full m x b off src n m' x' hb hn hg =>
    subst hx
    obtain ⟨rest,htouch,_⟩ := touchedNodes_step (b := b) (n := n) hoff.le
    have hc := hc hn
    rw [htouch] at hc
    have hv := visitable_path hs hfile (show b < 262662 by omega) hc
    refine ⟨⟨⟨Nat.zero_le n,affordable_zero⟩,fun r h => ?_⟩,fun _ => ?_⟩
    · by_contra hr
      exact hv.not_affordable hg hoff (by omega) h.2
    · exact freeBlocks_eq_nil ((growPath_spec hs hfile (rooted_pathTo (by omega)) (by simp) hc hg).2.2 rfl).1
  | @step m x b off src n sum m₁ x₁ m' x' hb hn hg _ ih =>
    subst hx
    obtain ⟨rest,htouch,hrest⟩ := touchedNodes_step (b := b) (n := n) hoff.le
    have hc := hc hn
    rw [htouch] at hc
    have hv := visitable_path hs hfile (show b < 262662 by omega) hc
    obtain ⟨hgr,htype,_,hext,hclean,_⟩ := touch_spec hs hfile (by omega) hc hg
      (piece m (t i) m₁ x₁ b off src (min (1024 - off) n))
    have hupd : (Function.update t i x₁) i = x₁ := Function.update_self ..
    obtain ⟨hmax,hran⟩ := ih (t := Function.update t i x₁) hupd.symm (hgr.toExtends.trans hext).sound (by rwa [hupd])
      (by omega) (fun hpos => by rw [hupd, ← hrest hpos]; exact hclean)
    rw [Nat.add_zero] at hmax
    have hle := hmax.1.1
    refine ⟨⟨⟨by omega,?_⟩,fun r h => ?_⟩,fun hlt => hran (by omega)⟩
    · by_cases hlast : n - min (1024 - off) n = 0
      · exact hv.affordable_block hg (by omega)
      · rw [show min (1024 - off) n = 1024 - off by omega]
        exact (hv.affordable_succ hg hoff _).mp hmax.1.2
    · have hrn := h.1
      by_cases hlast : r ≤ 1024 - off
      · omega
      · have haff := (hv.affordable_succ (r := r - (1024 - off)) hg hoff
          (piece m (t i) m₁ x₁ b off src (min (1024 - off) n))).mpr
          (by rw [Nat.add_sub_cancel' (by omega)]; exact h.2)
        have hr := hmax.2 ⟨show r - (1024 - off) ≤ n - min (1024 - off) n by omega,haff⟩
        omega

theorem WriteCall.greatest {i : Fin 256} {m m' : Mem} {t : Table} {x' : Inode} {b off n sum : ℕ} {src : Mem}
    (h : WriteCall m (t i) b off src n sum m' x') (hr : Ready m t i b off n) (hoff : off < 1024) :
    IsGreatest {r | r ≤ n ∧ Affordable m (t i) (b * 1024 + off) r} sum ∧ (sum < n → freeBlocks m' = []) := by
  have hzero : n = 0 → sum = 0 →
      IsGreatest {r | r ≤ n ∧ Affordable m (t i) (b * 1024 + off) r} sum ∧ (sum < n → freeBlocks m' = []) := by
    rintro rfl rfl
    exact ⟨⟨⟨le_rfl,affordable_zero⟩,fun r h => h.1⟩,fun h => absurd h (lt_irrefl 0)⟩
  cases h with
  | wrote h => exact h.greatest rfl hr.sound hr.file hoff (fun _ => hr.clean)
  | index _ hn hsum => exact hzero hn hsum
  | touch _ hn hsum => exact hzero hn hsum

end LiteOSFS
