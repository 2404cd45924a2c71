import LiteOSFS.FileSystem.CreateEffect
import LiteOSFS.FileSystem.Remove
import LiteOSFS.FileSystem.WriteSpec

/-! # What fs_remove does to the image -/
namespace LiteOSFS
open Memory CString Ownership

/-- The blocks in `S` are released and nothing else changes. -/
structure Freed (S : ℕ → Prop) (m m' : Mem) : Prop where
  low : AgreeOn m' m 0 (65528 * 1024)
  marks : ∀ b < 65536, used m' b = true ↔ used m b = true ∧ ¬ S b
  steps : SysSteps m m'

section Freed
variable {S T : ℕ → Prop} {m m₁ m' : Mem}

theorem Freed.refl (hS : ∀ b, ¬ S b) : Freed S m m :=
  ⟨fun _ _ _ => rfl,fun b _ => ⟨fun h => ⟨h,hS b⟩,fun h => h.1⟩,Relation.ReflTransGen.refl⟩

theorem Freed.trans (h : Freed S m m₁) (h' : Freed T m₁ m') : Freed (fun b => S b ∨ T b) m m' := by
  refine ⟨fun a ha hb => (h'.low a ha hb).trans (h.low a ha hb),fun b hb => ?_,h.steps.trans h'.steps⟩
  rw [h'.marks b hb, h.marks b hb, not_or, and_assoc]

theorem Freed.congr (h : Freed S m m') (hST : ∀ b, S b ↔ T b) : Freed T m m' :=
  ⟨h.low,fun b hb => by rw [h.marks b hb, hST b],h.steps⟩

theorem Freed.blockAt_eq (h : Freed S m m') {id : ℕ} (hid : id < 65528) : blockAt m' id = blockAt m id :=
  blockAt_congr (fun a _ hb => h.low a (Nat.zero_le a) (by omega))

theorem Freed.inodeAt_eq (h : Freed S m m') {i : ℕ} (hi : i < 256) : inodeAt m' i = inodeAt m i :=
  inodeAt_congr (fun a _ hb => h.low a (Nat.zero_le a) (by omega))

theorem Freed.inodeUsed_eq (h : Freed S m m') {i : ℕ} (hi : i < 256) : inodeUsed m' i = inodeUsed m i :=
  inodeUsed_congr (fun a _ hb => h.low a (Nat.zero_le a) (by omega)) hi

theorem freed_release {id : ℕ} (hid : DataId id) : Freed (· = id) m (blockStoreRelease m wholeStore id) := by
  have hlt := hid.2
  refine ⟨?_,fun b hb => ?_,Relation.ReflTransGen.single (SysStep.release hid)⟩
  · rw [blockStoreRelease_whole hlt.le]
    split_ifs
    · exact clearUsed_agreeOn m id le_rfl
    · exact fun _ _ _ => rfl
  · rw [blockStoreRelease_whole hlt.le]
    split_ifs with hu
    · rw [used_clearUsed]
      by_cases he : id = b
      · simp [he]
      · simp [he, Ne.symm he]
    · constructor
      · intro h
        refine ⟨h,?_⟩
        rintro rfl
        exact hu h
      · exact fun h => h.1

theorem freed_releaseAll {p : ℕ → UInt16} {n : ℕ} (h : ∀ j < n, p j ≠ 0 → DataId (p j).toNat) :
    Freed (fun b => ∃ j < n, p j ≠ 0 ∧ (p j).toNat = b) m (releaseAll m p n) := by
  induction n with
  | zero => exact Freed.refl (by rintro b ⟨j,hj,_⟩; omega)
  | succ n ih =>
    have hn := ih (fun j hj => h j (by omega))
    rw [releaseAll, List.range_succ, List.foldl_append, ← releaseAll, List.foldl_cons, List.foldl_nil]
    have hlast : Freed (fun b => p n ≠ 0 ∧ (p n).toNat = b) (releaseAll m p n)
        (if p n ≠ 0 then blockStoreRelease (releaseAll m p n) wholeStore (p n).toNat
          else releaseAll m p n) := by
      split_ifs with hz
      · exact (freed_release (h n (by omega) hz)).congr (fun b => ⟨fun he => ⟨hz,he.symm⟩,fun he => he.2.symm⟩)
      · exact Freed.refl (fun b hb => hz hb.1)
    refine (hn.trans hlast).congr (fun b => ⟨?_,?_⟩)
    · rintro (⟨j,hj,hb⟩ | hb)
      · exact ⟨j,by omega,hb⟩
      · exact ⟨n,by omega,hb⟩
    · rintro ⟨j,hj,hb⟩
      by_cases hjn : j = n
      · subst hjn
        exact Or.inr hb
      · exact Or.inl ⟨j,by omega,hb⟩

/-- An index block and what it points at. -/
theorem freed_releaseIndirect {a : UInt16} (ha : a ≠ 0 → DataId a.toNat)
    (hslots : a ≠ 0 → ∀ j < 512, pointersOf (blockAt m a.toNat) j ≠ 0 →
      DataId (pointersOf (blockAt m a.toNat) j).toNat) :
    ∃ m', releaseIndirect m a = some m' ∧
      Freed (fun b => a ≠ 0 ∧ (a.toNat = b ∨ ∃ j < 512, pointersOf (blockAt m a.toNat) j ≠ 0 ∧
        (pointersOf (blockAt m a.toNat) j).toNat = b)) m m' := by
  by_cases hz : a = 0
  · exact ⟨m,if_pos hz,Freed.refl (fun b hb => hb.1 hz)⟩
  · refine ⟨_,?_,((freed_releaseAll (hslots hz)).trans (freed_release (ha hz))).congr (fun b => ?_)⟩
    · rw [releaseIndirect, if_neg hz, readPointers, blockStoreRead_data (ha hz).2.le]
      rfl
    · constructor
      · rintro (hb | rfl)
        · exact ⟨hz,Or.inr hb⟩
        · exact ⟨hz,Or.inl rfl⟩
      · rintro ⟨_,rfl | hb⟩
        · exact Or.inr rfl
        · exact Or.inl hb

theorem freed_releaseDouble {a : UInt16} (ha : a ≠ 0 → DataId a.toNat)
    (hsec : a ≠ 0 → ∀ k < 512, pointersOf (blockAt m a.toNat) k ≠ 0 →
      DataId (pointersOf (blockAt m a.toNat) k).toNat ∧
      ∀ j < 512, pointersOf (blockAt m (pointersOf (blockAt m a.toNat) k).toNat) j ≠ 0 →
        DataId (pointersOf (blockAt m (pointersOf (blockAt m a.toNat) k).toNat) j).toNat) :
    ∃ m', releaseDouble m a = some m' ∧
      Freed (fun b => a ≠ 0 ∧ (a.toNat = b ∨ ∃ k < 512, pointersOf (blockAt m a.toNat) k ≠ 0 ∧
        ((pointersOf (blockAt m a.toNat) k).toNat = b ∨
          ∃ j < 512, pointersOf (blockAt m (pointersOf (blockAt m a.toNat) k).toNat) j ≠ 0 ∧
            (pointersOf (blockAt m (pointersOf (blockAt m a.toNat) k).toNat) j).toNat = b))) m m' := by
  by_cases hz : a = 0
  · exact ⟨m,if_pos hz,Freed.refl (fun b hb => hb.1 hz)⟩
  obtain ⟨ptrs,hptrs⟩ : ∃ ptrs, ptrs = pointersOf (blockAt m a.toNat) := ⟨_,rfl⟩
  rw [← hptrs] at hsec ⊢
  have hsec := hsec hz
  have hloop : ∀ n ≤ 512, ∃ m', (List.range n).foldlM (fun m i => releaseIndirect m (ptrs i)) m = some m' ∧
      Freed (fun b => ∃ k < n, ptrs k ≠ 0 ∧ ((ptrs k).toNat = b ∨
        ∃ j < 512, pointersOf (blockAt m (ptrs k).toNat) j ≠ 0 ∧
          (pointersOf (blockAt m (ptrs k).toNat) j).toNat = b)) m m' := by
    intro n
    induction n with
    | zero => exact fun _ => ⟨m,rfl,Freed.refl (by rintro b ⟨k,hk,_⟩; omega)⟩
    | succ n ih =>
      intro hn
      obtain ⟨m₁,hm₁,hf₁⟩ := ih (by omega)
      have hsame : ptrs n ≠ 0 → blockAt m₁ (ptrs n).toNat = blockAt m (ptrs n).toNat :=
        fun hne => hf₁.blockAt_eq (hsec n (by omega) hne).1.2
      obtain ⟨m₂,hm₂,hf₂⟩ := freed_releaseIndirect (m := m₁) (a := ptrs n)
        (fun hne => (hsec n (by omega) hne).1)
        (fun hne => by rw [hsame hne]; exact (hsec n (by omega) hne).2)
      refine ⟨m₂,?_,(hf₁.trans hf₂).congr (fun b => ?_)⟩
      · rw [List.range_succ, List.foldlM_append, hm₁]
        simp [hm₂]
      · constructor
        · rintro (⟨k,hk,hb⟩ | ⟨hne,hb⟩)
          · exact ⟨k,by omega,hb⟩
          · rw [hsame hne] at hb
            exact ⟨n,by omega,hne,hb⟩
        · rintro ⟨k,hk,hne,hb⟩
          by_cases hkn : k = n
          · subst hkn
            rw [hsame hne]
            exact Or.inr ⟨hne,hb⟩
          · exact Or.inl ⟨k,by omega,hne,hb⟩
  obtain ⟨m₁,hm₁,hf₁⟩ := hloop 512 le_rfl
  refine ⟨_,?_,(hf₁.trans (freed_release (ha hz))).congr (fun b => ?_)⟩
  · rw [releaseDouble, if_neg hz, readPointers, blockStoreRead_data (ha hz).2.le]
    simp only [Option.map_some, Option.bind_some, ← hptrs, hm₁]
  · constructor
    · rintro (hb | rfl)
      · exact ⟨hz,Or.inr hb⟩
      · exact ⟨hz,Or.inl rfl⟩
    · rintro ⟨_,rfl | hb⟩
      · exact Or.inr rfl
      · exact Or.inl hb

end Freed

section Levels
variable {m : Mem} {x : Inode} {c j k b : ℕ}

theorem pointer_ne_zero {v : UInt16} : v ≠ 0 ↔ v.toNat ≠ 0 :=
  ⟨fun h he => h (UInt16.toNat_inj.mp he),fun h he => h (by rw [he]; rfl)⟩

theorem nodePtr_direct (hj : j < 6) : (x.directPointer ⟨j,hj⟩).toNat = nodePtr m x (.data j) := by
  rw [nodePtr, if_pos hj, Inode.top, dif_pos hj]

theorem parent_indirect (hj : j < 512) : (Node.data (6 + j)).parent = some (.ind,j) := by
  rw [Node.parent, if_neg (by omega), if_pos (by omega), Nat.add_sub_cancel_left]

theorem parent_second (hj : j < 512) : (Node.data (518 + 512 * k + j)).parent = some (.sec k,j) := by
  rw [Node.parent, if_neg (by omega), if_neg (by omega), show (518 + 512 * k + j - 518) / 512 = k by omega,
    show (518 + 512 * k + j - 518) % 512 = j by omega]

theorem nodePtr_indirect (hj : j < 512) (hi : nodePtr m x .ind ≠ 0) :
    (pointersOf (blockAt m (nodePtr m x .ind)) j).toNat = nodePtr m x (.data (6 + j)) := by
  rw [nodePtr_slot (parent_indirect hj), slotAt, if_neg hi]

theorem nodePtr_double (k : ℕ) (hd : nodePtr m x .dbl ≠ 0) :
    (pointersOf (blockAt m (nodePtr m x .dbl)) k).toNat = nodePtr m x (.sec k) := by
  rw [nodePtr_slot (n := .sec k) rfl, slotAt, if_neg hd]

theorem nodePtr_second (hj : j < 512) (hk : nodePtr m x (.sec k) ≠ 0) :
    (pointersOf (blockAt m (nodePtr m x (.sec k))) j).toNat = nodePtr m x (.data (518 + 512 * k + j)) := by
  rw [nodePtr_slot (parent_second hj), slotAt, if_neg hk]

theorem sec_ne_zero (hk : nodePtr m x (.sec k) ≠ 0) : nodePtr m x .dbl ≠ 0 ∧ k < 512 := by
  refine ⟨parent_ptr_ne_zero (n := .sec k) rfl hk,?_⟩
  by_contra hlt
  rw [nodePtr_slot (n := .sec k) rfl, slotAt_eq_zero_of_le (by omega)] at hk
  exact hk rfl

/-- The data blocks level by level. -/
theorem data_cases (c : ℕ) : c < 6 ∨ (∃ j < 512, c = 6 + j) ∨ ∃ k, ∃ j < 512, c = 518 + 512 * k + j := by
  by_cases h6 : c < 6
  · exact Or.inl h6
  by_cases h518 : c < 518
  · exact Or.inr (Or.inl ⟨c - 6,by omega,by omega⟩)
  · exact Or.inr (Or.inr ⟨(c - 518) / 512,(c - 518) % 512,by omega,by omega⟩)

/-- What hangs below the double-indirect block, and it. -/
def DoubleHolds (m : Mem) (x : Inode) (b : ℕ) : Prop := nodePtr m x .dbl ≠ 0 ∧ (nodePtr m x .dbl = b ∨
  ∃ k < 512, nodePtr m x (.sec k) ≠ 0 ∧ (nodePtr m x (.sec k) = b ∨
    ∃ j < 512, nodePtr m x (.data (518 + 512 * k + j)) ≠ 0 ∧ nodePtr m x (.data (518 + 512 * k + j)) = b))

def IndirectHolds (m : Mem) (x : Inode) (b : ℕ) : Prop := nodePtr m x .ind ≠ 0 ∧ (nodePtr m x .ind = b ∨
  ∃ j < 512, nodePtr m x (.data (6 + j)) ≠ 0 ∧ nodePtr m x (.data (6 + j)) = b)

def DirectHolds (m : Mem) (x : Inode) (b : ℕ) : Prop := ∃ j < 6, nodePtr m x (.data j) ≠ 0 ∧ nodePtr m x (.data j) = b

/-- The three levels are all blocks of the file. -/
theorem levels_iff : (DirectHolds m x b ∨ IndirectHolds m x b) ∨ DoubleHolds m x b ↔ b ≠ 0 ∧ ∃ n, nodePtr m x n = b := by
  constructor
  · rintro ((⟨j,_,h0,rfl⟩ | ⟨h0,rfl | ⟨j,_,h0,rfl⟩⟩) | ⟨h0,rfl | ⟨k,_,h0,rfl | ⟨j,_,h0,rfl⟩⟩⟩) <;> exact ⟨h0,_,rfl⟩
  · rintro ⟨h0,n,rfl⟩
    cases n with
    | data c =>
      rcases data_cases c with hc | ⟨j,hj,rfl⟩ | ⟨k,j,hj,rfl⟩
      · exact Or.inl (Or.inl ⟨c,hc,h0,rfl⟩)
      · exact Or.inl (Or.inr ⟨parent_ptr_ne_zero (parent_indirect hj) h0,Or.inr ⟨j,hj,h0,rfl⟩⟩)
      · have hs := parent_ptr_ne_zero (parent_second hj) h0
        obtain ⟨hd,hk⟩ := sec_ne_zero hs
        exact Or.inr ⟨hd,Or.inr ⟨k,hk,hs,Or.inr ⟨j,hj,h0,rfl⟩⟩⟩
    | ind => exact Or.inl (Or.inr ⟨h0,Or.inl rfl⟩)
    | dbl => exact Or.inr ⟨h0,Or.inl rfl⟩
    | sec k =>
      obtain ⟨hd,hk⟩ := sec_ne_zero h0
      exact Or.inr ⟨hd,Or.inr ⟨k,hk,h0,Or.inl rfl⟩⟩

end Levels

section File
variable {m m₁ : Mem} {x : Inode}

theorem releaseDirect_spec (hdata : ∀ n, nodePtr m x n ≠ 0 → DataId (nodePtr m x n)) : Freed (DirectHolds m x) m
    (releaseAll m (fun j => if h : j < 6 then x.directPointer ⟨j,h⟩ else 0) 6) := by
  have hptr : ∀ j < 6, (if h : j < 6 then x.directPointer ⟨j,h⟩ else 0).toNat = nodePtr m x (.data j) := by
    intro j hj
    rw [dif_pos hj, nodePtr_direct hj]
  refine (freed_releaseAll (fun j hj h0 => ?_)).congr (fun b => ?_)
  · have h0 := pointer_ne_zero.mp h0
    rw [hptr j hj] at h0 ⊢
    exact hdata _ h0
  · refine exists_congr (fun j => and_congr_right (fun hj => ?_))
    rw [pointer_ne_zero, hptr j hj]

/-- The indirect level of a file whose blocks are as they were in `m`. -/
theorem releaseIndirect_spec (hdata : ∀ n, nodePtr m x n ≠ 0 → DataId (nodePtr m x n))
    (hsame : ∀ n, nodePtr m x n ≠ 0 → blockAt m₁ (nodePtr m x n) = blockAt m (nodePtr m x n)) :
    ∃ m₂, releaseIndirect m₁ x.indirectPointer = some m₂ ∧ Freed (IndirectHolds m x) m₁ m₂ := by
  have hind : x.indirectPointer.toNat = nodePtr m x .ind := rfl
  have hslot : nodePtr m x .ind ≠ 0 → ∀ j < 512,
      (pointersOf (blockAt m₁ (nodePtr m x .ind)) j).toNat = nodePtr m x (.data (6 + j)) := by
    intro hi j hj
    rw [hsame _ hi, nodePtr_indirect hj hi]
  obtain ⟨m₂,hm₂,hf⟩ := freed_releaseIndirect (m := m₁) (a := x.indirectPointer)
    (fun hz => hdata .ind (pointer_ne_zero.mp hz)) (fun hz j hj hj0 => by
      have hi : nodePtr m x .ind ≠ 0 := pointer_ne_zero.mp hz
      have hj0 := pointer_ne_zero.mp hj0
      rw [hind, hslot hi j hj] at hj0 ⊢
      exact hdata _ hj0)
  refine ⟨m₂,hm₂,hf.congr (fun b => ?_)⟩
  rw [pointer_ne_zero, hind]
  refine and_congr_right (fun hi => or_congr_right (exists_congr fun j => and_congr_right fun hj => ?_))
  rw [pointer_ne_zero, hslot hi j hj]

theorem releaseDouble_spec (hdata : ∀ n, nodePtr m x n ≠ 0 → DataId (nodePtr m x n))
    (hsame : ∀ n, nodePtr m x n ≠ 0 → blockAt m₁ (nodePtr m x n) = blockAt m (nodePtr m x n)) :
    ∃ m₂, releaseDouble m₁ x.doubleIndirectPointer = some m₂ ∧ Freed (DoubleHolds m x) m₁ m₂ := by
  have hdbl : x.doubleIndirectPointer.toNat = nodePtr m x .dbl := rfl
  have hsec : nodePtr m x .dbl ≠ 0 → ∀ k, (pointersOf (blockAt m₁ (nodePtr m x .dbl)) k).toNat = nodePtr m x (.sec k) := by
    intro hd k
    rw [hsame _ hd, nodePtr_double k hd]
  have hslot : ∀ k, nodePtr m x (.sec k) ≠ 0 → ∀ j < 512,
      (pointersOf (blockAt m₁ (nodePtr m x (.sec k))) j).toNat = nodePtr m x (.data (518 + 512 * k + j)) := by
    intro k hk j hj
    rw [hsame _ hk, nodePtr_second hj hk]
  obtain ⟨m₂,hm₂,hf⟩ := freed_releaseDouble (m := m₁) (a := x.doubleIndirectPointer)
    (fun hz => hdata .dbl (pointer_ne_zero.mp hz)) (fun hz k hk hk0 => by
      have hd : nodePtr m x .dbl ≠ 0 := pointer_ne_zero.mp hz
      have hk0 := pointer_ne_zero.mp hk0
      rw [hdbl, hsec hd] at hk0 ⊢
      refine ⟨hdata _ hk0,fun j hj hj0 => ?_⟩
      have hj0 := pointer_ne_zero.mp hj0
      rw [hslot k hk0 j hj] at hj0 ⊢
      exact hdata _ hj0)
  refine ⟨m₂,hm₂,hf.congr (fun b => ?_)⟩
  rw [pointer_ne_zero, hdbl]
  refine and_congr_right (fun hd => or_congr_right (exists_congr fun k => and_congr_right fun hk => ?_))
  rw [pointer_ne_zero, hsec hd]
  refine and_congr_right (fun hk0 => or_congr_right (exists_congr fun j => and_congr_right fun hj => ?_))
  rw [pointer_ne_zero, hslot k hk0 j hj]

/-- Every block of a file, and no other, is released. -/
theorem releaseFile_spec (hdata : ∀ n, nodePtr m x n ≠ 0 → DataId (nodePtr m x n)) :
    ∃ m', releaseFile m x = some m' ∧ Freed (fun b => b ≠ 0 ∧ ∃ n, nodePtr m x n = b) m m' := by
  have hsame : ∀ {m' : Mem} {S : ℕ → Prop}, Freed S m m' → ∀ n, nodePtr m x n ≠ 0 →
      blockAt m' (nodePtr m x n) = blockAt m (nodePtr m x n) := fun hf n hn => hf.blockAt_eq (hdata n hn).2
  have hf₁ := releaseDirect_spec hdata
  obtain ⟨m₂,hm₂,hf₂⟩ := releaseIndirect_spec hdata (hsame hf₁)
  obtain ⟨m₃,hm₃,hf₃⟩ := releaseDouble_spec hdata (hsame (hf₁.trans hf₂))
  exact ⟨m₃,by simp only [releaseFile, hm₂, Option.bind_some, hm₃],((hf₁.trans hf₂).trans hf₃).congr (fun _ => levels_iff)⟩

end File

/-- The blocks of inode `i` are given back; the rest of the image is as it was. -/
structure Released (m : Mem) (i : ℕ) (m' : Mem) : Prop where
  keeps : ∀ b, Allocated m b → (∀ n, owns m (inodeAt m i) n ≠ b) → used m' b = true
  gone : ∀ b, DataId b → used m' b = true → used m b = true ∧ ((inodeAt m i).fileType = typeDirectory ∨
    (inodeAt m i).fileType = typeRegular → ∀ n, owns m (inodeAt m i) n ≠ b)
  blocks : ∀ b, DataId b → (∀ n, owns m (inodeAt m i) n ≠ b) → blockAt m' b = blockAt m b
  inodes : ∀ j < 256, inodeAt m' j = inodeAt m j
  inodeBits : ∀ j < 256, inodeUsed m' j = inodeUsed m j
  steps : SysSteps m m'

/-- `block_store_release` on the inode store. -/
def freeInode (m : Mem) (i : ℕ) : Mem := if inodeUsed m i then clearInodeUsed m i else m

/-- The image once an inode whose blocks were given back is cleared and its entry is taken out. -/
def unlinked (m : Mem) (dirID fileID : ℕ) (parent : Inode) (dir : Mem) (k : ℕ) : Mem :=
  putInode (putBlock (freeInode (putInode m fileID Inode.cleared) fileID) parent.dirBlock (clearEntry dir k)) dirID
    (parent.unmarkEntry k)

theorem Inode.live_unmarkEntry (x : Inode) {k j : ℕ} (hj : j < 31) :
    (x.unmarkEntry k).live j = (!decide (k = j) && x.live j) := by
  rw [live, unmarkEntry, bitmapTest_vacantOf _ hj, bitmapTest_bitmapReset, live]

theorem Inode.live_markEntry (x : Inode) {k j : ℕ} (hj : j < 31) :
    (x.markEntry k).live j = (decide (k = j) || x.live j) := by
  rw [live, markEntry, bitmapTest_vacantOf _ hj, bitmapTest_bitmapSet, live]

theorem isDirectoryEmpty_iff (x : Inode) : isDirectoryEmpty x = true ↔ ∀ j < 31, x.live j = false := by
  rw [isDirectoryEmpty, decide_eq_true_eq, Inode.entryCount, bitmapTotalSet_eq_zero]
  rfl

theorem strncmpEq_mono {a b : CStr} {n n' : ℕ} (hn : n ≤ n') (h : strncmpEq a b n' = true) :
    strncmpEq a b n = true := by
  rw [strncmpEq, beq_iff_eq] at h ⊢
  rw [← min_eq_left hn, ← List.take_take, h, List.take_take]

section Remove
variable {m : Mem}

theorem released_releaseFile (h : ImageInv m) {i : ℕ} (hi : i < 256)
    (hfile : (inodeAt m i).fileType ≠ typeDirectory) :
    ∃ m', releaseFile m (inodeAt m i) = some m' ∧ Released m i m' := by
  obtain ⟨m',hm',hf⟩ := releaseFile_spec (m := m) (fun n hn => (dataId_of_node (i := ⟨i,hi⟩) h.sound hfile hn).1)
  refine ⟨m',hm',fun b hb hn => ?_,fun b hb hu => ?_,fun b hb _ => hf.blockAt_eq hb.2,fun j hj => hf.inodeAt_eq hj,
    fun j hj => hf.inodeUsed_eq hj,hf.steps⟩
  · have hlt := hb.1.2
    refine (hf.marks b (by omega)).mpr ⟨hb.2,fun hc => ?_⟩
    obtain ⟨_,n,hn'⟩ := hc
    exact hn n ((owns_of_file hfile).trans hn')
  · have hlt := hb.2
    obtain ⟨hu,hn⟩ := (hf.marks b (by omega)).mp hu
    exact ⟨hu,fun _ n he => hn ⟨hb.ne_zero,n,(owns_of_file hfile).symm.trans he⟩⟩

/-- Any record that is not a regular file is removed as an empty directory would be. -/
theorem released_releaseDirectory (h : ImageInv m) {i : ℕ} (hi : i < 256)
    (hreg : (inodeAt m i).fileType ≠ typeRegular)
    (hempty : isDirectoryEmpty (inodeAt m i) = true) (hne : (inodeAt m i).dirBlock ≠ 0) :
    ∃ m', releaseDirectory m (inodeAt m i) = (0,m') ∧ Released m i m' := by
  obtain ⟨hid,hu,hh⟩ := h.dirBlock_dataId hi hne
  have hh' : owns m (inodeAt m i) (.data 0) = (inodeAt m i).dirBlock := hh
  have hlt := hid.2
  refine ⟨clearUsed (putBlock m (inodeAt m i).dirBlock (copyIn (blockAt m (inodeAt m i).dirBlock) 0 33 zeros))
      (inodeAt m i).dirBlock,?_,?_⟩
  · simp only [releaseDirectory, hempty, Bool.not_true, Bool.false_eq_true, if_false, blockStoreRead_data hlt.le,
      blockStoreWrite_data hlt.le, blockStoreRelease_whole hlt.le]
    rw [used_putBlock hid (by omega), hu, if_pos rfl]
  · refine ⟨fun b hb hn => ?_,fun b hb hu => ?_,fun b hb hn => ?_,fun j hj => ?_,fun j hj => ?_,?_⟩
    · have hb65 := hb.1.2
      rw [used_clearUsed, used_putBlock hid (by omega), hb.2, decide_eq_false (fun he => hn _ (hh'.trans he))]
      rfl
    · have hb65 := hb.2
      rw [used_clearUsed, used_putBlock hid (by omega), Bool.and_eq_true, Bool.not_eq_true', decide_eq_false_iff_not] at hu
      refine ⟨hu.2,fun htype n he => ?_⟩
      by_cases hn : n = .data 0
      · rw [hn, hh'] at he
        exact hu.1 he
      · rw [owns_of_directory (htype.resolve_right hreg) hn] at he
        exact hb.ne_zero he.symm
    · rw [blockAt_clearUsed hb, blockAt_putBlock, if_neg (fun he => hn _ (hh'.trans he))]
    · rw [inodeAt_clearUsed hj, inodeAt_putBlock hid hj]
    · rw [inodeUsed_clearUsed hj, inodeUsed_putBlock hid hj]
    · have hrel := SysStep.release (m := putBlock m (inodeAt m i).dirBlock
        (copyIn (blockAt m (inodeAt m i).dirBlock) 0 33 zeros)) hid
      rw [blockStoreRelease_whole hlt.le, used_putBlock hid (by omega), hu, if_pos rfl] at hrel
      exact (SysSteps.putBlock hid _).tail hrel

/-- Where the exact search found an entry, the search for a prefix finds one too. -/
theorem getFileIndexInDir_found {dirID : ℕ} {inode : Inode} {dir : Mem} {name : CStr}
    (hd : readDir m dirID = some (inode,dir)) (hid : getFileInodeID m dirID name ≠ 0) :
    ∃ k, getFileIndexInDir inode dir name = some k := by
  rw [getFileInodeID, hd] at hid
  cases he : firstEntry inode (sameName dir · name) with
  | none => simp [he] at hid
  | some j =>
    obtain ⟨hj,hlive,hname,_⟩ := firstEntry_some he
    exact firstEntry_isSome hj hlive (strncmpEq_mono (le_max_right _ _) hname)

/-- How `fs_remove` ends below its parent: it refuses a directory with entries, lowers the link count of a file, or
gives the inode back. -/
def RemoveOutcome (m : Mem) (dirID fileID : ℕ) (name : CStr) (ret : ℤ) (m' : Mem) : Prop :=
  ((ret = -8 ∧ (inodeAt m fileID).fileType ≠ typeRegular ∧ isDirectoryEmpty (inodeAt m fileID) = false) ∧ m' = m) ∨
  (ret = 0 ∧ (inodeAt m fileID).fileType = typeRegular ∧ (inodeAt m fileID).linkCount > 1 ∧
    m' = putInode m fileID { inodeAt m fileID with linkCount := (inodeAt m fileID).linkCount - 1 }) ∨
  ∃ m₁ k, ret = 0 ∧ ((inodeAt m fileID).fileType = typeRegular → ¬ (inodeAt m fileID).linkCount > 1) ∧
    ((inodeAt m fileID).fileType ≠ typeRegular → isDirectoryEmpty (inodeAt m fileID) = true) ∧ Released m fileID m₁ ∧
    getFileIndexInDir (inodeAt m dirID) (blockAt m (inodeAt m dirID).dirBlock) name = some k ∧
    m' = unlinked m₁ dirID fileID (inodeAt m dirID) (blockAt m (inodeAt m dirID).dirBlock) k

/-- A directory without entries that is to be removed has a block. -/
theorem removeIn_spec (h : ImageInv m) {dirID : ℕ} (hd : dirID < 256) {name : CStr}
    (hid : getFileInodeID m dirID name ≠ 0)
    (hblock : (inodeAt m (getFileInodeID m dirID name)).fileType ≠ typeRegular →
      isDirectoryEmpty (inodeAt m (getFileInodeID m dirID name)) = true →
      (inodeAt m (getFileInodeID m dirID name)).dirBlock ≠ 0) :
    ∃ ret m', removeIn m dirID (getFileInodeID m dirID name) name = some (ret,m') ∧
      RemoveOutcome m dirID (getFileInodeID m dirID name) name ret m' := by
  have hf := getFileInodeID_lt m dirID name
  obtain ⟨k,hk⟩ := getFileIndexInDir_found (h.readDir hd) hid
  have hunlink : ∀ m₁, unlinkInode m₁ dirID (getFileInodeID m dirID name) (inodeAt m dirID)
      (blockAt m (inodeAt m dirID).dirBlock) name = (0,unlinked m₁ dirID (getFileInodeID m dirID name)
        (inodeAt m dirID) (blockAt m (inodeAt m dirID).dirBlock) k) := by
    intro m₁
    simp only [unlinkInode, blockStoreInodeWrite_table hf, blockStoreRelease_inode hf, hk,
      blockStoreWrite_data (h.dirBlock_le hd), blockStoreInodeWrite_table hd]
    rfl
  generalize getFileInodeID m dirID name = fileID at *
  rw [removeIn, h.readDir hd, blockStoreInodeRead_table hf]
  simp only
  by_cases hreg : (inodeAt m fileID).fileType = typeRegular
  · rw [if_pos hreg]
    by_cases hlinks : (inodeAt m fileID).linkCount > 1
    · rw [if_pos hlinks, blockStoreInodeWrite_table hf]
      exact ⟨_,_,rfl,Or.inr (Or.inl ⟨rfl,hreg,hlinks,rfl⟩)⟩
    · obtain ⟨m₁,hm₁,hrel⟩ := released_releaseFile h hf (by rw [hreg]; decide)
      rw [if_neg hlinks, hm₁, Option.map_some, hunlink]
      exact ⟨_,_,rfl,Or.inr (Or.inr ⟨m₁,k,rfl,fun _ => hlinks,fun hn => absurd hreg hn,hrel,hk,rfl⟩)⟩
  · rw [if_neg hreg]
    by_cases hempty : isDirectoryEmpty (inodeAt m fileID) = true
    · obtain ⟨m₁,hm₁,hrel⟩ := released_releaseDirectory h hf hreg hempty (hblock hreg hempty)
      rw [hm₁, if_neg (by simp), hunlink]
      exact ⟨_,_,rfl,Or.inr (Or.inr ⟨m₁,k,rfl,fun hp => absurd hp hreg,fun _ => hempty,hrel,hk,rfl⟩)⟩
    · rw [Bool.not_eq_true] at hempty
      simp only [releaseDirectory, hempty, Bool.not_false, if_true]
      rw [if_pos (by decide)]
      exact ⟨_,_,rfl,Or.inl ⟨⟨rfl,hreg,hempty⟩,rfl⟩⟩

/-- The cases of `fs_remove` below its parent. -/
theorem removeIn_cases (h : ImageInv m) {dirID : ℕ} (hd : dirID < 256) {name : CStr}
    (hid : getFileInodeID m dirID name ≠ 0)
    (hblock : (inodeAt m (getFileInodeID m dirID name)).fileType ≠ typeRegular →
      isDirectoryEmpty (inodeAt m (getFileInodeID m dirID name)) = true →
      (inodeAt m (getFileInodeID m dirID name)).dirBlock ≠ 0) {ret : ℤ} {m' : Mem}
    (hr : removeIn m dirID (getFileInodeID m dirID name) name = some (ret,m')) :
    RemoveOutcome m dirID (getFileInodeID m dirID name) name ret m' := by
  obtain ⟨r,m₁,hr₁,hout⟩ := removeIn_spec h hd hid hblock
  obtain ⟨rfl,rfl⟩ := Prod.mk.inj (Option.some.inj (hr₁.symm.trans hr))
  exact hout

theorem owns_cleared (n : Node) : owns m Inode.cleared n = 0 := by
  rw [owns_of_file (by decide)]
  cases n with
  | data b =>
    simp only [nodePtr, Inode.top, Inode.cleared]
    split_ifs <;> rfl
  | _ => rfl

/-- A record whose blocks were given back is cleared. -/
theorem Released.cleared_inv {i : ℕ} {m₁ : Mem} (h : ImageInv m) (hi : i < 256) (h0 : i ≠ 0)
    (hr : Released m i m₁) : ImageInv (putInode m₁ i Inode.cleared) := by
  have ht : tableOf m₁ = tableOf m := tableOf_congr hr.inodes
  have hdrop : ∀ q, held m (Function.update (tableOf m) ⟨i,hi⟩ Inode.cleared) q = 0 ∨
      held m (Function.update (tableOf m) ⟨i,hi⟩ Inode.cleared) q = held m (tableOf m) q := by
    rintro ⟨j,n⟩
    by_cases hj : j = ⟨i,hi⟩
    · left
      rw [hj, held_update_same, owns_cleared]
    · exact Or.inr (held_update_of_ne hj)
  have hown := h.sound.own.drop hdrop
  have hout : ∀ q, held m (Function.update (tableOf m) ⟨i,hi⟩ Inode.cleared) q ≠ 0 →
      ∀ n, owns m (inodeAt m i) n ≠ held m (Function.update (tableOf m) ⟨i,hi⟩ Inode.cleared) q := by
    rintro ⟨j,l⟩ hq n he
    have hj : j ≠ ⟨i,hi⟩ := by
      rintro rfl
      exact hq (by rw [held_update_same, owns_cleared])
    rw [held_update_of_ne hj] at hq he
    have hpl := h.sound.own.inj (j,l) (⟨i,hi⟩,n) hq he.symm
    exact hj (congrArg Prod.fst hpl)
  have hs : Sound m₁ (Function.update (tableOf m) ⟨i,hi⟩ Inode.cleared) := by
    refine ⟨hr.steps.sysUsed h.sound.sys,?_⟩
    refine (hown.mono (fun q hq ha => ⟨ha.1,hr.keeps _ ha (hout q hq)⟩)).congr (fun q => ?_)
    exact (held_congr (fun q _ _ _ hq => (hr.blocks _ (hown.holds q hq).1 (hout q hq)).symm) q).symm
  refine ⟨?_,fun j hj => ?_,?_⟩
  · rw [tableOf_putInode hi, ht]
    exact hs.congr (fun b hb => used_putInode hi hb) (fun b hb => blockAt_putInode hi hb)
  · rw [inodeAt_putInode]
    split_ifs with hij
    · refine ⟨fun hd => absurd hd (by decide),fun hd => absurd hd (by decide),fun hd => absurd hd (by decide)⟩
    · rw [hr.inodes j hj]
      exact (h.record j hj).congr (fun hu => by rwa [inodeUsed_putInode hj, hr.inodeBits j hj])
  · rw [inodeAt_putInode, if_neg h0, hr.inodes 0 (by omega)]
    exact h.root

theorem freeInode_steps {i : ℕ} (hi : i < 256) : SysSteps m (freeInode m i) := by
  have hs := SysStep.inodeRelease (m := m) hi
  rw [blockStoreRelease_inode hi] at hs
  exact Relation.ReflTransGen.single hs

theorem inodeAt_freeInode {i j : ℕ} (hi : i < 256) : inodeAt (freeInode m i) j = inodeAt m j := by
  unfold freeInode
  split_ifs
  · exact inodeAt_clearInodeUsed hi
  · rfl

theorem inodeUsed_freeInode (i j : ℕ) : inodeUsed (freeInode m i) j = (!decide (i = j) && inodeUsed m j) := by
  unfold freeInode
  split_ifs with hu
  · exact inodeUsed_clearInodeUsed i
  · by_cases hij : i = j
    · subst hij
      simpa using hu
    · rw [decide_eq_false hij, Bool.not_false, Bool.true_and]

theorem used_freeInode {i b : ℕ} (hi : i < 256) (hb : b < 65536) : used (freeInode m i) b = used m b := by
  unfold freeInode
  split_ifs
  · exact used_clearInodeUsed hi hb
  · rfl

theorem inodeUsed_unlinked {d i k j : ℕ} {x : Inode} {dir : Mem} (hx : DataId x.dirBlock) (hj : j < 256) :
    inodeUsed (unlinked m d i x dir k) j = (!decide (i = j) && inodeUsed m j) := by
  rw [unlinked, inodeUsed_putInode hj, inodeUsed_putBlock hx hj, inodeUsed_freeInode, inodeUsed_putInode hj]

theorem inodeAt_unlinked {d i k j : ℕ} {x : Inode} {dir : Mem} (hi : i < 256) (hx : DataId x.dirBlock) (hj : j < 256) :
    inodeAt (unlinked m d i x dir k) j =
      if d = j then x.unmarkEntry k else if i = j then Inode.cleared else inodeAt m j := by
  rw [unlinked, inodeAt_putInode, inodeAt_putBlock hx hj, inodeAt_freeInode hi, inodeAt_putInode]

theorem blockAt_freeInode {i b : ℕ} (hi : i < 256) (hb : DataId b) : blockAt (freeInode m i) b = blockAt m b := by
  unfold freeInode
  split_ifs
  · exact blockAt_clearInodeUsed hi hb
  · rfl

theorem ImageInv.freeInode (h : ImageInv m) {i : ℕ} (hi : i < 256) (hfile : (inodeAt m i).fileType ≠ typeDirectory) :
    ImageInv (freeInode m i) := by
  unfold LiteOSFS.freeInode
  split_ifs
  · exact h.clearInodeUsed hi hfile
  · exact h

/-- The image once the removed inode is cleared and its mark taken away. -/
theorem Released.freed_inv {i : ℕ} {m₁ : Mem} (hr : Released m i m₁) (h : ImageInv m) (hi : i < 256) (h0 : i ≠ 0) :
    ImageInv (LiteOSFS.freeInode (putInode m₁ i Inode.cleared) i) :=
  (hr.cleared_inv h hi h0).freeInode hi (by rw [inodeAt_putInode, if_pos rfl]; decide)

theorem Released.inodeAt_freed {i j : ℕ} {m₁ : Mem} (hr : Released m i m₁) (hi : i < 256) (hj : j < 256) (hij : i ≠ j) :
    inodeAt (LiteOSFS.freeInode (putInode m₁ i Inode.cleared) i) j = inodeAt m j := by
  rw [inodeAt_freeInode hi, inodeAt_putInode, if_neg hij, hr.inodes j hj]

/-- A directory with an entry is not what a removal gives back. -/
theorem parent_ne_target {d i k : ℕ} (hdir : (inodeAt m d).fileType = typeDirectory) (hk : k < 31)
    (hlive : (inodeAt m d).live k = true)
    (hempty : (inodeAt m i).fileType ≠ typeRegular → isDirectoryEmpty (inodeAt m i) = true) : d ≠ i := by
  rintro rfl
  have hall := (isDirectoryEmpty_iff _).mp (hempty (by rw [hdir]; decide)) k hk
  rw [hlive] at hall
  cases hall

/-- An entry of a directory is rewritten in its block and its record. -/
theorem putEntry_inv (h : ImageInv m) {i : ℕ} (hi : i < 256) (hdir : (inodeAt m i).fileType = typeDirectory)
    (hne : (inodeAt m i).dirBlock ≠ 0) (c : Mem) {x : Inode} (htype : x.fileType = (inodeAt m i).fileType)
    (hnum : x.inodeNumber = (inodeAt m i).inodeNumber) (hblock : x.dirBlock = (inodeAt m i).dirBlock) :
    ImageInv (putInode (putBlock m (inodeAt m i).dirBlock c) i x) ∧
      SysSteps m (putInode (putBlock m (inodeAt m i).dirBlock c) i x) := by
  obtain ⟨h₁,hs₁⟩ := putDirBlock_inv h hi hne c
  have hsame : inodeAt (putBlock m (inodeAt m i).dirBlock c) i = inodeAt m i :=
    inodeAt_putBlock (h.dirBlock_dataId hi hne).1 hi
  refine ⟨h₁.putDirectory hi ?_ (htype.trans hdir) ?_ ?_ ?_,hs₁.trans (SysSteps.putInode hi _)⟩
  · rwa [hsame]
  · rw [hnum]
    exact (h.record i hi).self hdir
  · rw [hblock, hsame]
  · rwa [hsame]

theorem unlinked_inv (h : ImageInv m) {dirID fileID k : ℕ} {m₁ : Mem} (hd : dirID < 256)
    (hdir : (inodeAt m dirID).fileType = typeDirectory) (hne : (inodeAt m dirID).dirBlock ≠ 0) (hf : fileID < 256)
    (h0 : fileID ≠ 0) (hdf : dirID ≠ fileID) (hr : Released m fileID m₁) (dir : Mem) :
    ImageInv (unlinked m₁ dirID fileID (inodeAt m dirID) dir k) ∧
      SysSteps m (unlinked m₁ dirID fileID (inodeAt m dirID) dir k) := by
  have hat := hr.inodeAt_freed hf hd hdf.symm
  have h₂ := hr.freed_inv h hf h0
  have hs₂ := (hr.steps.trans (SysSteps.putInode hf Inode.cleared)).trans (freeInode_steps hf)
  obtain ⟨h₃,hs₃⟩ := putEntry_inv h₂ hd (by rwa [hat]) (by rwa [hat]) (clearEntry dir k)
    (x := (inodeAt m dirID).unmarkEntry k) (by rw [hat]; rfl) (by rw [hat]; rfl) (by rw [hat]; rfl)
  rw [hat] at h₃ hs₃
  exact ⟨h₃,hs₂.trans hs₃⟩

theorem removeIn_inv (h : ImageInv m) {dirID : ℕ} (hd : dirID < 256)
    (hdir : (inodeAt m dirID).fileType = typeDirectory) {name : CStr} (hid : getFileInodeID m dirID name ≠ 0)
    (hblock : (inodeAt m (getFileInodeID m dirID name)).fileType ≠ typeRegular →
      isDirectoryEmpty (inodeAt m (getFileInodeID m dirID name)) = true →
      (inodeAt m (getFileInodeID m dirID name)).dirBlock ≠ 0) {ret : ℤ} {m' : Mem}
    (hr : removeIn m dirID (getFileInodeID m dirID name) name = some (ret,m')) : ImageInv m' ∧ SysSteps m m' := by
  have hf := getFileInodeID_lt m dirID name
  rcases removeIn_cases h hd hid hblock hr with ⟨_,rfl⟩ | ⟨_,_,_,rfl⟩ | ⟨m₁,k,_,_,hempty,hrel,hk,rfl⟩
  · exact ⟨h,Relation.ReflTransGen.refl⟩
  · exact ⟨h.putLinks hf _,SysSteps.putInode hf _⟩
  · obtain ⟨hk31,hlive,_⟩ := firstEntry_some hk
    exact unlinked_inv h hd hdir ((h.record dirID hd).block hdir k hk31 hlive) hf hid
      (parent_ne_target hdir hk31 hlive hempty) hrel _

/-- The inode that `fs_remove` goes on with when it has found one. -/
def removeTarget (m : Mem) (path : CStr) : Option ℕ :=
  if path = [] ∨ isValidPath path = false ∨ (basename path).length ≥ 32 ∨ parentOf m path = sizeMax ∨
    getFileInodeID m (parentOf m path) (basename path) = 0 then none
  else some (getFileInodeID m (parentOf m path) (basename path))

end Remove

/-- `fs_remove` stops, or removes below the parent that it found. -/
theorem fsRemove_cases {s s' : F19FS} {path : Option CStr} {ret : ℤ} (h : fsRemove s path = some (ret,s')) :
    (ret < 0 ∧ s' = s) ∨
    ∃ p, path = some p ∧ parentOf s.image p ≠ sizeMax ∧
      getFileInodeID s.image (parentOf s.image p) (basename p) ≠ 0 ∧
      removeTarget s.image p = some (getFileInodeID s.image (parentOf s.image p) (basename p)) ∧
      removeIn s.image (parentOf s.image p) (getFileInodeID s.image (parentOf s.image p) (basename p))
        (basename p) = some (ret,s'.image) ∧ s'.fdTable = s.fdTable := by
  cases path with
  | none =>
    cases h
    exact Or.inl ⟨by decide,rfl⟩
  | some p =>
    simp only [fsRemove] at h
    split_ifs at h with h1 h2 h3 h4 h5
    · cases h
      exact Or.inl ⟨by decide,rfl⟩
    · cases h
      exact Or.inl ⟨by decide,rfl⟩
    · cases h
      exact Or.inl ⟨by decide,rfl⟩
    · cases h
      exact Or.inl ⟨by decide,rfl⟩
    · cases h
      exact Or.inl ⟨by decide,rfl⟩
    · obtain ⟨r,hr,he⟩ := Option.map_eq_some_iff.mp h
      cases he
      refine Or.inr ⟨p,rfl,h4,h5,?_,hr,rfl⟩
      rw [removeTarget, if_neg]
      simp only [h1, h3, h4, h5, or_self, or_false, false_or]
      simpa using h2

theorem fsRemove_inv {s s' : F19FS} {path : Option CStr} {ret : ℤ} (hi : ImageInv s.image)
    (hblock : ∀ p i, path = some p → removeTarget s.image p = some i → (inodeAt s.image i).fileType ≠ typeRegular →
      isDirectoryEmpty (inodeAt s.image i) = true → (inodeAt s.image i).dirBlock ≠ 0)
    (h : fsRemove s path = some (ret,s')) : ImageInv s'.image ∧ SysSteps s.image s'.image := by
  rcases fsRemove_cases h with ⟨_,rfl⟩ | ⟨p,rfl,hp,hid,ht,hr,_⟩
  · exact ⟨hi,Relation.ReflTransGen.refl⟩
  · obtain ⟨hlt,hdir⟩ := parentOf_spec hi hp
    exact removeIn_inv hi hlt hdir hid (hblock p _ rfl ht) hr

end LiteOSFS
