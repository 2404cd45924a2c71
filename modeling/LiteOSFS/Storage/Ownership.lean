import LiteOSFS.Storage.BlockTree
import LiteOSFS.Library.Exclusive

/-! # Exclusive ownership of blocks

`held m t` maps the places of the whole inode table to the block numbers found
there; a directory holds its first direct block only. `Owned m t` says that every
number held is a data block marked used and is held at one place.
-/
namespace LiteOSFS
open Memory Ownership

/-- The records of the inode table, of which a caller may hold a private copy. -/
abbrev Table := Fin 256 → Inode

def tableOf (m : Mem) : Table := fun i => inodeAt m i

abbrev Place := Fin 256 × Node

def owns (m : Mem) (x : Inode) (n : Node) : ℕ :=
  if x.fileType = typeDirectory ∧ n ≠ .data 0 then 0 else nodePtr m x n

def held (m : Mem) (t : Table) (q : Place) : ℕ := owns m (t q.1) q.2

def Allocated (m : Mem) (id : ℕ) : Prop := DataId id ∧ used m id = true

def Owned (m : Mem) (t : Table) : Prop := Exclusive (held m t) (Allocated m)

theorem DataId.ne_zero {id : ℕ} (h : DataId id) : id ≠ 0 := by
  obtain ⟨_,_⟩ := h
  omega

section Owns
variable {m m' : Mem} {x y : Inode} {n : Node}

theorem owns_of_file (h : x.fileType ≠ typeDirectory) : owns m x n = nodePtr m x n :=
  if_neg (fun hd => h hd.1)

theorem owns_data_zero : owns m x (.data 0) = (x.directPointer firstDirect).toNat := if_neg (fun hd => hd.2 rfl)

theorem owns_of_directory (h : x.fileType = typeDirectory) (hn : n ≠ .data 0) : owns m x n = 0 :=
  if_pos ⟨h,hn⟩

theorem owns_congr (h : ∀ (n p : Node) (j : ℕ), n.parent = some (p,j) → owns m x p ≠ 0 →
    blockAt m (owns m x p) = blockAt m' (owns m x p)) (n : Node) : owns m x n = owns m' x n := by
  by_cases hd : x.fileType = typeDirectory
  · by_cases hn : n = .data 0
    · rw [hn, owns_data_zero, owns_data_zero]
    · rw [owns_of_directory hd hn, owns_of_directory hd hn]
  · simp only [owns_of_file hd] at h ⊢
    exact nodePtr_congr h n

theorem owns_top_congr (ht : x.fileType = y.fileType) (h : ∀ n, x.top n = y.top n) (n : Node) :
    owns m x n = owns m y n := by
  unfold owns
  rw [ht, nodePtr_top_congr h]

end Owns

section Held
variable {m m' : Mem} {t t' : Table} {q q' : Place} {id : ℕ}

/-- Only the index blocks that are held matter. -/
theorem held_congr (h : ∀ (q : Place) (n : Node) (j : ℕ), n.parent = some (q.2,j) → held m t q ≠ 0 →
    blockAt m (held m t q) = blockAt m' (held m t q)) (q : Place) : held m t q = held m' t q := by
  obtain ⟨i,n⟩ := q
  have hi : owns m (t i) n = owns m' (t i) n := by
    apply owns_congr
    intro n p j hp hne
    exact h (i,p) n j hp hne
  exact hi

theorem held_update_of_ne {i : Fin 256} {x : Inode} (h : q.1 ≠ i) :
    held m (Function.update t i x) q = held m t q := by
  rw [held, Function.update_of_ne h, held]

theorem held_update_same {i : Fin 256} {x : Inode} {n : Node} :
    held m (Function.update t i x) (i,n) = owns m x n := by
  rw [held, Function.update_self]

theorem Owned.dataId (h : Owned m t) (hq : held m t q ≠ 0) : DataId (held m t q) := (h.holds q hq).1

theorem Owned.isUsed (h : Owned m t) (hq : held m t q ≠ 0) : used m (held m t q) = true := (h.holds q hq).2

theorem Owned.ne_of_ne (h : Owned m t) (hq : held m t q ≠ 0) (hne : q ≠ q') : held m t q ≠ held m t q' :=
  fun he => hne (h.inj q q' hq he)

/-- A block that is not used is held nowhere. -/
theorem Owned.fresh (h : Owned m t) (hid : id ≠ 0) (hu : used m id = false) (q : Place) : held m t q ≠ id := by
  rintro rfl
  have hq := h.isUsed hid
  rw [hu] at hq
  cases hq

/-- A change of blocks that are no index blocks, after which everything used is still used. -/
theorem Owned.frame (h : Owned m t) (hu : ∀ id, DataId id → used m id = true → used m' id = true)
    (hb : ∀ (q : Place) (n : Node) (j : ℕ), n.parent = some (q.2,j) → held m t q ≠ 0 →
      blockAt m (held m t q) = blockAt m' (held m t q)) : Owned m' t := by
  have hh := held_congr hb
  have hm : Exclusive (held m t) (Allocated m') := h.mono (fun _ _ ha => ⟨ha.1,hu _ ha.1 ha.2⟩)
  exact hm.congr (fun q => (hh q).symm)

theorem held_setUsed (h : Owned m t) (q : Place) : held (setUsed m id) t q = held m t q :=
  (held_congr (fun _ _ _ _ hne => (blockAt_setUsed (h.dataId hne)).symm) q).symm

theorem Owned.setUsed (h : Owned m t) : Owned (setUsed m id) t := by
  refine h.frame (fun b _ hb => ?_) (fun _ _ _ _ hne => (blockAt_setUsed (h.dataId hne)).symm)
  rw [used_setUsed, hb, Bool.or_true]

/-- A block that no index place holds is written. -/
theorem held_putBlock {c : Mem} (hq : ∀ (q : Place) (n : Node) (j : ℕ), n.parent = some (q.2,j) →
    held m t q ≠ 0 → held m t q ≠ id) (q : Place) : held (putBlock m id c) t q = held m t q := by
  symm
  apply held_congr
  intro q n j hp hne
  rw [blockAt_putBlock, if_neg (Ne.symm (hq q n j hp hne))]

theorem Owned.putBlock {c : Mem} (h : Owned m t) (hid : DataId id)
    (hq : ∀ (q : Place) (n : Node) (j : ℕ), n.parent = some (q.2,j) → held m t q ≠ 0 → held m t q ≠ id) :
    Owned (putBlock m id c) t := by
  refine h.frame (fun b hb hu => ?_) (fun q n j hp hne => ?_)
  · obtain ⟨_,_⟩ := hb
    rwa [used_putBlock hid (by omega)]
  · rw [blockAt_putBlock, if_neg (Ne.symm (hq q n j hp hne))]

theorem Owned.congrTable (h : Owned m t) (ht : ∀ i n, owns m (t' i) n = owns m (t i) n) : Owned m t' :=
  h.congr (fun q => ht q.1 q.2)

end Held

theorem Inode.fileType_setTop (x : Inode) (id : ℕ) (n : Node) : (x.setTop id n).fileType = x.fileType := by
  cases n with
  | data b =>
    simp only [Inode.setTop]
    split_ifs <;> rfl
  | ind | dbl | sec => rfl

theorem ne_of_parent {n l : Node} {pj : Option (Node × ℕ)} (hl : l.parent = pj) (hn : n.parent ≠ pj) : l ≠ n := by
  rintro rfl
  exact hn hl

section Assign
variable {m : Mem} {x : Inode} {n p : Node} {id j : ℕ}

/-- A pointer in the inode is set. What hangs below it is empty before, and in the new block. -/
theorem nodePtr_setTop (hpar : n.parent = none) (hn : nodePtr m x n = 0) (hid : id < 65536)
    (hz : ∀ (n' : Node) (j : ℕ), n'.parent = some (n,j) → blockAt m id = zeros) (l : Node) :
    nodePtr m (x.setTop id n) l = if l = n then id else nodePtr m x l := by
  induction l using Node.parentInduction with
  | h l ih =>
    cases hl : l.parent with
    | none => rw [nodePtr_top hl, Inode.top_setTop hpar hl hid, nodePtr_top hl]
    | some pj =>
      obtain ⟨p,j⟩ := pj
      have hln : l ≠ n := ne_of_parent hl (by simp [hpar])
      rw [nodePtr_slot hl, ih p j hl, if_neg hln, nodePtr_slot hl]
      split_ifs with hpn
      · subst hpn
        rw [hn, slotAt_zero, slotAt_of_zeros (hz l j hl)]
      · rfl

theorem slotAt_setSlot_other {b : ℕ} {v k : ℕ} (hb : b ≠ id) : slotAt (setSlot m id j v) b k = slotAt m b k := by
  apply slotAt_congr
  intro _
  rw [setSlot, blockAt_putBlock, if_neg (Ne.symm hb)]

/-- An entry of an index block is set. The other nodes of the file have other blocks. -/
theorem nodePtr_setSlot (hpar : n.parent = some (p,j)) (hn : nodePtr m x n = 0) (hp : nodePtr m x p ≠ 0) (hj : j < 512)
    (hid : id < 65536) (hfresh : id ≠ nodePtr m x p) (hapart : ∀ l, l ≠ p → nodePtr m x l ≠ nodePtr m x p)
    (hz : ∀ (n' : Node) (j : ℕ), n'.parent = some (n,j) → blockAt m id = zeros) (l : Node) :
    nodePtr (setSlot m (nodePtr m x p) j id) x l = if l = n then id else nodePtr m x l := by
  induction l using Node.parentInduction with
  | h l ih =>
    cases hl : l.parent with
    | none =>
      rw [nodePtr_top hl, if_neg (ne_of_parent hl (by simp [hpar])), nodePtr_top hl]
    | some pj =>
      obtain ⟨p',j'⟩ := pj
      rw [nodePtr_slot hl, ih p' j' hl]
      by_cases hpn : p' = n
      · -- below the new block
        subst hpn
        have hln : l ≠ p' := by
          rintro rfl
          rw [hpar] at hl
          cases hl
          exact hp hn
        rw [if_pos rfl, if_neg hln, nodePtr_slot hl, hn, slotAt_zero, slotAt_setSlot_other hfresh,
          slotAt_of_zeros (hz l j' hl)]
      · rw [if_neg hpn, nodePtr_slot hl]
        by_cases hpp : p' = p
        · subst hpp
          rw [slotAt_setSlot hp hj hid]
          have hiff : j' = j ↔ l = n := by
            constructor
            · rintro rfl
              exact Node.parent_inj hl hpar
            · rintro rfl
              rw [hpar] at hl
              cases hl
              rfl
          simp only [hiff]
        · rw [if_neg (ne_of_parent hl (by simp [hpar, Ne.symm hpp])), slotAt_setSlot_other (hapart p' hpp)]

end Assign

/-- The number `id`, held nowhere, is stored at the empty place `n` of file `i`. -/
theorem held_assign {m : Mem} {t : Table} {i : Fin 256} {n : Node} {id : ℕ} (ho : Owned m t)
    (hfile : (t i).fileType ≠ typeDirectory) (hn : nodePtr m (t i) n = 0)
    (hp : ∀ p j, n.parent = some (p,j) → nodePtr m (t i) p ≠ 0 ∧ j < 512)
    (hfresh : ∀ q, held m t q ≠ id) (hid : DataId id)
    (hz : ∀ (n' : Node) (j : ℕ), n'.parent = some (n,j) → blockAt m id = zeros) (q : Place) :
    held (assign m (t i) n id).1 (Function.update t i (assign m (t i) n id).2) q =
      if q = (i,n) then id else held m t q := by
  have hlt : id < 65536 := hid.2.trans (by decide)
  have hown : ∀ n, held m t (i,n) = nodePtr m (t i) n := fun n => owns_of_file hfile
  obtain ⟨k,l⟩ := q
  cases hpar : n.parent with
  | none =>
    have ha : assign m (t i) n id = (m,(t i).setTop id n) := by simp only [assign, hpar]
    rw [ha]
    by_cases hk : k = i
    · subst hk
      have htype : ((t k).setTop id n).fileType ≠ typeDirectory := by rwa [Inode.fileType_setTop]
      simp only [held_update_same, owns_of_file htype, hown, Prod.mk.injEq, true_and]
      exact nodePtr_setTop hpar hn hlt hz l
    · rw [held_update_of_ne hk, if_neg (by simp [hk])]
  | some pj =>
    obtain ⟨p,j⟩ := pj
    obtain ⟨hp0,hj⟩ := hp p j hpar
    have hq0 : held m t (i,p) ≠ 0 := by rwa [hown]
    have hapart : ∀ q, q ≠ (i,p) → held m t q ≠ nodePtr m (t i) p := fun q hq he =>
      ho.ne_of_ne hq0 (Ne.symm hq) ((hown p).trans he.symm)
    have ha : assign m (t i) n id = (setSlot m (nodePtr m (t i) p) j id,t i) := by simp only [assign, hpar]
    rw [ha, Function.update_eq_self]
    by_cases hk : k = i
    · subst hk
      simp only [held, owns_of_file hfile, Prod.mk.injEq, true_and]
      refine nodePtr_setSlot hpar hn hp0 hj hlt (fun he => hfresh (k,p) (by rw [hown, he])) (fun l hl => ?_) hz l
      rw [← hown l]
      exact hapart (k,l) (by simp [hl])
    · rw [if_neg (by simp [hk])]
      symm
      apply owns_congr
      intro _ p' _ _ _
      rw [setSlot, blockAt_putBlock, if_neg]
      exact Ne.symm (hapart (k,p') (by simp [hk]))

theorem used_assign {m : Mem} {x : Inode} {n : Node} {id b : ℕ}
    (hp : ∀ p j, n.parent = some (p,j) → DataId (nodePtr m x p)) (hb : b < 65536) :
    used (assign m x n id).1 b = used m b := by
  cases hpar : n.parent with
  | none => simp only [assign, hpar]
  | some pj =>
    obtain ⟨p,j⟩ := pj
    simp only [assign, hpar, setSlot]
    exact used_putBlock (hp p j hpar) hb

theorem blockAt_assign {m : Mem} {x : Inode} {n : Node} {id b : ℕ}
    (hb : ∀ p j, n.parent = some (p,j) → nodePtr m x p ≠ b) :
    blockAt (assign m x n id).1 b = blockAt m b := by
  cases hpar : n.parent with
  | none => simp only [assign, hpar]
  | some pj =>
    obtain ⟨p,j⟩ := pj
    simp only [assign, hpar, setSlot]
    rw [blockAt_putBlock, if_neg (hb p j hpar)]

theorem countP_range {p : ℕ → Bool} (n : ℕ) :
    (List.range n).countP p = ((Finset.range n).filter (fun b => p b = true)).card := by
  rw [List.countP_eq_length_filter]
  exact congrArg List.length (List.filter_congr (fun b _ => (Bool.decide_eq_true).symm))

/-- `block_store_get_used_blocks` as a count. -/
theorem usedBlocks_card (m : Mem) :
    blockStoreGetUsedBlocks m wholeStore = ((Finset.range 65528).filter (fun b => used m b = true)).card := by
  rw [blockStoreGetUsedBlocks, bitmapTotalSet_eq, countP_range]
  rfl

end LiteOSFS
