import LiteOSFS.Storage.Image

/-! # The block tree of a file

A `Node` is a place at which an inode, or one of its index blocks, holds a block
number: six direct blocks, the indirect block with 512 data blocks, the
double-indirect block with 512 second-level index blocks of 512 data blocks each.
`nodePtr` is the number found there, 0 when the place or one above it is empty.
-/
namespace LiteOSFS
open Memory

inductive Node where
  | data (b : ℕ)
  | ind
  | dbl
  | sec (k : ℕ)
  deriving DecidableEq

/-- The index block that holds a node's number, and the slot; `none` for the pointers of the inode. -/
def Node.parent : Node → Option (Node × ℕ)
  | data b =>
    if b < 6 then none
    else if b < 518 then some (ind,b - 6)
    else some (sec ((b - 518) / 512),(b - 518) % 512)
  | ind => none
  | dbl => none
  | sec k => some (dbl,k)

/-- The pointers that stand in the inode itself. -/
def Inode.top (x : Inode) : Node → ℕ
  | .data b => if h : b < 6 then (x.directPointer ⟨b,h⟩).toNat else 0
  | .ind => x.indirectPointer.toNat
  | .dbl => x.doubleIndirectPointer.toNat
  | .sec _ => 0

/-- Slot `j` of the index block `id`, empty when there is no such block. -/
def slotAt (m : Mem) (id j : ℕ) : ℕ := if id = 0 then 0 else (pointersOf (blockAt m id) j).toNat

def nodePtr (m : Mem) (x : Inode) : Node → ℕ
  | .data b =>
    if b < 6 then x.top (.data b)
    else if b < 518 then slotAt m (x.top .ind) (b - 6)
    else slotAt m (slotAt m (x.top .dbl) ((b - 518) / 512)) ((b - 518) % 512)
  | .ind => x.top .ind
  | .dbl => x.top .dbl
  | .sec k => slotAt m (x.top .dbl) k

/-- The byte at a logical offset of a file. -/
def fileByte (m : Mem) (x : Inode) (off : ℕ) : Option UInt8 :=
  let id := nodePtr m x (.data (off / 1024))
  if id = 0 then none else some (blockAt m id (off % 1024))

section Parent
variable {n n' p : Node} {j : ℕ}

theorem Node.parent_inj (h : n.parent = some (p,j)) (h' : n'.parent = some (p,j)) : n = n' := by
  cases n <;> cases n' <;> simp only [Node.parent] at h h' <;> grind

/-- Data blocks hold no pointers. -/
theorem Node.parent_ne_data {b : ℕ} (h : n.parent = some (p,j)) : p ≠ .data b := by
  rintro rfl
  cases n <;> simp only [Node.parent] at h <;> (try split_ifs at h) <;> cases h

theorem Node.parentInduction {P : Node → Prop}
    (h : ∀ n : Node, (∀ p j, n.parent = some (p,j) → P p) → P n) (n : Node) : P n := by
  have hi : P ind := h _ (by simp [parent])
  have hd : P dbl := h _ (by simp [parent])
  have hs : ∀ k, P (sec k) := fun k => h _ (by
    intro p j he
    cases he
    exact hd)
  cases n with
  | data b =>
    apply h
    intro p j he
    simp only [parent] at he
    split_ifs at he with h6 h518
    · cases he
      exact hi
    · cases he
      exact hs _
  | ind => exact hi
  | dbl => exact hd
  | sec k => exact hs k

theorem nodePtr_top {m : Mem} {x : Inode} (h : n.parent = none) : nodePtr m x n = x.top n := by
  cases n with
  | data b =>
    have hb : b < 6 := by
      by_contra hb
      simp only [Node.parent, if_neg hb] at h
      split_ifs at h
    rw [nodePtr, if_pos hb]
  | ind => rfl
  | dbl => rfl
  | sec k => cases h

theorem nodePtr_slot {m : Mem} {x : Inode} (h : n.parent = some (p,j)) :
    nodePtr m x n = slotAt m (nodePtr m x p) j := by
  cases n with
  | data b =>
    simp only [Node.parent] at h
    split_ifs at h with h6 h518
    · cases h
      rw [nodePtr, if_neg h6, if_pos h518, nodePtr]
    · cases h
      rw [nodePtr, if_neg h6, if_neg h518, nodePtr]
  | ind => cases h
  | dbl => cases h
  | sec k =>
    cases h
    rfl

end Parent

theorem slotAt_zero (m : Mem) (j : ℕ) : slotAt m 0 j = 0 := if_pos rfl

theorem slotAt_of_zeros {m : Mem} {id j : ℕ} (h : blockAt m id = zeros) : slotAt m id j = 0 := by
  rw [slotAt, h]
  split_ifs <;> rfl

theorem slotAt_congr {m m' : Mem} {id j : ℕ} (h : id ≠ 0 → blockAt m id = blockAt m' id) :
    slotAt m id j = slotAt m' id j := by
  unfold slotAt
  split_ifs with hz
  · rfl
  · rw [h hz]

/-- An index block has 512 slots. -/
theorem slotAt_eq_zero_of_le {m : Mem} {id j : ℕ} (h : 512 ≤ j) : slotAt m id j = 0 := by
  have hz : pointersOf (blockAt m id) j = pointersOf zeros j :=
    pointersOf_congr (if_neg (by omega)) (if_neg (by omega))
  rw [slotAt, hz]
  split_ifs <;> rfl

theorem parent_ptr_ne_zero {m : Mem} {x : Inode} {n p : Node} {j : ℕ} (h : n.parent = some (p,j))
    (hn : nodePtr m x n ≠ 0) : nodePtr m x p ≠ 0 := by
  intro hp
  rw [nodePtr_slot h, hp, slotAt_zero] at hn
  exact hn rfl

/-- The numbers depend only on the index blocks of the file. -/
theorem nodePtr_congr {m m' : Mem} {x : Inode}
    (h : ∀ (n p : Node) (j : ℕ), n.parent = some (p,j) → nodePtr m x p ≠ 0 →
      blockAt m (nodePtr m x p) = blockAt m' (nodePtr m x p)) (n : Node) : nodePtr m x n = nodePtr m' x n := by
  induction n using Node.parentInduction with
  | h n ih =>
    cases hp : n.parent with
    | none => rw [nodePtr_top hp, nodePtr_top hp]
    | some pj =>
      obtain ⟨p,j⟩ := pj
      rw [nodePtr_slot hp, nodePtr_slot hp, ← ih p j hp, slotAt_congr (h n p j hp)]

theorem fileByte_congr {m m' : Mem} {x : Inode} (h : ∀ n, nodePtr m x n ≠ 0 →
    blockAt m (nodePtr m x n) = blockAt m' (nodePtr m x n)) (o : ℕ) : fileByte m' x o = fileByte m x o := by
  have hp := nodePtr_congr (fun n p j _ hne => h p hne) (.data (o / 1024))
  unfold fileByte
  simp only [← hp]
  split_ifs with h0
  · rfl
  · rw [h _ h0]

theorem nodePtr_top_congr {m : Mem} {x y : Inode} (h : ∀ n, x.top n = y.top n) (n : Node) :
    nodePtr m x n = nodePtr m y n := by
  cases n <;> simp only [nodePtr, h]

/-- Slot `j` of the index block `id` is set. -/
def setSlot (m : Mem) (id j v : ℕ) : Mem :=
  putBlock m id (pointerBytes (Function.update (pointersOf (blockAt m id)) j (UInt16.ofNat v)))

theorem slotAt_setSlot {m : Mem} {id j v k : ℕ} (hid : id ≠ 0) (hj : j < 512) (hv : v < 65536) :
    slotAt (setSlot m id j v) id k = if k = j then v else slotAt m id k := by
  rw [slotAt, if_neg hid, setSlot, blockAt_putBlock, if_pos rfl]
  by_cases hk : k < 512
  · have hw : ∀ b : Mem, pointersOf (window b 0 1024) k = pointersOf b k := fun b =>
      pointersOf_congr (by rw [window_apply_lt (by omega), Nat.zero_add])
        (by rw [window_apply_lt (by omega), Nat.zero_add])
    rw [hw, pointersOf_pointerBytes, Function.update_apply]
    split_ifs with he
    · rw [UInt16.toNat_ofNat', Nat.mod_eq_of_lt hv]
    · rw [slotAt, if_neg hid]
  · have hw : ∀ b : Mem, pointersOf (window b 0 1024) k = 0 := fun b =>
      (pointersOf_congr (c := zeros) (if_neg (by omega)) (if_neg (by omega))).trans rfl
    rw [hw, if_neg (by omega), slotAt_eq_zero_of_le (by omega)]
    rfl

/-- A pointer of the inode itself is set. -/
def Inode.setTop (x : Inode) (v : ℕ) : Node → Inode
  | .data b =>
    if h : b < 6 then { x with directPointer := Function.update x.directPointer ⟨b,h⟩ (UInt16.ofNat v) } else x
  | .ind => { x with indirectPointer := UInt16.ofNat v }
  | .dbl => { x with doubleIndirectPointer := UInt16.ofNat v }
  | .sec _ => x

theorem Inode.top_setTop {x : Inode} {n n' : Node} {v : ℕ} (hn : n.parent = none) (hn' : n'.parent = none)
    (hv : v < 65536) : (x.setTop v n).top n' = if n' = n then v else x.top n' := by
  have ht : (UInt16.ofNat v).toNat = v := by rw [UInt16.toNat_ofNat', Nat.mod_eq_of_lt hv]
  cases n with
  | data b =>
    by_cases hb : b < 6
    · cases n' with
      | data b' =>
        by_cases hb' : b' < 6
        · by_cases he : b' = b
          · subst he
            simp [setTop, top, hb, ht]
          · simp [setTop, top, hb, hb', he]
        · simp [top, hb', show b' ≠ b by omega]
      | ind => simp [setTop, top, hb]
      | dbl => simp [setTop, top, hb]
      | sec k => cases hn'
    · simp only [Node.parent, if_neg hb] at hn
      split_ifs at hn
  | ind => cases n' <;> simp [setTop, top, ht]
  | dbl => cases n' <;> simp [setTop, top, ht]
  | sec k => cases hn

/-- The number of node `n` is set where it stands. -/
def assign (m : Mem) (x : Inode) (n : Node) (v : ℕ) : Mem × Inode :=
  match n.parent with
  | none => (m,x.setTop v n)
  | some (p,j) => (setSlot m (nodePtr m x p) j v,x)

end LiteOSFS
