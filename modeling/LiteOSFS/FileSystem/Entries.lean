import LiteOSFS.FileSystem.Directory

/-! # The entries of a directory block

A name of at most 31 bytes is found in a slot by looking at the slot's own bytes,
whatever the rest of the block holds: its terminator lies inside the slot.
-/
namespace LiteOSFS
open Memory CString

/-- Slot `j` holds the same bytes in both blocks. -/
def SlotEq (dir dir' : Mem) (j : ℕ) : Prop := ∀ k < 33, dir (33 * j + k) = dir' (33 * j + k)

theorem bytes_of_read {b : Mem} {fuel off : ℕ} {s : CStr} (hf : s.length < fuel) (h : read b fuel off = s) :
    ∀ k ≤ s.length, b (off + k) = bytes s k := by
  induction s generalizing fuel off with
  | nil =>
    intro k hk
    obtain ⟨fuel,rfl⟩ := Nat.exists_eq_succ_of_ne_zero (Nat.ne_of_gt hf)
    obtain rfl : k = 0 := by simpa using hk
    rw [CString.read] at h
    split_ifs at h with hz
    exact hz
  | cons c s ih =>
    intro k hk
    obtain ⟨fuel,rfl⟩ := Nat.exists_eq_succ_of_ne_zero (Nat.ne_of_gt (Nat.zero_lt_of_lt hf))
    rw [CString.read] at h
    split_ifs at h with hz
    obtain ⟨h0,hs⟩ := List.cons_eq_cons.mp h
    cases k with
    | zero => exact h0
    | succ k =>
      have hk' := ih (by simpa using hf) hs k (by simpa using hk)
      rw [show off + (k + 1) = off + 1 + k by omega, hk']
      rfl

section Names
variable {dir dir' : Mem} {i j : ℕ} {name : CStr}

theorem entryName_eq_iff (hn : 0 ∉ name) (hl : name.length < 32) :
    entryName dir i = name ↔ ∀ k ≤ name.length, dir (33 * i + k) = bytes name k :=
  ⟨bytes_of_read (by omega),read_of_bytes hn (by omega)⟩

theorem sameName_iff (hn : 0 ∉ name) : sameName dir i name = true ↔ entryName dir i = name :=
  strncmpEq_max (zero_not_mem_read _ _ _) hn

theorem SlotEq.symm (h : SlotEq dir dir' j) : SlotEq dir' dir j := fun k hk => (h k hk).symm

theorem SlotEq.entryName_eq (h : SlotEq dir dir' j) (hn : 0 ∉ name) (hl : name.length < 32) :
    entryName dir j = name ↔ entryName dir' j = name := by
  rw [entryName_eq_iff hn hl, entryName_eq_iff hn hl]
  have he : ∀ k ≤ name.length, dir (33 * j + k) = dir' (33 * j + k) := fun k hk => h k (by omega)
  exact ⟨fun ha k hk => (he k hk).symm.trans (ha k hk),fun ha k hk => (he k hk).trans (ha k hk)⟩

theorem SlotEq.sameName_eq (h : SlotEq dir dir' j) (hn : 0 ∉ name) (hl : name.length < 32) :
    sameName dir j name = sameName dir' j name := by
  rw [Bool.eq_iff_iff, sameName_iff hn, sameName_iff hn, h.entryName_eq hn hl]

theorem SlotEq.entryInode_eq (h : SlotEq dir dir' j) : entryInode dir j = entryInode dir' j := by
  rw [entryInode, entryInode, h 32 (by omega)]

theorem slotEq_window (hj : j < 31) : SlotEq (window dir 0 1024) dir j := by
  intro k hk
  rw [window_apply_lt (by omega), Nat.zero_add]

/-- The search depends on the slots in use. -/
theorem firstEntry_congr {x y : Inode} {p q : ℕ → Bool} (h : ∀ j < 31, (x.live j && p j) = (y.live j && q j)) :
    firstEntry x p = firstEntry y q := by
  unfold firstEntry
  rw [← List.head?_filter, ← List.head?_filter]
  congr 1
  exact List.filter_congr (fun j hj => h j (List.mem_range.mp hj))

end Names

section Update
variable {dir : Mem} {i j c : ℕ} {name : CStr}

theorem entryName_putEntry (hn : 0 ∉ name) (hl : name.length < 32) : entryName (putEntry dir i name c) i = name := by
  rw [entryName_eq_iff hn hl]
  intro k hk
  rw [putEntry, setEntryInode, copyIn_outside (by omega), strcpy, copyIn_inside (by omega) (by omega),
    Nat.add_sub_cancel_left]

theorem entryInode_setEntryInode (hc : c < 256) : entryInode (setEntryInode dir i c) i = c := by
  rw [entryInode, setEntryInode, copyIn_inside le_rfl (by omega), UInt8.toNat_ofNat', Nat.mod_eq_of_lt hc]

theorem entryInode_putEntry (hc : c < 256) : entryInode (putEntry dir i name c) i = c := entryInode_setEntryInode hc

theorem slotEq_putEntry (hl : name.length < 32) (hij : i ≠ j) : SlotEq (putEntry dir i name c) dir j := by
  intro k hk
  rw [putEntry, setEntryInode, copyIn_outside (by omega), strcpy, copyIn_outside (by omega)]

theorem slotEq_clearEntry (hij : i ≠ j) : SlotEq (clearEntry dir i) dir j := by
  intro k hk
  rw [clearEntry, copyIn_outside (by omega), setEntryInode, copyIn_outside (by omega)]

/-- The store of `fs_link` and `fs_move`. -/
theorem slotEq_strncpy {n : ℕ} (hn : n ≤ 32) (hij : i ≠ j) :
    SlotEq (strncpy (setEntryInode dir i c) (33 * i) name n) dir j := by
  intro k hk
  rw [strncpy, copyIn_outside (by omega), setEntryInode, copyIn_outside (by omega)]

theorem entryInode_strncpy {n : ℕ} (hn : n ≤ 32) (hc : c < 256) :
    entryInode (strncpy (setEntryInode dir i c) (33 * i) name n) i = c := by
  have he : entryInode (setEntryInode dir i c) i = c := entryInode_setEntryInode hc
  rw [entryInode, strncpy, copyIn_outside (by omega)]
  exact he

end Update

theorem mem_basename {s : CStr} {c : UInt8} (h : c ∈ basename s) : c ∈ s ∨ c = 46 ∨ c = slash := by
  unfold basename at h
  simp only at h
  split_ifs at h with h1 h2
  · exact Or.inr (Or.inl (List.mem_singleton.mp h))
  · exact Or.inr (Or.inr (List.mem_singleton.mp h))
  · left
    rw [List.mem_reverse] at h
    have h' := List.mem_reverse.mp (List.takeWhile_subset _ h)
    rw [rtrim, List.mem_reverse] at h'
    exact List.mem_reverse.mp (List.dropWhile_subset _ h')

theorem basename_nulFree {s : CStr} (h : 0 ∉ s) : 0 ∉ basename s := by
  intro hc
  rcases mem_basename hc with h0 | h0 | h0
  · exact h h0
  · cases h0
  · cases h0

theorem rtrim_subset (s : CStr) : rtrim s ⊆ s := by
  intro c hc
  rw [rtrim, List.mem_reverse] at hc
  exact List.mem_reverse.mp (List.dropWhile_subset _ hc)

theorem dirname_nulFree {s : CStr} (h : 0 ∉ s) : 0 ∉ dirname s := by
  rw [dirname]
  split_ifs
  · intro hc
    have hu := List.dropWhile_subset _ (List.mem_reverse.mp (rtrim_subset _ hc))
    exact h (rtrim_subset s (List.mem_reverse.mp hu))
  · decide
  · decide

end LiteOSFS
