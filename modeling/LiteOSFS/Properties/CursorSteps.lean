import LiteOSFS.FileSystem.Cursor

/-! # Cursor arithmetic

A cursor inside its block is a position of 26 bits and `updateFD` is addition, so that a
transfer may move it once or piece by piece.
-/
namespace LiteOSFS

variable {fd : FileDescriptor}

/-- Descriptors that differ in the cursor only are equal where it is inside its block and at the same position. -/
theorem FileDescriptor.ext_position {fd' : FileDescriptor} (hnum : fd'.inodeNum = fd.inodeNum)
    (husage : fd'.usage = fd.usage) (ho : fd.locateOffset.toNat < 1024) (ho' : fd'.locateOffset.toNat < 1024)
    (hp : fd'.position = fd.position) :
    fd' = fd := by
  unfold FileDescriptor.position at hp
  apply FileDescriptor.ext hnum husage
  · apply UInt16.toNat_inj.mp
    omega
  · apply UInt16.toNat_inj.mp
    omega

theorem updateFD_kept (ho : fd.locateOffset.toNat ≤ 1024) (n : ℕ) :
    (updateFD fd n).inodeNum = fd.inodeNum ∧ (updateFD fd n).usage = fd.usage := by
  rw [updateFD_eq ho]
  exact ⟨rfl,rfl⟩

/-- Two advances make one. -/
theorem updateFD_updateFD (ho : fd.locateOffset.toNat ≤ 1024) (a b : ℕ) :
    updateFD (updateFD fd a) b = updateFD fd (a + b : ℕ) := by
  have ha := (updateFD_offset ho a).le
  obtain ⟨hnum,husage⟩ := updateFD_kept ho a
  obtain ⟨hnum',husage'⟩ := updateFD_kept ha b
  obtain ⟨hnum₁,husage₁⟩ := updateFD_kept ho (a + b)
  refine FileDescriptor.ext_position ?_ ?_ (updateFD_offset ho _) (updateFD_offset ha b) ?_
  · rw [hnum', hnum, hnum₁]
  · rw [husage', husage, husage₁]
  · rw [updateFD_position ha, updateFD_position ho, updateFD_position ho, Nat.mod_add_mod, Nat.add_assoc]

theorem updateFD_sum (ho : fd.locateOffset.toNat ≤ 1024) {pieces : List ℕ} (hne : pieces ≠ []) :
    pieces.foldl (fun fd (n : ℕ) => updateFD fd n) fd = updateFD fd (pieces.sum : ℕ) := by
  induction pieces generalizing fd with
  | nil => exact absurd rfl hne
  | cons n pieces ih =>
    by_cases hlast : pieces = []
    · rw [hlast]
      rfl
    · rw [List.foldl_cons, ih (updateFD_offset ho n).le hlast, updateFD_updateFD ho, List.sum_cons]

theorem updateFD_none (ho : fd.locateOffset.toNat < 1024) : updateFD fd (0 : ℕ) = fd := by
  obtain ⟨hnum,husage⟩ := updateFD_kept ho.le 0
  have hlt := fd.locateOrder.toNat_lt
  refine FileDescriptor.ext_position hnum husage ho (updateFD_offset ho.le 0) ?_
  rw [updateFD_position ho.le, Nat.add_zero, FileDescriptor.position]
  omega

/-- An advance that stays below the end of the 16-bit block number adds to the position, and advancing by the
pieces of a transfer or by its total gives the same descriptor. -/
theorem cursor_adds (fd : FileDescriptor) (h : fd.locateOffset.toNat < 1024) :
    (∀ n : ℕ, fd.locateOrder.toNat * 1024 + fd.locateOffset.toNat + n < 65536 * 1024 →
      (updateFD fd n).locateOffset.toNat < 1024 ∧
      (updateFD fd n).locateOrder.toNat * 1024 + (updateFD fd n).locateOffset.toNat =
        fd.locateOrder.toNat * 1024 + fd.locateOffset.toNat + n) ∧
    (∀ a b : ℕ, fd.locateOrder.toNat * 1024 + fd.locateOffset.toNat + a + b < 65536 * 1024 →
      updateFD (updateFD fd a) b = updateFD fd ((a : ℤ) + b)) ∧
    ∀ pieces : List ℕ, fd.locateOrder.toNat * 1024 + fd.locateOffset.toNat + pieces.sum < 65536 * 1024 →
      pieces.foldl (fun fd (n : ℕ) => updateFD fd n) fd = updateFD fd (pieces.sum : ℕ) := by
  refine ⟨fun n hn => ⟨updateFD_offset h.le n,?_⟩,fun a b _ => ?_,fun pieces _ => ?_⟩
  · exact (updateFD_position h.le n).trans (Nat.mod_eq_of_lt hn)
  · rw [updateFD_updateFD h.le, Nat.cast_add]
  · by_cases hne : pieces = []
    · rw [hne]
      exact (updateFD_none h).symm
    · exact updateFD_sum h.le hne

theorem cursor_adds_block : updateFD (updateFD ⟨2,1,0,1000⟩ 24) 1024 = updateFD ⟨2,1,0,1000⟩ (24 + 1024) :=
  (cursor_adds ⟨2,1,0,1000⟩ (by decide)).2.1 24 1024 (by decide)

end LiteOSFS
