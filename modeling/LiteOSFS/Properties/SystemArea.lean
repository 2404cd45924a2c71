import LiteOSFS.FileSystem.Calls

/-! # The system area

Blocks 0 to 16 hold the inode bitmap and the inode table, and the last eight
blocks the free-block bitmap. Runs of safe calls change them only as `SysStep`
says; the removal of a directory that never had an entry does not.
-/
namespace LiteOSFS
open Memory CString Transition

/-- In every run of safe calls the blocks of the system area stay marked used, and the image changes by
block store operations on data blocks, on the inode bitmap and on inode records only. -/
theorem systemArea_of_safe {s : F19FS} (h : Reachable s) :
    SysUsed s.image ∧ SysSteps fsFormat.image s.image ∧
      ∀ c s', Safe s c → step s c = some s' → SysSteps s.image s'.image :=
  ⟨h.inv.sound.sys,h.steps,fun _ _ hsafe hs => (step_inv h.inv hsafe hs).2⟩

theorem systemArea_of_safe_create :
    ∃ s, step fsFormat (.create (pathArg ['/','d']) .directory) = some s ∧ SysUsed s.image ∧
      SysSteps fsFormat.image s.image ∧
      ∀ c s', Safe s c → step s c = some s' → SysSteps s.image s'.image := by
  obtain ⟨s,hs⟩ := Option.isSome_iff_exists.mp
    (show (step fsFormat (.create (pathArg ['/','d']) .directory)).isSome = true by decide +kernel)
  exact ⟨s,hs,systemArea_of_safe (Reach.refl.tail (a := .create (pathArg ['/','d']) .directory) trivial hs)⟩

/-- Removing a directory that never had an entry releases block 0. -/
def emptyDirectoryRun : List Call := [.create (pathArg ['/','d']) .directory,.remove (pathArg ['/','d'])]

theorem emptyDirectoryRun_releases : ((run step fsFormat emptyDirectoryRun).map (fun s => used s.image 0)) =
    some false := by decide +kernel

theorem systemArea_not_kept : ¬ ∀ s, Reach step (fun _ _ => True) fsFormat s → SysUsed s.image := by
  intro h
  obtain ⟨s,hs,hu⟩ := Option.map_eq_some_iff.mp emptyDirectoryRun_releases
  have h0 := h s (reach_of_run hs) 0 (by omega)
  rw [hu] at h0
  cases h0

end LiteOSFS
