import LiteOSFS.FileSystem.Search
import LiteOSFS.FileSystem.EntryStep

/-! # fs_link and fs_remove of the same name

`fs_remove` of a regular file with more than one link lowers the count and keeps the
entry. So the removal of a name that was just linked returns 0 and the name still
resolves.
-/
namespace LiteOSFS
open Memory CString Ownership Transition

section Release
variable {m m' : Mem}

theorem inodeAt_release (id : ℕ) {j : ℕ} (hj : j < 256) : inodeAt (blockStoreRelease m wholeStore id) j = inodeAt m j := by
  by_cases hid : id ≤ 65528
  · rw [blockStoreRelease_whole hid]
    split_ifs
    · exact inodeAt_clearUsed hj
    · rfl
  · rw [blockStoreRelease, if_neg hid]

theorem inodeAt_releaseAll (ptrs : ℕ → UInt16) (n : ℕ) {j : ℕ} (hj : j < 256) :
    inodeAt (releaseAll m ptrs n) j = inodeAt m j := by
  induction n with
  | zero => rfl
  | succ n ih =>
    rw [releaseAll, List.range_succ, List.foldl_append, ← releaseAll, List.foldl_cons, List.foldl_nil]
    split_ifs
    · rw [inodeAt_release _ hj, ih]
    · exact ih

theorem inodeAt_releaseIndirect {b : UInt16} (h : releaseIndirect m b = some m') {j : ℕ} (hj : j < 256) :
    inodeAt m' j = inodeAt m j := by
  unfold releaseIndirect at h
  split_ifs at h with hb
  · cases h
    rfl
  · obtain ⟨ptrs,_,rfl⟩ := Option.map_eq_some_iff.mp h
    rw [inodeAt_release _ hj, inodeAt_releaseAll _ _ hj]

theorem inodeAt_releaseEach {ptrs : ℕ → UInt16} {l : List ℕ}
    (h : l.foldlM (fun m i => releaseIndirect m (ptrs i)) m = some m') {j : ℕ} (hj : j < 256) :
    inodeAt m' j = inodeAt m j := by
  induction l generalizing m with
  | nil =>
    cases h
    rfl
  | cons a l ih =>
    obtain ⟨m₁,h₁,h₂⟩ := Option.bind_eq_some_iff.mp h
    rw [ih h₂, inodeAt_releaseIndirect h₁ hj]

theorem inodeAt_releaseDouble {b : UInt16} (h : releaseDouble m b = some m') {j : ℕ} (hj : j < 256) :
    inodeAt m' j = inodeAt m j := by
  unfold releaseDouble at h
  split_ifs at h with hb
  · cases h
    rfl
  · obtain ⟨ptrs,_,h⟩ := Option.bind_eq_some_iff.mp h
    obtain ⟨m₁,h₁,rfl⟩ := Option.map_eq_some_iff.mp h
    rw [inodeAt_release _ hj, inodeAt_releaseEach h₁ hj]

theorem inodeAt_releaseFile {x : Inode} (h : releaseFile m x = some m') {j : ℕ} (hj : j < 256) :
    inodeAt m' j = inodeAt m j := by
  obtain ⟨m₁,h₁,h₂⟩ := Option.bind_eq_some_iff.mp h
  rw [inodeAt_releaseDouble h₂ hj, inodeAt_releaseIndirect h₁ hj, inodeAt_releaseAll _ _ hj]

theorem inodeAt_releaseDirectory {x : Inode} (hx : OffTable x.dirBlock) (h : releaseDirectory m x = (0,m')) {j : ℕ}
    (hj : j < 256) : inodeAt m' j = inodeAt m j := by
  unfold releaseDirectory at h
  have hle : x.dirBlock ≤ 65528 := by
    rcases hx with h0 | ⟨_,hlt⟩
    · omega
    · omega
  rw [blockStoreRead_data hle] at h
  split_ifs at h with he
  · cases h
  · simp only [blockStoreWrite_data hle] at h
    cases h
    rw [inodeAt_release _ hj, inodeAt_putBlock_offTable hx hj]

theorem inodeAt_unlinkInode {d f : ℕ} {parent : Inode} {dir : Mem} {name : CStr} (hd : d < 256) (hf : f < 256)
    (hb : OffTable parent.dirBlock) (h : unlinkInode m d f parent dir name = (0,m')) {j : ℕ} (hj : j < 256)
    (hjd : j ≠ d) : inodeAt m' j = if f = j then Inode.cleared else inodeAt m j := by
  have hle : parent.dirBlock ≤ 65528 := by
    rcases hb with h0 | ⟨_,hlt⟩
    · omega
    · omega
  unfold unlinkInode at h
  cases hk : getFileIndexInDir parent dir name with
  | none =>
    rw [hk] at h
    cases h
  | some k =>
    simp only [hk, blockStoreInodeWrite_table hf, blockStoreRelease_inode hf, blockStoreWrite_data hle,
      blockStoreInodeWrite_table hd] at h
    cases h
    have hfree : inodeAt (freeInode (putInode m f Inode.cleared) f) j = if f = j then Inode.cleared else inodeAt m j := by
      rw [inodeAt_freeInode hf, inodeAt_putInode]
    rw [inodeAt_putInode, if_neg (Ne.symm hjd), inodeAt_putBlock_offTable hb hj]
    exact hfree

/-- A removal lowers the link count, or clears the record of the file and changes no other but the parent's. -/
theorem removeIn_inodes {d f : ℕ} {name : CStr} (hoff : ∀ e < 256, OffTable (inodeAt m e).dirBlock) (hf : f < 256)
    (h : removeIn m d f name = some (0,m')) :
    m' = putInode m f { inodeAt m f with linkCount := (inodeAt m f).linkCount - 1 } ∨
      ∀ j < 256, j ≠ d → inodeAt m' j = if f = j then Inode.cleared else inodeAt m j := by
  rw [removeIn] at h
  cases hread : readDir m d with
  | none =>
    rw [hread] at h
    cases h
  | some r =>
    obtain ⟨x,dir⟩ := r
    obtain ⟨hd,rfl,_,rfl⟩ := readDir_some hread
    simp only [hread, blockStoreInodeRead_table hf] at h
    split_ifs at h with hreg hlinks hz
    · rw [blockStoreInodeWrite_table hf] at h
      cases h
      exact Or.inl rfl
    · obtain ⟨m₁,h₁,hu⟩ := Option.map_eq_some_iff.mp h
      refine Or.inr (fun j hj hjd => ?_)
      rw [inodeAt_unlinkInode hd hf (hoff d hd) hu hj hjd, inodeAt_releaseFile h₁ hj]
    · exact absurd (congrArg Prod.fst (Option.some.inj h)) hz
    · obtain ⟨r,m₁,hr⟩ : ∃ r m₁, releaseDirectory m (inodeAt m f) = (r,m₁) := ⟨_,_,rfl⟩
      rw [hr] at hz h
      obtain rfl : r = 0 := not_not.mp hz
      refine Or.inr (fun j hj hjd => ?_)
      rw [inodeAt_unlinkInode hd hf (hoff d hd) (Option.some.inj h) hj hjd, inodeAt_releaseDirectory (hoff f hf) hr hj]

end Release

theorem checkFileExist_of_found {m : Mem} {d : ℕ} {name : CStr} (h : getFileInodeID m d name ≠ 0) :
    checkFileExist m d name = true := by
  rw [getFileInodeID] at h
  rw [checkFileExist]
  cases hr : readDir m d with
  | none =>
    rw [hr] at h
    exact absurd rfl h
  | some r =>
    obtain ⟨x,dir⟩ := r
    simp only [hr] at h ⊢
    cases hf : firstEntry x (sameName dir · name) with
    | none =>
      rw [hf] at h
      exact absurd rfl h
    | some k => rfl

/-- Everything is as it was before the link, but for a block that the parent of the new name may have got. -/
structure LinkUndone (m m' : Mem) (i p : ℕ) (dst : CStr) : Prop where
  gone : findFile m' dst = none
  paths : ∀ q, q ≠ dst → findFile m' q = findFile m q
  record : inodeAt m' i = inodeAt m i
  content : ∀ o, fileByte m' (inodeAt m' i) o = fileByte m (inodeAt m i) o
  inodes : ∀ j < 256, inodeUsed m' j = inodeUsed m j
  blocks : ∀ b < 65536, used m' b = used m b ∨
    used m b = false ∧ used m' b = true ∧ (inodeAt m p).dirBlock = 0 ∧ (inodeAt m' p).dirBlock = b

/-- `fs_remove` never undoes an `fs_link` of a regular file. -/
theorem link_not_undone {s s₁ : F19FS} {src dst : PathArg} {i : ℕ} (h : Reachable s)
    (hsrc : findFile s.image src.chars = some i) (hreg : (s.inode i).fileType = typeRegular)
    (hlink : call s (.link (some src) (some dst)) = some (0,s₁)) :
    ¬ ∃ s₂, call s₁ (.remove (some dst)) = some (0,s₂) ∧
      LinkUndone s.image s₂.image i (parentOf s.image dst.chars) dst.chars := by
  rintro ⟨s₂,hrem,hundo⟩
  have hi := h.inv
  obtain ⟨hchk,hlinked⟩ := fsLink_checked hi hlink
  obtain ⟨m₁,hm₁⟩ : ∃ m₁, s₁.image = m₁ := ⟨_,rfl⟩
  rw [hm₁] at hlinked
  obtain ⟨hp,hpdir⟩ := parentOf_spec hi hchk.dstParent
  obtain ⟨hid,hilt⟩ := findFile_eq hsrc
  rw [hid] at hlinked
  generalize parentOf s.image dst.chars = p at *
  have hreg : (inodeAt s.image i).fileType = typeRegular := hreg
  have hip : i ≠ p := by
    rintro rfl
    rw [hreg] at hpdir
    cases hpdir
  have hoff : ∀ e < 256, OffTable (inodeAt s.image e).dirBlock := fun e he => hi.offTable he
  have hkeep : ∀ e < 256, (inodeAt m₁ e).fileType = (inodeAt s.image e).fileType ∧
      (inodeAt m₁ e).inodeNumber = (inodeAt s.image e).inodeNumber ∧
      (inodeAt m₁ e).dirBlock = (inodeAt s.image e).dirBlock := by
    rw [hlinked]
    exact fun e he => linked_keeps (hoff p hp) he
  have hoff₁ : ∀ e < 256, OffTable (inodeAt m₁ e).dirBlock := fun e he => by
    rw [(hkeep e he).2.2]
    exact hoff e he
  have hds : DirsSound m₁ := by
    refine ⟨?_,fun d hd hdir => ?_,fun d hd _ => ?_⟩
    · rw [(hkeep 0 (by omega)).1]
      exact hi.root
    · rw [(hkeep d hd).1] at hdir
      rw [(hkeep d hd).2.1]
      exact (hi.record d hd).self hdir
    · rw [(hkeep d hd).2.2]
      exact hi.dirBlock_le hd
  have hi₁ : inodeAt m₁ i = { inodeAt s.image i with linkCount := (inodeAt s.image i).linkCount + 1 } := by
    rw [hlinked, inodeAt_linked (hoff p hp) hilt, if_neg (Ne.symm hip), if_pos rfl]
  have hcall : fsRemove s₁ (some dst.chars) = some (0,s₂) := hrem
  rcases fsRemove_cases hcall with ⟨hneg,_⟩ | ⟨q,hq,hpar,hfound,_,hr,_⟩
  · omega
  obtain rfl := Option.some.inj hq
  rw [hm₁] at hpar hfound hr
  have hf := getFileInodeID_lt m₁ (parentOf m₁ dst.chars) (basename dst.chars)
  have hres : findFile m₁ dst.chars = some (getFileInodeID m₁ (parentOf m₁ dst.chars) (basename dst.chars)) := by
    rw [findFile, if_neg]
    rintro (he | he)
    · exact hpar he
    · rw [checkFileExist_of_found hfound] at he
      cases he
  -- the parent found is a directory, and so its record is not that of the file
  have hid' : i ≠ parentOf m₁ dst.chars := by
    intro he
    have hd := (parentOf_dir hds hpar).2
    rw [← he, (hkeep i hilt).1, hreg] at hd
    cases hd
  generalize getFileInodeID m₁ (parentOf m₁ dst.chars) (basename dst.chars) = f at *
  rcases removeIn_inodes hoff₁ hf hr with he | hclear
  · have hsame : findFile s₂.image dst.chars = findFile m₁ dst.chars := by
      rw [he]
      refine findFile_congr (fun e _ => ?_) (fun e he => blockAt_putInode_offTable hf (hoff₁ e he)) _
      rw [inodeAt_putInode]
      split_ifs with hfe
      · rw [hfe]
        exact ⟨SameEntries.links _ _,rfl⟩
      · exact ⟨SameEntries.refl _,rfl⟩
    rw [hundo.gone, hres] at hsame
    cases hsame
  · have hrec₂ := hclear i hilt hid'
    rw [hundo.record] at hrec₂
    split_ifs at hrec₂ with hfi
    · rw [hrec₂] at hreg
      exact absurd hreg (by decide)
    · have hlinks := congrArg Inode.linkCount (hrec₂.trans hi₁)
      have hone := congrArg UInt64.toNat hlinks
      have hlt := UInt64.toNat_lt (inodeAt s.image i).linkCount
      have h1 : (1 : UInt64).toNat = 1 := rfl
      rw [UInt64.toNat_add, h1] at hone
      omega

/-- A file `/a` and a second name `/b` for it. -/
def nameA : PathArg := ⟨ofChars ['/','a'],by decide⟩
def nameB : PathArg := ⟨ofChars ['/','b'],by decide⟩

theorem linkRun : ∃ s s₁, run (checked plain step) fsFormat [.create (some nameA) .regular] = some s ∧
    call s (.link (some nameA) (some nameB)) = some (0,s₁) ∧ findFile s.image nameA.chars = some 1 ∧
    (s.inode 1).fileType = typeRegular := by
  have hrun : ((run (checked plain step) fsFormat [.create (some nameA) .regular]).bind fun s =>
      (call s (.link (some nameA) (some nameB))).map fun r => decide (r.1 = 0) &&
        decide (findFile s.image nameA.chars = some 1) && decide ((s.inode 1).fileType = typeRegular)) = some true := by
    decide +kernel
  obtain ⟨s,hs,hl⟩ := Option.bind_eq_some_iff.mp hrun
  obtain ⟨⟨ret,s₁⟩,hl,hr⟩ := Option.map_eq_some_iff.mp hl
  simp only [Bool.and_eq_true, decide_eq_true_eq] at hr
  obtain ⟨⟨rfl,hfind⟩,hreg⟩ := hr
  exact ⟨s,s₁,hs,hl,hfind,hreg⟩

theorem link_not_undone_file : ∃ s s₁, run step fsFormat [.create (some nameA) .regular] = some s ∧
    call s (.link (some nameA) (some nameB)) = some (0,s₁) ∧
    ¬ ∃ s₂, call s₁ (.remove (some nameB)) = some (0,s₂) ∧
      LinkUndone s.image s₂.image 1 (parentOf s.image nameB.chars) nameB.chars := by
  obtain ⟨s,s₁,hs,hl,hfind,hreg⟩ := linkRun
  exact ⟨s,s₁,run_of_checked hs,hl,link_not_undone (reachable_of_plain hs) hfind hreg hl⟩

/-- The second name is still there after its removal. -/
theorem link_undo_fails : ¬ ∀ s s₁ (src dst : PathArg) i, Reach step (fun _ _ => True) fsFormat s →
    findFile s.image src.chars = some i → (s.inode i).fileType = typeRegular →
    call s (.link (some src) (some dst)) = some (0,s₁) → ∃ s₂, call s₁ (.remove (some dst)) = some (0,s₂) ∧
      LinkUndone s.image s₂.image i (parentOf s.image dst.chars) dst.chars := by
  intro hall
  have hrun : (run step fsFormat [.create (some nameA) .regular,.link (some nameA) (some nameB),
      .remove (some nameB)]).map (fun s => decide (findFile s.image nameB.chars = some 1)) = some true := by
    decide +kernel
  obtain ⟨s,s₁,hs,hl,hfind,hreg⟩ := linkRun
  have hs := run_of_checked hs
  obtain ⟨s₂,hr,hundo⟩ := hall s s₁ nameA nameB 1 (reach_of_run hs) hfind hreg hl
  obtain ⟨s₃,h₃,hres⟩ := Option.map_eq_some_iff.mp hrun
  have hsame : run step fsFormat [.create (some nameA) .regular,.link (some nameA) (some nameB),
      .remove (some nameB)] = some s₂ := by
    have hlast : run step s [.link (some nameA) (some nameB),.remove (some nameB)] = some s₂ :=
      run_cons.mpr ⟨s₁,step_of_call hl,run_cons.mpr ⟨s₂,step_of_call hr,rfl⟩⟩
    obtain ⟨sb,hb,he⟩ := run_cons.mp hs
    cases he
    exact run_cons.mpr ⟨s,hb,hlast⟩
  rw [h₃] at hsame
  cases hsame
  rw [hundo.gone] at hres
  exact absurd hres (by decide)

end LiteOSFS
