import LiteOSFS.FileSystem.Coverage

/-! # No block leak

Every block in use belongs to a directory or a regular file in use, as long as no
call takes a block that it does not store: `fs_create` gives a directory whose slot 0
is vacant a new block in any case, `fs_create` and `fs_move` take a block before they
look for an inode, and a descriptor may outlive its file.
-/
namespace LiteOSFS
open Memory CString Ownership Transition

/-- The calls that store every block they take, besides the safe ones. -/
def KeepsBlocks (s : F19FS) : Call → Prop
  | .create path type => ∀ p ∈ path, type ≠ .invalid → ∀ tokens d name, CreateChecked s.image p.chars tokens d name →
    (inodeAt s.image d).live 0 = false →
      (inodeAt s.image d).dirBlock = 0 ∧ (firstFreeInode s.image = sizeMax → firstFree s.image = sizeMax)
  | .write fd _ _ => s.Opened fd → inodeUsed s.image (s.fileOf fd) = true ∧ (s.inode (s.fileOf fd)).fileType = typeRegular
  | .move src dst _ => ∀ p ∈ src, ∀ q ∈ dst, MoveChecked s.image p.chars q.chars →
    checkFileExist s.image (parentOf s.image q.chars) (basename q.chars) = false →
    (inodeAt s.image (parentOf s.image q.chars)).entryCount ≠ 31 → firstFreeInode s.image = sizeMax →
    firstFree s.image = sizeMax
  | _ => True

def NoLeak (s : F19FS) (c : Call) : Prop := Safe s c ∧ KeepsBlocks s c

theorem fsCreate_covered {s s' : F19FS} {path : Option PathArg} {type : FileT} {ret : ℤ} (hi : ImageInv s.image)
    (hkeep : KeepsBlocks s (.create path type)) (h : fsCreate s (pathOf path) type = some (ret,s'))
    (hc : Covered s.image) : Covered s'.image := by
  have hi' := (fsCreate_inv hi h).1
  rcases (fsCreate_effect hi h).2 with ⟨_,he⟩ | ⟨q,tokens,d,name,hq,htype,hchk,hr⟩
  · rwa [he]
  obtain ⟨p,hp,rfl⟩ := mem_pathOf hq
  have hfirst := hkeep p hp htype tokens d name hchk
  rcases hr with ⟨_,ht⟩ | ⟨_,k,b,c,hcr⟩
  · exact absurd ((hfirst ht.vacant).2 ht.inodesFull) ht.blockFree
  · refine hcr.covered hi hi' hchk.lt hchk.directory (fun h0 => ?_) hc
    have hv := hcr.vacant
    rw [h0] at hv
    exact (hfirst hv).1

theorem step_covered {s s' : F19FS} {c : Call} (hi : ImageInv s.image) (hg : NoLeak s c) (h : step s c = some s')
    (hc : Covered s.image) : Covered s'.image := by
  obtain ⟨hsafe,hkeep⟩ := hg
  obtain ⟨ret,h⟩ := step_call h
  have hsame : s'.image = s.image → Covered s'.image := by
    intro he
    rwa [he]
  cases c with
  | create path type => exact fsCreate_covered hi hkeep h hc
  | openFile path => exact hsame (fsOpen_image h)
  | close fd =>
    apply hsame
    rw [← fsClose_image s fd, Option.some.inj h]
  | read fd dstNull nbyte =>
    obtain ⟨⟨ret',bytes,s''⟩,hr,he⟩ := Option.map_eq_some_iff.mp h
    cases he
    exact hsame (fsRead_image hr)
  | write fd src nbyte =>
    exact fsWrite_covered hi hsafe (fun ho => ⟨(hkeep ho).1,Or.inr (hkeep ho).2⟩) h hc
  | seek fd offset whence => exact hsame (fsSeek_image h)
  | remove path =>
    refine fsRemove_covered hi (fun p i hp => ?_) h hc
    obtain ⟨a,ha,rfl⟩ := mem_pathOf hp
    exact hsafe a ha i
  | move src dst junk =>
    refine fsMove_covered hi (nulFree_pathOf src) (nulFree_pathOf dst) (fun p hp q hq => ?_) (fun p hp q hq => ?_) h hc
    · obtain ⟨a,ha,rfl⟩ := mem_pathOf hp
      obtain ⟨b,hb,rfl⟩ := mem_pathOf hq
      exact hsafe a ha b hb
    · obtain ⟨a,ha,rfl⟩ := mem_pathOf hp
      obtain ⟨b,hb,rfl⟩ := mem_pathOf hq
      exact hkeep a ha b hb
  | link src dst =>
    refine fsLink_covered hi (fun p hp q hq => ?_) (Option.some.inj h) hc
    obtain ⟨a,ha,rfl⟩ := mem_pathOf hp
    obtain ⟨b,hb,rfl⟩ := mem_pathOf hq
    exact hsafe a ha b hb
  | remount => exact hsame (by cases h; rfl)

theorem covered_of_noLeak {s : F19FS} (h : Reach step NoLeak fsFormat s) : ImageInv s.image ∧ Covered s.image :=
  h.invariant (P := fun s => ImageInv s.image ∧ Covered s.image) ⟨fsFormat_inv,covered_fsFormat⟩
    (fun hp hg hs => ⟨(step_inv hp.1 hg.1 hs).1,step_covered hp.1 hg hs hp.2⟩)

/-- In every run of such calls each block in use is the block of an allocated directory, or one of the
blocks of an allocated regular file. -/
theorem no_block_leak {s : F19FS} (h : Reach step NoLeak fsFormat s) {b : ℕ} (hb : 17 ≤ b ∧ b < 65528)
    (hu : used s.image b = true) : ∃ i < 256, inodeUsed s.image i = true ∧
      ((s.inode i).fileType = typeDirectory ∧ (s.inode i).dirBlock = b ∨
        (s.inode i).fileType = typeRegular ∧ ∃ n, nodePtr s.image (s.inode i) n = b) := by
  obtain ⟨⟨i,n⟩,⟨hused,htype⟩,rfl⟩ := (covered_of_noLeak h).2 b hb hu
  refine ⟨i,i.isLt,hused,?_⟩
  rcases htype with hdir | hreg
  · have hn : n = .data 0 := held_directory hdir (DataId.ne_zero hb)
    subst hn
    exact Or.inl ⟨hdir,owns_data_zero.symm⟩
  · exact Or.inr ⟨hreg,n,(owns_of_file (by
      show (inodeAt s.image i).fileType ≠ typeDirectory
      rw [hreg]
      decide)).symm⟩

theorem dirBlock_fsFormat {i : ℕ} (hi : i < 256) : (inodeAt fsFormat.image i).dirBlock = 0 := by
  rw [inodeAt_fsFormat hi]
  split_ifs <;> rfl

theorem no_block_leak_create : ∃ s, step fsFormat (.create (pathArg ['/','a']) .regular) = some s ∧
    used s.image 17 = true ∧ ∃ i < 256, inodeUsed s.image i = true ∧
      ((s.inode i).fileType = typeDirectory ∧ (s.inode i).dirBlock = 17 ∨
        (s.inode i).fileType = typeRegular ∧ ∃ n, nodePtr s.image (s.inode i) n = 17) := by
  have hs : (step fsFormat (.create (pathArg ['/','a']) .regular)).map (fun s => used s.image 17) = some true := by
    decide +kernel
  obtain ⟨s,hs,hu⟩ := Option.map_eq_some_iff.mp hs
  have hinode : firstFreeInode fsFormat.image ≠ sizeMax := by decide +kernel
  have hg : NoLeak fsFormat (.create (pathArg ['/','a']) .regular) :=
    ⟨trivial,fun p _ _ tokens d name hc _ => ⟨dirBlock_fsFormat hc.lt,fun hf => absurd hf hinode⟩⟩
  exact ⟨s,hs,hu,no_block_leak (Reach.refl.tail hg hs) ⟨by decide,by decide⟩ hu⟩

/-- After the removal slot 0 of the root is vacant again, and the second creation replaces its block. -/
def refillRun : List Call := [.create (pathArg ['/','a']) .regular,.remove (pathArg ['/','a']),
  .create (pathArg ['/','b']) .directory]

theorem block_leaked : ¬ ∀ s, Reach step (fun _ _ => True) fsFormat s → ∀ b, 17 ≤ b ∧ b < 65528 →
    used s.image b = true → ∃ i < 256, inodeUsed s.image i = true ∧
      ((s.inode i).fileType = typeDirectory ∧ (s.inode i).dirBlock = b ∨
        (s.inode i).fileType = typeRegular ∧ ∃ n, nodePtr s.image (s.inode i) n = b) := by
  have hlost : (run step fsFormat refillRun).map (fun s : F19FS => used s.image 17 &&
      (List.range 256).all (fun i => !inodeUsed s.image i ||
        decide ((s.inode i).fileType = typeDirectory ∧ (s.inode i).dirBlock ≠ 17))) = some true := by decide +kernel
  intro h
  obtain ⟨s,hs,hf⟩ := Option.map_eq_some_iff.mp hlost
  obtain ⟨hu,hall⟩ := Bool.and_eq_true_iff.mp hf
  obtain ⟨i,hi,hused,hheld⟩ := h s (reach_of_run hs) 17 ⟨by decide,by decide⟩ hu
  have hone := List.all_eq_true.mp hall i (List.mem_range.mpr hi)
  rw [hused, Bool.not_true, Bool.false_or, decide_eq_true_eq] at hone
  rcases hheld with ⟨_,hb⟩ | ⟨hreg,_⟩
  · exact hone.2 hb
  · rw [hone.1] at hreg
    exact absurd hreg (by decide)

end LiteOSFS
