import LiteOSFS.FileSystem.RelocateEffect
import LiteOSFS.FileSystem.WriteFile
import LiteOSFS.FileSystem.Read
import LiteOSFS.Library.Reach

/-! # The file system as a transition system

The states are those that calls of the public functions lead to from a formatted
image. `fs_get_dir` only reads, and so is no call here; `fs_unmount` and the
`fs_mount` of the same file are one. `Safe` is what a call needs to keep the
invariant of the image; it speaks of the state before the call.
-/
namespace LiteOSFS
open Memory CString Ownership Transition

/-- A path argument: what a C string holds before its terminator. -/
structure PathArg where
  chars : CStr
  nulFree : 0 ∉ chars

inductive Call where
  | create (path : Option PathArg) (type : FileT)
  | openFile (path : Option PathArg)
  | close (fd : ℤ)
  | read (fd : ℤ) (dstNull : Bool) (nbyte : UInt64)
  | write (fd : ℤ) (src : Option Mem) (nbyte : UInt64)
  | seek (fd : ℤ) (offset : Int64) (whence : SeekT)
  | remove (path : Option PathArg)
  | move (src dst : Option PathArg) (junk : Inode)
  | link (src dst : Option PathArg)
  | remount

/-- A path argument written as its characters other than NUL. -/
def pathArg (s : List Char) : Option PathArg := some ⟨(ofChars s).filter (· ≠ 0),by simp⟩

def pathOf (path : Option PathArg) : Option CStr := path.map PathArg.chars

/-- The return value of a call and the state after it; `none` is undefined behaviour. -/
def call (s : F19FS) : Call → Option (ℤ × F19FS)
  | .create path type => fsCreate s (pathOf path) type
  | .openFile path => fsOpen s (pathOf path)
  | .close fd => some (fsClose s fd)
  | .read fd dstNull nbyte => (fsRead s fd dstNull nbyte).map (fun r => (r.1,r.2.2))
  | .write fd src nbyte => fsWrite s fd src nbyte
  | .seek fd offset whence => fsSeek s fd offset whence
  | .remove path => fsRemove s (pathOf path)
  | .move src dst junk => fsMove s (pathOf src) (pathOf dst) junk
  | .link src dst => some (fsLink s (pathOf src) (pathOf dst))
  | .remount => some (0,fsMount s)

def step (s : F19FS) (c : Call) : Option F19FS := (call s c).map Prod.snd

theorem step_call {s s' : F19FS} {c : Call} (h : step s c = some s') : ∃ ret, call s c = some (ret,s') := by
  obtain ⟨⟨ret,s₁⟩,hc,rfl⟩ := Option.map_eq_some_iff.mp h
  exact ⟨ret,hc⟩

theorem step_of_call {s s' : F19FS} {c : Call} {ret : ℤ} (h : call s c = some (ret,s')) : step s c = some s' := by
  rw [step, h, Option.map_some]

/-- The target of a removal, when it is no regular file and has no entries, has a block. -/
def RemoveSafe (m : Mem) (path : CStr) : Prop :=
  ∀ i, removeTarget m path = some i → (inodeAt m i).fileType ≠ typeRegular →
    isDirectoryEmpty (inodeAt m i) = true → (inodeAt m i).dirBlock ≠ 0

/-- The directory that gets a link has a block. -/
def LinkSafe (m : Mem) (src dst : CStr) : Prop := LinkChecked m src dst → (inodeAt m (parentOf m dst)).dirBlock ≠ 0

def Safe (s : F19FS) : Call → Prop
  | .write fd _ nbyte => WriteSafe s fd nbyte
  | .remove path => ∀ p ∈ path, RemoveSafe s.image p.chars
  | .move src dst _ => ∀ p ∈ src, ∀ q ∈ dst, MoveSafe s.image p.chars q.chars
  | .link src dst => ∀ p ∈ src, ∀ q ∈ dst, LinkSafe s.image p.chars q.chars
  | _ => True

/-- A run of calls from a formatted image, each safe in the state before it. -/
abbrev Reachable : F19FS → Prop := Reach step Safe fsFormat

section Format

theorem inodeAt_allocateTimes {m : Mem} (n : ℕ) {i : ℕ} (hi : i < 256) :
    inodeAt (allocateTimes m wholeStore n) i = inodeAt m i := by
  induction n with
  | zero => rfl
  | succ n ih =>
    rw [allocateTimes, blockStoreAllocate_whole]
    split_ifs
    · exact ih
    · rw [inodeAt_setUsed hi, ih]

theorem inodeAt_fsFormat {i : ℕ} (hi : i < 256) :
    inodeAt fsFormat.image i = if i = 0 then rootInode else Inode.cleared := by
  have hz : inodeAt blockStoreCreate i = Inode.cleared := by
    rw [inodeAt, Inode.ofBytes_congr (c := zeros)]
    · rfl
    · intro k hk
      rw [window_apply_lt hk, blockStoreCreate, if_neg (by omega)]
      rfl
  have halloc : inodeAt (blockStoreSubAllocate (allocateTimes blockStoreCreate wholeStore 17) inodeStore).2 i =
      Inode.cleared := by
    rw [blockStoreSubAllocate, blockStoreAllocate_inode]
    split_ifs with h
    · rw [inodeAt_allocateTimes 17 hi, hz]
    · rw [inodeAt_setInodeUsed (firstFreeInode_spec h).1, inodeAt_allocateTimes 17 hi, hz]
  rw [fsFormat]
  simp only [blockStoreInodeWrite_table (show 0 < 256 by omega)]
  rw [inodeAt_putInode, halloc]
  simp only [eq_comm]

theorem fsFormat_used : SysUsed fsFormat.image := by
  unfold SysUsed
  decide +kernel

theorem fsFormat_rootUsed : inodeUsed fsFormat.image 0 = true := by decide +kernel

theorem held_fsFormat (q : Place) : held fsFormat.image (tableOf fsFormat.image) q = 0 := by
  obtain ⟨i,n⟩ := q
  rw [held, tableOf, inodeAt_fsFormat i.isLt]
  split_ifs
  · by_cases hn : n = .data 0
    · rw [hn, owns_data_zero]
      rfl
    · exact owns_of_directory rfl hn
  · exact owns_cleared n

theorem fsFormat_inv : ImageInv fsFormat.image := by
  refine ⟨⟨fsFormat_used,⟨fun q hq => absurd (held_fsFormat q) hq,fun q _ hq => absurd (held_fsFormat q) hq⟩⟩,
    fun i hi => ?_,?_⟩
  · rw [inodeAt_fsFormat hi]
    split_ifs with h0
    · subst h0
      refine ⟨fun _ => rfl,fun _ => fsFormat_rootUsed,fun _ j hj hl => ?_⟩
      rw [Inode.live_eq _ hj] at hl
      simp [rootInode, Inode.cleared] at hl
    · refine ⟨fun hd => absurd hd (by decide),fun hd => absurd hd (by decide),fun hd => absurd hd (by decide)⟩
  · rw [inodeAt_fsFormat (by omega)]
    rfl

end Format

theorem mem_pathOf {path : Option PathArg} {p : CStr} (h : p ∈ pathOf path) : ∃ a ∈ path, a.chars = p :=
  Option.map_eq_some_iff.mp h

theorem nulFree_pathOf (path : Option PathArg) : ∀ p ∈ pathOf path, 0 ∉ p := by
  intro p hp
  obtain ⟨a,_,rfl⟩ := mem_pathOf hp
  exact a.nulFree

/-- The calls that change the descriptors only. -/
theorem fsOpen_image {s s' : F19FS} {path : Option CStr} {ret : ℤ} (h : fsOpen s path = some (ret,s')) :
    s'.image = s.image := by
  unfold fsOpen at h
  split at h
  · cases h
    rfl
  · split_ifs at h
    · cases h
      rfl
    · split at h
      · cases h
      · cases h
        rfl
      · simp only at h
        split_ifs at h <;> cases h <;> rfl

theorem fsClose_image (s : F19FS) (fd : ℤ) : (fsClose s fd).2.image = s.image := by
  unfold fsClose
  split_ifs <;> rfl

theorem fsSeek_image {s s' : F19FS} {fd : ℤ} {offset : Int64} {whence : SeekT} {ret : ℤ}
    (h : fsSeek s fd offset whence = some (ret,s')) : s'.image = s.image := by
  unfold fsSeek at h
  split_ifs at h
  · cases h
    rfl
  · cases h
    rfl
  · cases h
    rfl
  · simp only at h
    split at h
    · cases h
    · cases h
      rfl

theorem fsRead_image {s s' : F19FS} {fd : ℤ} {dstNull : Bool} {nbyte : UInt64} {ret : ℤ} {bytes : List UInt8}
    (h : fsRead s fd dstNull nbyte = some (ret,bytes,s')) : s'.image = s.image := by
  unfold fsRead at h
  split_ifs at h
  · cases h
    rfl
  · cases h
    rfl
  · cases h
    rfl
  · simp only at h
    split at h
    · cases h
    · cases h
      rfl

/-- A safe call keeps the invariant of the image, and changes the system area as it should. -/
theorem step_inv {s s' : F19FS} {c : Call} (hi : ImageInv s.image) (hsafe : Safe s c) (h : step s c = some s') :
    ImageInv s'.image ∧ SysSteps s.image s'.image := by
  obtain ⟨ret,h⟩ := step_call h
  have hsame : s'.image = s.image → ImageInv s'.image ∧ SysSteps s.image s'.image := by
    intro he
    rw [he]
    exact ⟨hi,Relation.ReflTransGen.refl⟩
  cases c with
  | create path type => exact fsCreate_inv hi h
  | openFile path => exact hsame (fsOpen_image h)
  | close fd =>
    apply hsame
    rw [← fsClose_image s fd, Option.some.inj h]
  | read fd dstNull nbyte =>
    obtain ⟨⟨ret',bytes,s''⟩,hr,he⟩ := Option.map_eq_some_iff.mp h
    cases he
    exact hsame (fsRead_image hr)
  | write fd src nbyte => exact fsWrite_inv hi hsafe h
  | seek fd offset whence => exact hsame (fsSeek_image h)
  | remove path =>
    refine fsRemove_inv hi (fun p i hp => ?_) h
    obtain ⟨a,ha,rfl⟩ := mem_pathOf hp
    exact hsafe a ha i
  | move src dst junk =>
    refine fsMove_inv hi (nulFree_pathOf src) (nulFree_pathOf dst) (fun p hp q hq => ?_) h
    · obtain ⟨a,ha,rfl⟩ := mem_pathOf hp
      obtain ⟨b,hb,rfl⟩ := mem_pathOf hq
      exact hsafe a ha b hb
  | link src dst =>
    refine fsLink_inv hi (fun p hp q hq => ?_) (Option.some.inj h)
    obtain ⟨a,ha,rfl⟩ := mem_pathOf hp
    obtain ⟨b,hb,rfl⟩ := mem_pathOf hq
    exact hsafe a ha b hb
  | remount => exact hsame (by cases h; rfl)

theorem Reachable.inv {s : F19FS} (h : Reachable s) : ImageInv s.image :=
  h.invariant fsFormat_inv (fun hi hsafe hs => (step_inv hi hsafe hs).1)

/-- Calls that are seen to be safe: a write to a file that stays below block 518, and the calls on which
`Safe` does not depend. -/
def plain (s : F19FS) : Call → Bool
  | .write fd _ nbyte =>
    decide ((s.inode (s.descriptor fd.toNat).inodeNum.toNat).fileType ≠ typeDirectory ∧
      (s.descriptor fd.toNat).locateOffset.toNat ≤ 1024 ∧ (s.descriptor fd.toNat).locateOrder.toNat +
        ((s.descriptor fd.toNat).locateOffset.toNat + max nbyte.toNat 1 - 1) / 1024 < 518)
  | .remove _ => false
  | .move _ _ _ => false
  | .link _ _ => false
  | _ => true

theorem safe_of_plain (s : F19FS) (c : Call) (h : plain s c = true) : Safe s c := by
  cases c with
  | write fd src nbyte =>
    obtain ⟨hfile,hoff,hlow⟩ := of_decide_eq_true h
    exact writeSafe_of_low hfile hoff hlow
  | remove _ => cases h
  | move _ _ _ => cases h
  | link _ _ => cases h
  | _ => trivial

theorem reachable_of_plain {as : List Call} {s : F19FS} (h : run (checked plain step) fsFormat as = some s) : Reachable s :=
  reach_of_checked_run safe_of_plain h

theorem Reachable.steps {s : F19FS} (h : Reachable s) : SysSteps fsFormat.image s.image := by
  have hboth := h.invariant (P := fun s => ImageInv s.image ∧ SysSteps fsFormat.image s.image)
    ⟨fsFormat_inv,Relation.ReflTransGen.refl⟩ (fun hp hsafe hs =>
      ⟨(step_inv hp.1 hsafe hs).1,hp.2.trans (step_inv hp.1 hsafe hs).2⟩)
  exact hboth.2

end LiteOSFS
