import LiteOSFS.FileSystem.Calls
import LiteOSFS.FileSystem.Frame
import LiteOSFS.FileSystem.WriteAccount

/-! # Blocks marked used are held

`Covered m`: every data block that is marked used is held by a directory or a regular
file in use. A call that marks a block must store its number, and one that drops a
number must release the block.
-/
namespace LiteOSFS
open Memory CString Ownership

def InUse (m : Mem) (i : ℕ) : Prop :=
  inodeUsed m i = true ∧ ((inodeAt m i).fileType = typeDirectory ∨ (inodeAt m i).fileType = typeRegular)

def Covered (m : Mem) : Prop :=
  ∀ b, DataId b → used m b = true → ∃ q : Place, InUse m q.1 ∧ held m (tableOf m) q = b

section Covered
variable {m m' : Mem} {i k b c : ℕ}

theorem InUse.congr (h : InUse m i) (hu : inodeUsed m i = true → inodeUsed m' i = true)
    (ht : (inodeAt m' i).fileType = (inodeAt m i).fileType) : InUse m' i :=
  ⟨hu h.1,by rw [ht]; exact h.2⟩

theorem Covered.step (h : Covered m)
    (hnew : ∀ b, DataId b → used m' b = true → used m b = true ∨ ∃ q : Place, InUse m' q.1 ∧ held m' (tableOf m') q = b)
    (hkeep : ∀ q : Place, InUse m q.1 → held m (tableOf m) q ≠ 0 → used m' (held m (tableOf m) q) = true →
      InUse m' q.1 ∧ held m' (tableOf m') q = held m (tableOf m) q) : Covered m' := by
  intro b hb hu
  rcases hnew b hb hu with hu₀ | hq
  · obtain ⟨q,hq,rfl⟩ := h b hb hu₀
    exact ⟨q,hkeep q hq hb.ne_zero hu⟩
  · exact hq

/-- No mark is set and every place keeps its number. -/
theorem Covered.congr (h : Covered m) (hu : ∀ b, DataId b → used m' b = true → used m b = true)
    (hi : ∀ i < 256, InUse m i → InUse m' i) (hh : ∀ q, held m' (tableOf m') q = held m (tableOf m) q) : Covered m' :=
  h.step (fun b hb hub => Or.inl (hu b hb hub)) (fun q hq _ _ => ⟨hi q.1 q.1.isLt hq,hh q⟩)

theorem Covered.setInodeUsed (h : Covered m) (hs : Sound m (tableOf m)) (hc : c < 256) : Covered (setInodeUsed m c) := by
  have ht : tableOf (LiteOSFS.setInodeUsed m c) = tableOf m := tableOf_congr (fun _ _ => inodeAt_setInodeUsed hc)
  refine h.congr (fun b hb hu => ?_) (fun j hj hu => hu.congr (fun hu => ?_) ?_) (fun q => ?_)
  · have hlt := hb.2
    rwa [used_setInodeUsed hc (by omega)] at hu
  · rw [inodeUsed_setInodeUsed, hu, Bool.or_true]
  · rw [inodeAt_setInodeUsed hc]
  · rw [ht]
    exact (held_congr (fun q _ _ _ hq => (blockAt_setInodeUsed hc (hs.own.dataId hq)).symm) q).symm

/-- A block that is no index block is written. -/
theorem Covered.putBlock (h : Covered m) {id : ℕ} {data : Mem} (hid : DataId id)
    (hq : ∀ (q : Place) (n : Node) (j : ℕ), n.parent = some (q.2,j) → held m (tableOf m) q ≠ 0 →
      held m (tableOf m) q ≠ id) : Covered (putBlock m id data) := by
  have ht : tableOf (LiteOSFS.putBlock m id data) = tableOf m := tableOf_congr (fun _ hj => inodeAt_putBlock hid hj)
  refine h.congr (fun b hb hu => ?_) (fun j hj hu => hu.congr (fun hu => ?_) ?_) (fun q => ?_)
  · have hlt := hb.2
    rwa [used_putBlock hid (by omega)] at hu
  · rwa [inodeUsed_putBlock hid hj]
  · rw [inodeAt_putBlock hid hj]
  · rw [ht, held_putBlock hq]

theorem Covered.putDirBlock (h : Covered m) (hi : ImageInv m) {d : ℕ} (hd : d < 256) (hne : (inodeAt m d).dirBlock ≠ 0)
    (data : Mem) : Covered (LiteOSFS.putBlock m (inodeAt m d).dirBlock data) := by
  obtain ⟨hid,_,hh⟩ := hi.dirBlock_dataId hd hne
  refine h.putBlock hid (fun q n j hp hq => ?_)
  rw [← hh]
  exact not_index_of_data hi.sound.own rfl n j hp hq

/-- A record is replaced by one of the same type with the same blocks. -/
theorem Covered.putInode (h : Covered m) (hi : ImageInv m) (hd : i < 256) {x : Inode}
    (htype : x.fileType = (inodeAt m i).fileType) (howns : ∀ n, owns m x n = owns m (inodeAt m i) n) :
    Covered (putInode m i x) := by
  have hheld : ∀ q, held m (Function.update (tableOf m) ⟨i,hd⟩ x) q = held m (tableOf m) q := by
    rintro ⟨j,n⟩
    by_cases hj : j = ⟨i,hd⟩
    · subst hj
      rw [held_update_same, howns]
      rfl
    · exact held_update_of_ne hj
  refine h.congr (fun b hb hu => ?_) (fun j hj hu => hu.congr (fun hu => ?_) ?_) (fun q => ?_)
  · have hlt := hb.2
    rwa [used_putInode hd (by omega)] at hu
  · rwa [inodeUsed_putInode hj]
  · rw [inodeAt_putInode]
    split_ifs with hij
    · rw [htype, hij]
    · rfl
  · have hown := hi.sound.own.congr hheld
    rw [tableOf_putInode hd, ← hheld]
    exact (held_congr (fun q _ _ _ hq => (blockAt_putInode hd (hown.holds q hq).1).symm) q).symm

/-- Only the block of a directory is held by it. -/
theorem held_directory {q : Place} (hdir : (inodeAt m q.1).fileType = typeDirectory) (hne : held m (tableOf m) q ≠ 0) :
    q.2 = .data 0 := by
  by_contra hn
  exact hne (owns_of_directory hdir hn)

/-- `fs_create` leaves no block behind, when it does not give its directory another block. -/
theorem Created.covered {p : ℕ} {name : CStr} {type : FileT} (h : Created m p name type m' k b c)
    (hi : ImageInv m) (hi' : ImageInv m') (hp : p < 256) (hdir : (inodeAt m p).fileType = typeDirectory)
    (hfirst : k = 0 → (inodeAt m p).dirBlock = 0) (hc : Covered m) : Covered m' := by
  have hdir' : (inodeAt m' p).fileType = typeDirectory := by
    rw [h.parent]
    exact hdir
  have hpar : held m' (tableOf m') (⟨p,hp⟩,.data 0) = b := by
    have hlt := h.block.1.2
    have hblk : (inodeAt m' p).dirBlock = b := by rw [h.parent, Inode.dirBlock_withEntry _ (by omega)]
    rw [← hblk]
    exact owns_data_zero
  refine hc.step (fun x hx hu => ?_) (fun q hq hne _ => ?_)
  · have hlt := hx.2
    rw [h.marks x (by omega), Bool.or_eq_true, decide_eq_true_eq] at hu
    rcases hu with he | hu
    · exact Or.inr ⟨(⟨p,hp⟩,.data 0),⟨(hi'.record p hp).marked hdir',Or.inl hdir'⟩,hpar.trans he⟩
    · exact Or.inl hu
  · have hlt := q.1.isLt
    have hcq : c ≠ q.1.val := by
      intro he
      have hfree := h.inodeFree
      rw [he, hq.1] at hfree
      cases hfree
    have hbit : inodeUsed m q.1 = true → inodeUsed m' q.1 = true := fun hu => by rw [h.bits _ hlt, hu, Bool.or_true]
    by_cases hpq : p = q.1.val
    · obtain ⟨i,n⟩ := q
      obtain rfl : i = ⟨p,hp⟩ := Fin.ext hpq.symm
      obtain rfl : n = .data 0 := held_directory (q := (⟨p,hp⟩,n)) hdir hne
      have hblk : held m (tableOf m) (⟨p,hp⟩,.data 0) = (inodeAt m p).dirBlock := owns_data_zero
      refine ⟨hq.congr hbit (hdir'.trans hdir.symm),?_⟩
      rw [hpar]
      rw [hblk] at hne ⊢
      rcases h.block.2 with ⟨h0,_⟩ | ⟨_,hb⟩
      · exact absurd (hfirst h0) hne
      · exact hb
    · have hsame := h.sameInode hi hp hlt hpq hcq
      exact ⟨hq.congr hbit (by rw [hsame.record]),hsame.owns_eq q.2⟩

/-- `fs_write` through a descriptor of an inode in use. -/
theorem fsWrite_covered {s s' : F19FS} {fd : ℤ} {src : Option Mem} {nbyte : UInt64} {ret : ℤ} (hi : ImageInv s.image)
    (hsafe : WriteSafe s fd nbyte) (hused : s.Opened fd → InUse s.image (s.fileOf fd))
    (h : fsWrite s fd src nbyte = some (ret,s')) (hc : Covered s.image) : Covered s'.image := by
  rcases fsWrite_account hi hsafe h with rfl | ⟨ho,hfile,m',x',size,hext,hacc,him⟩
  · exact hc
  have hlt := (s.fileOf fd).isLt
  have htype : x'.fileType ≠ typeDirectory := by
    rw [attributes_fileType hext.attrs]
    exact hfile
  have hbits : ∀ j < 256, InUse s.image j → InUse s'.image j := by
    intro j hj hu
    refine hu.congr (fun hu => by rwa [him, inodeUsed_putInode hj, hext.inodeBits j hj]) ?_
    rw [him, inodeAt_putInode, hext.inodes j hj]
    split_ifs with he
    · subst he
      show x'.fileType = _
      exact attributes_fileType hext.attrs
    · rfl
  have hid : ∀ n, nodePtr m' x' n ≠ 0 → DataId (nodePtr m' x' n) := by
    intro n hn
    have hown : held m' (Function.update (tableOf s.image) (s.fileOf fd) x') (s.fileOf fd,n) = nodePtr m' x' n := by
      rw [held_update_same, owns_of_file htype]
    rw [← hown] at hn ⊢
    exact hext.sound.own.dataId hn
  have hfileHeld : ∀ n, held s'.image (tableOf s'.image) (s.fileOf fd,n) = nodePtr m' x' n := by
    intro n
    have hrec : tableOf s'.image (s.fileOf fd) = { x' with fileSize := size } := by
      rw [tableOf, him, inodeAt_putInode, if_pos rfl]
    have hown : owns s'.image { x' with fileSize := size } n = nodePtr s'.image { x' with fileSize := size } n :=
      owns_of_file htype
    rw [held, hrec, hown, him, nodePtr_putInode hlt hid]
  refine hc.step (fun b hb hu => ?_) (fun q hq hne _ => ?_)
  · have hb2 := hb.2
    rw [him, used_putInode hlt (by omega)] at hu
    rcases hacc.marks b hb hu with hu | ⟨n,hn⟩
    · exact Or.inl hu
    · exact Or.inr ⟨(s.fileOf fd,n),hbits _ hlt (hused ho),by rw [hfileHeld, hn]⟩
  · obtain ⟨j,n⟩ := q
    refine ⟨hbits j j.isLt hq,?_⟩
    by_cases hj : j = s.fileOf fd
    · subst hj
      have hold : held s.image (tableOf s.image) (s.fileOf fd,n) = nodePtr s.image (tableOf s.image (s.fileOf fd)) n :=
        owns_of_file hfile
      rw [hold] at hne ⊢
      rw [hfileHeld, hext.nodePtr_eq hfile hne]
    · have hsame := hext.sameInode hi j.isLt (fun he => hj (Fin.ext he).symm) { x' with fileSize := size }
      rw [← him] at hsame
      exact hsame.owns_eq n

/-- Two directories with the same block hold the same. -/
theorem owns_directory_congr {x y : Inode} (hx : x.fileType = typeDirectory) (hy : y.fileType = typeDirectory)
    (hb : x.dirBlock = y.dirBlock) (n : Node) : owns m x n = owns m y n := by
  by_cases hn : n = .data 0
  · rw [hn, owns_data_zero, owns_data_zero]
    exact hb
  · rw [owns_of_directory hx hn, owns_of_directory hy hn]

/-- An entry of a directory is rewritten in its block and its record. -/
theorem Covered.putEntry (h : Covered m) (hi : ImageInv m) {d : ℕ} (hd : d < 256)
    (hdir : (inodeAt m d).fileType = typeDirectory) (hne : (inodeAt m d).dirBlock ≠ 0) (data : Mem) {x : Inode}
    (htype : x.fileType = (inodeAt m d).fileType) (hblock : x.dirBlock = (inodeAt m d).dirBlock) :
    Covered (LiteOSFS.putInode (LiteOSFS.putBlock m (inodeAt m d).dirBlock data) d x) := by
  have hat : inodeAt (LiteOSFS.putBlock m (inodeAt m d).dirBlock data) d = inodeAt m d :=
    inodeAt_putBlock (hi.dirBlock_dataId hd hne).1 hd
  refine (h.putDirBlock hi hd hne data).putInode (putDirBlock_inv hi hd hne data).1 hd ?_ (fun n => ?_)
  · rw [hat, htype]
  · rw [hat]
    exact owns_directory_congr (htype.trans hdir) hdir hblock n

/-- An inode whose blocks were given back is cleared and its mark taken away. -/
theorem Released.covered {m₁ : Mem} (hr : Released m i m₁) (hi : ImageInv m) (hlt : i < 256) (h : Covered m) :
    Covered (freeInode (LiteOSFS.putInode m₁ i Inode.cleared) i) := by
  have hbits : ∀ j < 256, i ≠ j → inodeUsed (freeInode (LiteOSFS.putInode m₁ i Inode.cleared) i) j = inodeUsed m j := by
    intro j hj hij
    rw [inodeUsed_freeInode, decide_eq_false hij, Bool.not_false, Bool.true_and, inodeUsed_putInode hj, hr.inodeBits j hj]
  have hmarks : ∀ b, DataId b → used (freeInode (LiteOSFS.putInode m₁ i Inode.cleared) i) b = used m₁ b := by
    intro b hb
    have hb2 := hb.2
    rw [used_freeInode hlt (by omega), used_putInode hlt (by omega)]
  have hblocks : ∀ b, DataId b → blockAt (freeInode (LiteOSFS.putInode m₁ i Inode.cleared) i) b = blockAt m₁ b := by
    intro b hb
    rw [blockAt_freeInode hlt hb, blockAt_putInode hlt hb]
  intro b hb hu
  rw [hmarks b hb] at hu
  obtain ⟨hu, hout⟩ := hr.gone b hb hu
  obtain ⟨q,hq,hqb⟩ := h b hb hu
  have hiq : i ≠ q.1.val := by
    intro he
    rw [← he] at hq
    refine hout hq.2 q.2 (Eq.trans ?_ hqb)
    rw [he]
    rfl
  have hsame : SameInode m (freeInode (LiteOSFS.putInode m₁ i Inode.cleared) i) q.1 := by
    refine hi.sameInode q.1.isLt (hr.inodeAt_freed hlt q.1.isLt hiq) (S := fun x => ∃ n, owns m (inodeAt m i) n = x)
      (fun x hx hn => ?_) (fun n hn he => ?_)
    · rw [hblocks x hx, hr.blocks x hx (fun n he => hn ⟨n,he⟩)]
    · obtain ⟨l,hl⟩ := he
      have hpl := hi.sound.own.inj (q.1,n) (⟨i,hlt⟩,l) hn hl.symm
      exact hiq (congrArg (fun p : Place => p.1.val) hpl).symm
  refine ⟨q,hq.congr (fun hu => by rwa [hbits _ q.1.isLt hiq]) (by rw [hr.inodeAt_freed hlt q.1.isLt hiq]),?_⟩
  exact (hsame.owns_eq q.2).trans hqb

/-- `fs_remove` leaves no block behind. -/
theorem fsRemove_covered {s s' : F19FS} {path : Option CStr} {ret : ℤ} (hi : ImageInv s.image)
    (hblock : ∀ p i, path = some p → removeTarget s.image p = some i → (inodeAt s.image i).fileType ≠ typeRegular →
      isDirectoryEmpty (inodeAt s.image i) = true → (inodeAt s.image i).dirBlock ≠ 0)
    (h : fsRemove s path = some (ret,s')) (hc : Covered s.image) : Covered s'.image := by
  rcases fsRemove_cases h with ⟨_,rfl⟩ | ⟨p,rfl,hp,hid,ht,hr,_⟩
  · exact hc
  obtain ⟨hd,hdir⟩ := parentOf_spec hi hp
  have hf := getFileInodeID_lt s.image (parentOf s.image p) (basename p)
  rcases removeIn_cases hi hd hid (hblock p _ rfl ht) hr with ⟨_,he⟩ | ⟨_,_,_,he⟩ | ⟨m₁,k,_,_,hempty,hrel,hk,he⟩
  · rwa [he]
  · rw [he]
    exact hc.putInode hi hf rfl owns_links
  · obtain ⟨hk31,hlive,_⟩ := firstEntry_some hk
    have hne := (hi.record _ hd).block hdir k hk31 hlive
    have hdf := parent_ne_target hdir hk31 hlive hempty
    have hat := hrel.inodeAt_freed hf hd hdf.symm
    have h₁ := hrel.freed_inv hi hf hid
    have h₂ := (hrel.covered hi hf hc).putEntry h₁ hd (by rwa [hat]) (by rwa [hat])
      (clearEntry (blockAt s.image (inodeAt s.image (parentOf s.image p)).dirBlock) k)
      (x := (inodeAt s.image (parentOf s.image p)).unmarkEntry k) (by rw [hat]; rfl) (by rw [hat]; rfl)
    rw [hat] at h₂
    rw [he]
    exact h₂

/-- The two inode records of `fs_link` and the block of the directory. -/
theorem linked_covered (hi : ImageInv m) {srcFileID dstParentID : ℕ} {dstName : CStr} (hs : srcFileID < 256)
    (hd : dstParentID < 256) (hdir : (inodeAt m dstParentID).fileType = typeDirectory)
    (hdb : (inodeAt m dstParentID).dirBlock ≠ 0) (hc : Covered m) :
    Covered (linked m srcFileID dstParentID dstName) := by
  obtain ⟨links,hl⟩ : ∃ links, links = if srcFileID = dstParentID then (inodeAt m srcFileID).linkCount + 1 + 1
    else (inodeAt m srcFileID).linkCount + 1 := ⟨_,rfl⟩
  have hi₁ := hi.putLinks hs links
  have h₁ := hc.putInode hi hs (x := { inodeAt m srcFileID with linkCount := links }) rfl owns_links
  have hold : (inodeAt (LiteOSFS.putInode m srcFileID { inodeAt m srcFileID with linkCount := links })
        dstParentID).fileType = typeDirectory ∧
      (inodeAt (LiteOSFS.putInode m srcFileID { inodeAt m srcFileID with linkCount := links })
        dstParentID).dirBlock = (inodeAt m dstParentID).dirBlock := by
    rw [inodeAt_putInode]
    split_ifs with he
    · subst he
      exact ⟨(Inode.links_fileType _ _).trans hdir,Inode.links_dirBlock _ _⟩
    · exact ⟨hdir,rfl⟩
  have hmark : ((inodeAt m dstParentID).markEntry (inodeAt m dstParentID).firstVacant).fileType = typeDirectory := hdir
  have hi₂ := hi₁.putDirectory hd hold.1 hmark ((hi.record dstParentID hd).self hdir) hold.2.symm (by rwa [hold.2])
  have h₂ := h₁.putInode hi₁ hd (hmark.trans hold.1.symm) (owns_directory_congr hmark hold.1 hold.2.symm)
  have hat : (inodeAt (LiteOSFS.putInode (LiteOSFS.putInode m srcFileID { inodeAt m srcFileID with linkCount := links })
      dstParentID ((inodeAt m dstParentID).markEntry (inodeAt m dstParentID).firstVacant)) dstParentID).dirBlock =
      (inodeAt m dstParentID).dirBlock := by
    rw [inodeAt_putInode, if_pos rfl]
    rfl
  have h₃ := h₂.putDirBlock hi₂ hd (by rwa [hat]) (strncpy (setEntryInode (blockAt m
    (inodeAt m dstParentID).dirBlock) (inodeAt m dstParentID).firstVacant srcFileID)
    (33 * (inodeAt m dstParentID).firstVacant) dstName 32)
  rw [hat] at h₃
  rw [linked, ← hl]
  exact h₃

theorem fsLink_covered {s s' : F19FS} {src dst : Option CStr} {ret : ℤ} (hi : ImageInv s.image)
    (hsafe : ∀ p ∈ src, ∀ q ∈ dst, LinkSafe s.image p q) (h : fsLink s src dst = (ret,s')) (hc : Covered s.image) :
    Covered s'.image := by
  cases src with
  | none =>
    cases h
    exact hc
  | some p =>
    cases dst with
    | none =>
      cases h
      exact hc
    | some q =>
      obtain ⟨r,m',hr⟩ : ∃ r m', fsLinkImage s.image p q = (r,m') := ⟨_,_,rfl⟩
      simp only [fsLink, hr] at h
      cases h
      rcases fsLinkImage_cases hi hr with ⟨_,rfl⟩ | ⟨_,hchk,rfl⟩
      · exact hc
      · obtain ⟨hs,_⟩ := parentOf_spec hi hchk.srcParent
        obtain ⟨hd,hdir⟩ := parentOf_spec hi hchk.dstParent
        exact linked_covered hi (getFileInodeID_lt _ _ _) hd hdir (hsafe p rfl q rfl hchk) hc

theorem moved_covered (hi : ImageInv m) {srcParentID dstFileID : ℕ} (location srcFileID : ℕ) {name : CStr}
    (hs : srcParentID < 256) (hdir : (inodeAt m srcParentID).fileType = typeDirectory) (hd : dstFileID < 256)
    (hdb : (inodeAt m dstFileID).dirBlock ≠ 0) (hsd : srcParentID ≠ dstFileID)
    (hk : getFileIndexInDir (inodeAt m srcParentID) (blockAt m (inodeAt m srcParentID).dirBlock) name = some k)
    (hc : Covered m) : Covered (moved m srcParentID k (inodeAt m dstFileID).dirBlock location srcFileID name) := by
  obtain ⟨hk31,hlive,_⟩ := firstEntry_some hk
  have hsb := (hi.record _ hs).block hdir k hk31 hlive
  have hi₁ := (putEntry_inv hi hs hdir hsb (clearEntry (blockAt m (inodeAt m srcParentID).dirBlock) k)
    (x := (inodeAt m srcParentID).unmarkEntry k) rfl rfl rfl).1
  have h₁ := hc.putEntry hi hs hdir hsb (clearEntry (blockAt m (inodeAt m srcParentID).dirBlock) k)
    (x := (inodeAt m srcParentID).unmarkEntry k) rfl rfl
  have hat : inodeAt (LiteOSFS.putInode (LiteOSFS.putBlock m (inodeAt m srcParentID).dirBlock
      (clearEntry (blockAt m (inodeAt m srcParentID).dirBlock) k)) srcParentID
      ((inodeAt m srcParentID).unmarkEntry k)) dstFileID = inodeAt m dstFileID := by
    rw [inodeAt_putInode, if_neg hsd, inodeAt_putBlock (hi.dirBlock_dataId hs hsb).1 hd]
  have h₂ := h₁.putDirBlock hi₁ hd (by rwa [hat])
  rw [hat] at h₂
  exact h₂ _

/-- A free inode that becomes a directory holds the block that is taken for it. -/
theorem newDirectory_covered (hi : ImageInv m) (hlt : c < 256) (hfree : inodeUsed m c = false) (hb : DataId b)
    (hbfree : used m b = false) (junk : Inode) (h : Covered m) :
    Covered (LiteOSFS.putInode (LiteOSFS.putBlock (setUsed (LiteOSFS.setInodeUsed m c) b) b zeros) c
      (newInode .directory junk c b)) := by
  obtain ⟨m',hm'⟩ : ∃ m', m' = LiteOSFS.putInode (LiteOSFS.putBlock (setUsed (LiteOSFS.setInodeUsed m c) b) b zeros) c
    (newInode .directory junk c b) := ⟨_,rfl⟩
  have hb2 := hb.2
  have hino : ∀ j < 256, inodeAt m' j = if c = j then newInode .directory junk c b else inodeAt m j := by
    intro j hj
    rw [hm', inodeAt_putInode, inodeAt_putBlock hb hj, inodeAt_setUsed hj, inodeAt_setInodeUsed hlt]
  have hbits : ∀ j < 256, inodeUsed m' j = (decide (c = j) || inodeUsed m j) := by
    intro j hj
    rw [hm', inodeUsed_putInode hj, inodeUsed_putBlock hb hj, inodeUsed_setUsed hj, inodeUsed_setInodeUsed]
  have hmarks : ∀ x, DataId x → used m' x = (decide (b = x) || used m x) := by
    intro x hx
    have hx2 := hx.2
    rw [hm', used_putInode hlt (by omega), used_putBlock hb (by omega), used_setUsed, used_setInodeUsed hlt (by omega)]
  have hblocks : ∀ x, DataId x → b ≠ x → blockAt m' x = blockAt m x := by
    intro x hx hbx
    rw [hm', blockAt_putInode hlt hx, blockAt_putBlock, if_neg hbx, blockAt_setUsed hx, blockAt_setInodeUsed hlt hx]
  rw [← hm']
  refine h.step (fun x hx hu => ?_) (fun q hq _ _ => ?_)
  · rw [hmarks x hx, Bool.or_eq_true, decide_eq_true_eq] at hu
    rcases hu with rfl | hu
    · refine Or.inr ⟨(⟨c,hlt⟩,.data 0),⟨?_,Or.inl ?_⟩,?_⟩
      · rw [hbits c hlt, decide_eq_true rfl, Bool.true_or]
      · rw [hino c hlt, if_pos rfl]
        exact newInode_fileType junk c b
      · have hrec : inodeAt m' c = newInode .directory junk c b := by rw [hino c hlt, if_pos rfl]
        have hh : held m' (tableOf m') (⟨c,hlt⟩,.data 0) = (inodeAt m' c).dirBlock := owns_data_zero
        rw [hh, hrec, newInode_dirBlock (by omega)]
    · exact Or.inl hu
  · have hcq : c ≠ q.1.val := by
      intro he
      rw [← he] at hq
      rw [hq.1] at hfree
      cases hfree
    have hrec : inodeAt m' q.1 = inodeAt m q.1 := by rw [hino _ q.1.isLt, if_neg hcq]
    have hsame : SameInode m m' q.1 :=
      hi.sameInode q.1.isLt hrec (S := (b = ·)) hblocks
        (fun n hn he => hi.sound.own.fresh hb.ne_zero hbfree (q.1,n) he.symm)
    exact ⟨hq.congr (fun hu => by rw [hbits _ q.1.isLt, hu, Bool.or_true]) (by rw [hrec]),hsame.owns_eq q.2⟩

theorem withDirectory_covered (hi : ImageInv m) {parentID : ℕ} (hp : parentID < 256)
    (hdir : (inodeAt m parentID).fileType = typeDirectory) (hpb : (inodeAt m parentID).dirBlock ≠ 0)
    (hif : firstFreeInode m ≠ sizeMax) (hf : firstFree m ≠ sizeMax) (name : CStr) (junk : Inode) (hc : Covered m) :
    Covered (withDirectory m parentID (firstFreeInode m) (firstFree m) name junk) := by
  obtain ⟨hlt,hfree,_⟩ := firstFreeInode_spec hif
  obtain ⟨hb,hbfree,_⟩ := firstFree_spec hi.sound.sys hf
  have hb2 := hb.2
  have hpc : firstFreeInode m ≠ parentID := by
    intro he
    rw [he, (hi.record parentID hp).marked hdir] at hfree
    cases hfree
  have hc0 : firstFreeInode m ≠ 0 := by
    intro he
    rw [he, (hi.record 0 (by omega)).marked hi.root] at hfree
    cases hfree
  generalize firstFreeInode m = c at *
  generalize firstFree m = b at *
  have hi₁ := newDirectory_inv (hi.setInodeUsed hlt) hlt hc0 (by rw [inodeUsed_setInodeUsed, decide_eq_true rfl]; rfl) hb
    (by rwa [used_setInodeUsed hlt (by omega)]) junk
  have h₁ := newDirectory_covered hi hlt hfree hb hbfree junk hc
  have hat : inodeAt (LiteOSFS.putInode (LiteOSFS.putBlock (setUsed (LiteOSFS.setInodeUsed m c) b) b zeros) c
      (newInode .directory junk c b)) parentID = inodeAt m parentID := by
    rw [inodeAt_putInode, if_neg hpc, inodeAt_putBlock hb hp, inodeAt_setUsed hp, inodeAt_setInodeUsed hlt]
  have hmark : ((inodeAt m parentID).markEntry (inodeAt m parentID).firstVacant).fileType = typeDirectory := hdir
  have hi₂ := hi₁.putDirectory hp (by rwa [hat]) hmark ((hi.record parentID hp).self hdir) (by rw [hat]; rfl) (by rwa [hat])
  have h₂ := h₁.putInode hi₁ hp (hmark.trans (by rw [hat, hdir]))
    (owns_directory_congr hmark (by rwa [hat]) (by rw [hat]; rfl))
  have hat₂ : (inodeAt (LiteOSFS.putInode (LiteOSFS.putInode (LiteOSFS.putBlock (setUsed (LiteOSFS.setInodeUsed m c) b) b
      zeros) c (newInode .directory junk c b)) parentID ((inodeAt m parentID).markEntry (inodeAt m parentID).firstVacant))
      parentID).dirBlock = (inodeAt m parentID).dirBlock := by
    rw [inodeAt_putInode, if_pos rfl]
    rfl
  have h₃ := h₂.putDirBlock hi₂ hp (by rwa [hat₂])
  rw [hat₂] at h₃
  exact h₃ _

/-- `fs_move` leaves no block behind, unless it takes one for a directory for which there is no inode. -/
theorem MoveResult.covered {src dst : CStr} {junk : Inode} {ret : ℤ} (hi : ImageInv m) (hchk : MoveChecked m src dst)
    (hr : MoveResult m src dst junk ret m') (hinode : checkFileExist m (parentOf m dst) (basename dst) = false →
      (inodeAt m (parentOf m dst)).entryCount ≠ 31 → firstFreeInode m = sizeMax → firstFree m = sizeMax)
    (hc : Covered m) : Covered m' := by
  obtain ⟨hs,hsdir⟩ := parentOf_spec hi hchk.srcParent
  obtain ⟨hd,hddir⟩ := parentOf_spec hi hchk.dstParent
  cases hr with
  | stop => exact hc
  | inodeTaken _ _ _ _ hif => exact hc.setInodeUsed hi.sound (firstFreeInode_spec hif).1
  | blockTaken _ hex hroom hif hf => exact absurd (hinode hex hroom hif) hf
  | moved _ he hne hdb _ hk =>
    subst he
    exact moved_covered hi _ _ hs hsdir (getFileInodeID_lt _ _ _) hdb hne hk hc
  | @made m₁ c k _ hpb _ hif hf hcid hm₁ hne _ hk =>
    obtain ⟨hlt,_⟩ := firstFreeInode_spec hif
    subst hcid
    have hi₁ := (withDirectory_inv hi hd hddir hpb hif hf (basename dst) junk).1
    have h₁ := withDirectory_covered hi hd hddir hpb hif hf (basename dst) junk hc
    rw [← hm₁] at hi₁ h₁
    exact moved_covered hi₁ _ _ hs (made_srcParent hi hd hddir hs hsdir hif hf hne hm₁) hlt
      (made_dirBlock hi hd hddir hif hf hm₁) hne hk h₁

theorem fsMove_covered {s s' : F19FS} {src dst : Option CStr} {junk : Inode} {ret : ℤ} (hi : ImageInv s.image)
    (hsnul : ∀ p ∈ src, 0 ∉ p) (hnul : ∀ p ∈ dst, 0 ∉ p) (hsafe : ∀ p ∈ src, ∀ q ∈ dst, MoveSafe s.image p q)
    (hinode : ∀ p ∈ src, ∀ q ∈ dst, MoveChecked s.image p q →
      checkFileExist s.image (parentOf s.image q) (basename q) = false →
      (inodeAt s.image (parentOf s.image q)).entryCount ≠ 31 → firstFreeInode s.image = sizeMax →
      firstFree s.image = sizeMax)
    (h : fsMove s src dst junk = some (ret,s')) (hc : Covered s.image) : Covered s'.image := by
  rcases (fsMove_result hi hsnul hnul hsafe h).2 with ⟨_,he⟩ | ⟨p,q,hp,hq,hchk,hr⟩
  · rwa [he]
  · exact hr.covered hi hchk (hinode p hp q hq hchk) hc

end Covered

section Format

theorem used_blockStoreCreate {b : ℕ} (hb : b < 65528) : used blockStoreCreate b = false := by
  rw [used, bitmapTest_eq, blockStoreCreate, if_neg (by simp only [wholeStore]; omega)]
  exact Nat.zero_testBit _

/-- The first `n` blocks are those that `n` allocations take. -/
theorem used_allocateTimes {n b : ℕ} (hn : n ≤ 65528) (hb : b < 65528) :
    used (allocateTimes blockStoreCreate wholeStore n) b = decide (b < n) := by
  induction n generalizing b with
  | zero => rw [allocateTimes, used_blockStoreCreate hb, decide_eq_false (Nat.not_lt_zero b)]
  | succ n ih =>
    have hih : ∀ b < 65528, used (allocateTimes blockStoreCreate wholeStore n) b = decide (b < n) :=
      fun b hb => ih (by omega) hb
    rw [allocateTimes]
    generalize allocateTimes blockStoreCreate wholeStore n = m at hih ⊢
    have hfirst : firstFree m = n := by
      rcases bitmapFfz_spec m wholeStore.fbm with ⟨_,hall⟩ | ⟨hlt,hf,hall⟩
      · have hu : used m n = true := hall n (show n < 65528 by omega)
        rw [hih n (by omega), decide_eq_true_eq] at hu
        omega
      · have hu : used m (firstFree m) = false := hf
        rw [hih (firstFree m) hlt, decide_eq_false_iff_not] at hu
        by_contra hne
        have hn' : used m n = true := hall n (show n < firstFree m by omega)
        rw [hih n (by omega), decide_eq_true_eq] at hn'
        omega
    rw [blockStoreAllocate_whole, hfirst, if_neg (show n ≠ sizeMax by unfold sizeMax; omega)]
    simp only [used_setUsed, hih b hb]
    rw [← Bool.decide_or, decide_eq_decide]
    omega

theorem used_fsFormat {b : ℕ} (hb : DataId b) : used fsFormat.image b = false := by
  have hlt := hb.2
  have hle := hb.1
  have halloc : used (allocateTimes blockStoreCreate wholeStore 17) b = false := by
    rw [used_allocateTimes (by omega) hlt]
    exact decide_eq_false (by omega)
  rw [fsFormat]
  generalize allocateTimes blockStoreCreate wholeStore 17 = m at halloc ⊢
  simp only [blockStoreInodeWrite_table (show 0 < 256 by omega), blockStoreSubAllocate, blockStoreAllocate_inode,
    used_putInode (show 0 < 256 by omega) (show b < 65536 by omega)]
  split_ifs with hf
  · exact halloc
  · rw [used_setInodeUsed (firstFreeInode_spec hf).1 (by omega), halloc]

theorem covered_fsFormat : Covered fsFormat.image := by
  intro b hb hu
  rw [used_fsFormat hb] at hu
  cases hu

end Format

end LiteOSFS
