import LiteOSFS.Properties.RemoveExact

/-! # What fs_move keeps

`fs_move` takes out the entry of the source and writes another one to the block of the
inode at the destination, without marking its slot. The file is still there when the
destination is, or has, another link to it.
-/
namespace LiteOSFS
open Memory CString Ownership EntryGraph Transition

/-- An inode with its contents: the bytes of a file up to its size, the entries of a directory. -/
structure FileKept (m m' : Mem) (i : ℕ) : Prop where
  fileType : (inodeAt m' i).fileType = (inodeAt m i).fileType
  fileSize : (inodeAt m' i).fileSize = (inodeAt m i).fileSize
  linkCount : (inodeAt m' i).linkCount = (inodeAt m i).linkCount
  bytes : (inodeAt m i).fileType ≠ typeDirectory → ∀ o < (inodeAt m i).fileSize.toNat,
    fileByte m' (inodeAt m' i) o = fileByte m (inodeAt m i) o
  entries : ∀ j, entryAt m' i j = entryAt m i j

/-- The source is gone, its inode is found at the destination or in it and is as it was, and so are the descriptors
and what the paths that do not begin with the source lead to. -/
structure MoveKeeps (s s' : F19FS) (src dst : CStr) : Prop where
  gone : resolve s'.image (strtok slash src) = none
  there : ∃ i, resolve s.image (strtok slash src) = some i ∧
    (resolve s'.image (strtok slash dst) = some i ∨ resolve s'.image (strtok slash dst ++ [basename src]) = some i) ∧
    FileKept s.image s'.image i
  descriptors : s'.fdTable = s.fdTable
  others : ∀ names i, ¬ strtok slash src <+: names → resolve s.image names = some i → resolve s'.image names = some i

/-- The entry that `fs_move` writes to the first block of inode `t`. -/
def movedEntry (m : Mem) (t i : ℕ) (name : CStr) : Mem :=
  strncpy (setEntryInode (blockAt m (inodeAt m t).dirBlock) (inodeAt m t).firstVacant i) (33 * (inodeAt m t).firstVacant)
    name name.length

/-- If the inode is no directory, the entry is what its bytes are already. -/
def BytesStay (m : Mem) (t : ℕ) (data : Mem) : Prop := (inodeAt m t).fileType ≠ typeDirectory →
  ∀ o < (inodeAt m t).fileSize.toNat, o < 1024 → data o = blockAt m (inodeAt m t).dirBlock o

/-- The destination exists under another name than the source's, and is another link to its inode or a directory that
has one under that name; the source's is the first name with that beginning in its parent, which is another inode and
which no other path leads to. -/
structure MoveSound (m : Mem) (src dst : CStr) (i t : ℕ) : Prop where
  found : checkFileExist m (parentOf m dst) (basename dst) = true
  apart : ¬ (parentOf m dst = parentOf m src ∧ basename dst = basename src)
  first : FirstOfName m (parentOf m src) (basename src) i
  single : ∀ names, resolve m names = some (parentOf m src) →
    names = strtok slash (dirname src) ∨ strtok slash src <+: names
  outside : i ≠ parentOf m src
  lands : i = t ∧ BytesStay m t (movedEntry m t i (basename src)) ∨ Edge (entryAt m) t (basename src) i

section Moved
variable {m : Mem} {sp t k f i : ℕ} {name : CStr}

theorem dirBlock_ne_owns (h : ImageInv m) (hs : sp < 256) (hi : i < 256) (hne : i ≠ sp) (n : Node)
    (hn : owns m (inodeAt m i) n ≠ 0) : owns m (inodeAt m i) n ≠ (inodeAt m sp).dirBlock := by
  intro he
  have hd : owns m (inodeAt m sp) (.data 0) = (inodeAt m sp).dirBlock := owns_data_zero
  have hpl := h.sound.own.inj (⟨i,hi⟩,n) (⟨sp,hs⟩,.data 0) hn (he.trans hd.symm)
  exact hne (congrArg (fun p : Place => p.1.val) hpl)

theorem blockAt_moved (hs : sp < 256) (v : ℕ) {b : ℕ} (hb : DataId b) (hbs : b ≠ (inodeAt m sp).dirBlock)
    (hbt : b ≠ (inodeAt m t).dirBlock) :
    blockAt (moved m sp k (inodeAt m t).dirBlock v f name) b = blockAt m b := by
  simp only [moved]
  rw [blockAt_putBlock, if_neg hbt.symm, blockAt_putInode hs hb, blockAt_putBlock, if_neg hbs.symm]

/-- An inode that is neither the source's parent nor at the destination. -/
theorem moved_sameInode (h : ImageInv m) (hs : sp < 256) (hsb : (inodeAt m sp).dirBlock ≠ 0) (ht : t < 256)
    (htb : (inodeAt m t).dirBlock ≠ 0) (v : ℕ) (hi : i < 256) (his : i ≠ sp) (hit : i ≠ t) :
    SameInode m (moved m sp k (inodeAt m t).dirBlock v f name) i := by
  refine h.sameInode hi ?_ (S := fun x => x = (inodeAt m sp).dirBlock ∨ x = (inodeAt m t).dirBlock) (fun x hx hno => ?_)
    (fun n hn hc => ?_)
  · rw [inodeAt_moved (h.dirBlock_dataId hs hsb).1 (h.dirBlock_dataId ht htb).1 v hi, if_neg his.symm]
  · obtain ⟨hxs,hxt⟩ := not_or.mp hno
    exact blockAt_moved hs v hx hxs hxt
  · rcases hc with he | he
    · exact dirBlock_ne_owns h hs hi his n hn he
    · exact dirBlock_ne_owns h ht hi hit n hn he

/-- The bytes of a file at the destination. -/
theorem fileByte_moved (h : ImageInv m) (hs : sp < 256) (hsdir : (inodeAt m sp).fileType = typeDirectory)
    (hsb : (inodeAt m sp).dirBlock ≠ 0) (ht : t < 256) (htb : (inodeAt m t).dirBlock ≠ 0) (hst : t ≠ sp)
    (hfile : (inodeAt m t).fileType ≠ typeDirectory) (o : ℕ) :
    fileByte (moved m sp k (inodeAt m t).dirBlock (inodeAt m t).firstVacant f name) (inodeAt m t) o =
      if o / 1024 = 0 then some (movedEntry m t f name (o % 1024)) else fileByte m (inodeAt m t) o := by
  have hs₁ : SameInode m (putInode (putBlock m (inodeAt m sp).dirBlock (clearEntry (blockAt m (inodeAt m sp).dirBlock) k)) sp
      ((inodeAt m sp).unmarkEntry k)) t := by
    refine h.sameInode ht ?_ (S := fun x => x = (inodeAt m sp).dirBlock) (fun x hx hno => ?_) (fun n hn hc => ?_)
    · rw [inodeAt_putInode, if_neg hst.symm, inodeAt_putBlock (h.dirBlock_dataId hs hsb).1 ht]
    · rw [blockAt_putInode hs hx, blockAt_putBlock, if_neg (Ne.symm hno)]
    · exact dirBlock_ne_owns h hs ht hst n hn hc
  have h₁ := (putEntry_inv h hs hsdir hsb (clearEntry (blockAt m (inodeAt m sp).dirBlock) k)
    (x := (inodeAt m sp).unmarkEntry k) rfl rfl rfl).1
  rw [← hs₁.fileByte_eq hfile, movedEntry, ← hs₁.dirBlock_eq htb]
  simp only [moved]
  generalize putInode (putBlock m (inodeAt m sp).dirBlock (clearEntry (blockAt m (inodeAt m sp).dirBlock) k)) sp
    ((inodeAt m sp).unmarkEntry k) = m₁ at *
  have hrec : tableOf m₁ ⟨t,ht⟩ = inodeAt m t := hs₁.record
  have hptr : nodePtr m₁ (inodeAt m t) (.data 0) = (inodeAt m t).dirBlock := rfl
  have hbyte := fileByte_storeAt (c := strncpy (setEntryInode (blockAt m₁ (inodeAt m t).dirBlock) (inodeAt m t).firstVacant f)
    (33 * (inodeAt m t).firstVacant) name name.length) (b := 0) (i := ⟨t,ht⟩) h₁.sound (by rw [hrec]; exact hfile)
    (by rw [hrec, hptr]; exact htb) o
  rw [hrec, storeAt, hptr] at hbyte
  rw [hbyte, hs₁.record]

end Moved

/-- The source and the destination as paths of names. -/
structure MovePaths (m : Mem) (src dst : CStr) (i : ℕ) : Prop where
  parent : Path (entryAt m) 0 (strtok slash (dirname src)) (parentOf m src)
  edge : Edge (entryAt m) (parentOf m src) (basename src) i
  dstParent : Path (entryAt m) 0 (strtok slash (dirname dst)) (parentOf m dst)
  outside : ¬ strtok slash src <+: strtok slash (dirname dst)
  srcNames : strtok slash src = strtok slash (dirname src) ++ [basename src]
  dstNames : strtok slash dst = strtok slash (dirname dst) ++ [basename dst]

theorem MoveChecked.paths {m : Mem} {p q : PathArg} (hch : MoveChecked m p.chars q.chars) (ht : TidyImage m) :
    MovePaths m p.chars q.chars (getFileInodeID m (parentOf m p.chars) (basename p.chars)) := by
  obtain ⟨hs,hsdir⟩ := parentOf_spec ht.inv hch.srcParent
  obtain ⟨hd,_⟩ := parentOf_spec ht.inv hch.dstParent
  have hparent : ∀ {r : PathArg}, parentOf m r.chars < 256 →
      Path (entryAt m) 0 (strtok slash (dirname r.chars)) (parentOf m r.chars) := fun {r} hlt =>
    ((ht.searchable.getParentDirInodeID_eq (by omega) ht.searchable.root
      (fun n hn h0 => dirname_nulFree r.nulFree ((mem_strtok hn).2.2 h0)) hlt).mp rfl).1
  have hnul := basename_nulFree p.nulFree
  have hsrc := strtok_eq_dirname_basename hch.srcValid
  refine ⟨hparent hs,ht.edge_of_exists hs hsdir hnul hch.srcExists,hparent hd,fun hpre => ?_,hsrc,
    strtok_eq_dirname_basename hch.dstValid⟩
  -- the last name of the source is no component of the destination's parent
  have hmem : basename p.chars ∈ strtok slash (dirname q.chars) := hpre.subset (by rw [hsrc]; simp)
  have hno := List.any_eq_false.mp hch.outside _ hmem
  rw [Bool.not_eq_true, Bool.eq_false_iff] at hno
  exact hno ((strncmpEq_length hnul).mpr (List.prefix_refl _))

section Found
variable {m m' : Mem} {src dst : CStr} {i t k : ℕ}

theorem MovePaths.resolve_src (h : MovePaths m src dst i) (ht : TidyImage m) : resolve m (strtok slash src) = some i := by
  rw [resolve_eq_some ht.inv.dirsReadable ht.distinct, h.srcNames]
  exact path_concat.mpr ⟨_,h.parent,h.edge⟩

/-- With the source's entry taken out the source leads nowhere, and the other paths stay if and only if no other path
leads to its parent. -/
theorem MovePaths.kept_iff (h : MovePaths m src dst i) (ht : TidyImage m) (ht' : TidyImage m')
    (hk : entryAt m (parentOf m src) k = some (basename src,i))
    (hmap : entryAt m' = update (entryAt m) (parentOf m src) k none) : resolve m' (strtok slash src) = none ∧
    ((∀ names j, ¬ strtok slash src <+: names → resolve m names = some j → resolve m' names = some j) ↔
      ∀ names, resolve m names = some (parentOf m src) → names = strtok slash (dirname src) ∨ strtok slash src <+: names) := by
  have hold : ∀ {names j}, resolve m names = some j ↔ Path (entryAt m) 0 names j :=
    resolve_eq_some ht.inv.dirsReadable ht.distinct
  have hnew : ∀ {names j}, resolve m' names = some j ↔ Path (entryAt m') 0 names j :=
    resolve_eq_some ht'.inv.dirsReadable ht'.distinct
  constructor
  · rw [Option.eq_none_iff_forall_ne_some]
    intro j hj
    rw [hnew, hmap, h.srcNames] at hj
    exact ht.distinct.path_update_none_self hk h.parent hj
  · have hiff := ht.distinct.paths_kept_iff hk h.parent
    simp only [hold, hnew, hmap, h.srcNames]
    exact hiff

/-- Where the destination is after the source's entry is taken out, and how its inode is found there. -/
theorem MovePaths.there_iff (h : MovePaths m src dst i) (ht : TidyImage m) (ht' : TidyImage m')
    (hk : entryAt m (parentOf m src) k = some (basename src,i))
    (hmap : entryAt m' = update (entryAt m) (parentOf m src) k none)
    (hdst : Edge (entryAt m) (parentOf m dst) (basename dst) t) (hst : parentOf m src ≠ t)
    (hkept : ∀ names j, ¬ strtok slash src <+: names → resolve m names = some j → resolve m' names = some j) :
    (resolve m' (strtok slash dst) = some i ∨ resolve m' (strtok slash dst ++ [basename src]) = some i) ↔
      ¬ (parentOf m dst = parentOf m src ∧ basename dst = basename src) ∧
        (i = t ∨ Edge (entryAt m) t (basename src) i) := by
  have hnew : ∀ {names j}, resolve m' names = some j ↔ Path (entryAt m') 0 names j :=
    resolve_eq_some ht'.inv.dirsReadable ht'.distinct
  have hedge : ∀ {d n j}, Edge (entryAt m') d n j ↔ Edge (entryAt m) d n j ∧ ¬ (d = parentOf m src ∧ n = basename src) := by
    intro d n j
    rw [hmap]
    exact ht.distinct.edge_update_none hk
  have hpar : Path (entryAt m') 0 (strtok slash (dirname dst)) (parentOf m dst) :=
    hnew.mp (hkept _ _ h.outside ((resolve_eq_some ht.inv.dirsReadable ht.distinct).mpr h.dstParent))
  -- the destination is found unless it is the source
  have hend : ∀ {j}, Path (entryAt m') 0 (strtok slash dst) j ↔
      ¬ (parentOf m dst = parentOf m src ∧ basename dst = basename src) ∧ j = t := by
    intro j
    rw [h.dstNames, path_concat]
    constructor
    · rintro ⟨e,he,hj⟩
      obtain rfl := ht'.distinct.path_unique he hpar
      obtain ⟨hj,hno⟩ := hedge.mp hj
      exact ⟨hno,ht.distinct.edge_unique hj hdst⟩
    · rintro ⟨hno,rfl⟩
      exact ⟨_,hpar,hedge.mpr ⟨hdst,hno⟩⟩
  rw [hnew, hnew, hend, path_concat]
  constructor
  · rintro (⟨hno,he⟩ | ⟨e,he,hj⟩)
    · exact ⟨hno,Or.inl he⟩
    · obtain ⟨hno,rfl⟩ := hend.mp he
      exact ⟨hno,Or.inr (hedge.mp hj).1⟩
  · rintro ⟨hno,rfl | hj⟩
    · exact Or.inl ⟨hno,rfl⟩
    · exact Or.inr ⟨t,hend.mpr ⟨hno,rfl⟩,hedge.mpr ⟨hj,fun hc => hst hc.1.symm⟩⟩

end Found

section Result
variable {s s' : F19FS} {p q : PathArg} {junk : Inode} {i t k : ℕ}

/-- An entry that is taken out and was not the only path leads away from the source: it is the source's. -/
theorem MoveKeeps.slot (hx : MoveKeeps s s' p.chars q.chars) (ht : TidyImage s.image) (ht' : TidyImage s'.image)
    (hp : MovePaths s.image p.chars q.chars i)
    (hfirst : Names.FirstPrefix (entryAt s.image) (parentOf s.image p.chars) (basename p.chars) k)
    (hmap : entryAt s'.image = update (entryAt s.image) (parentOf s.image p.chars) k none) :
    entryAt s.image (parentOf s.image p.chars) k = some (basename p.chars,i) := by
  obtain ⟨a,j,hk,_⟩ := hfirst.1
  obtain ⟨k₀,hk₀⟩ := hp.edge
  by_cases ha : a = basename p.chars
  · subst ha
    obtain rfl := ht.distinct _ _ _ _ _ _ hk hk₀
    exact hk₀
  · have hpre : ¬ strtok slash p.chars <+: strtok slash (dirname p.chars) ++ [a] := by
      intro hle
      have heq := hle.eq_of_length (by rw [hp.srcNames, List.length_append, List.length_append]; rfl)
      rw [hp.srcNames] at heq
      exact ha (List.singleton_inj.mp (List.append_cancel_left heq)).symm
    have hold : resolve s.image (strtok slash (dirname p.chars) ++ [a]) = some j :=
      (resolve_eq_some ht.inv.dirsReadable ht.distinct).mpr (path_concat.mpr ⟨_,hp.parent,k,hk⟩)
    have hnew := (resolve_eq_some ht'.inv.dirsReadable ht'.distinct).mp (hx.others _ j hpre hold)
    rw [hmap] at hnew
    exact absurd hnew (ht.distinct.path_update_none_self hk hp.parent)

/-- The slot of the source's entry is the first whose name begins with it. -/
theorem firstOfName_of_slot {m : Mem} {d : ℕ} {name : CStr} (hE : Distinct (entryAt m))
    (hk : entryAt m d k = some (name,i)) (hfirst : Names.FirstPrefix (entryAt m) d name k) : FirstOfName m d name i := by
  intro k' hk' j hj a e he
  obtain rfl := hE _ _ _ _ _ _ hk' hk
  exact hfirst.2 j hj a e he

/-- The move to a destination that exists. -/
theorem moveKeeps_found_iff (ht : TidyImage s.image) (ht' : TidyImage s'.image) (hch : MoveChecked s.image p.chars q.chars)
    (hi : getFileInodeID s.image (parentOf s.image p.chars) (basename p.chars) = i)
    (hti : getFileInodeID s.image (parentOf s.image q.chars) (basename q.chars) = t)
    (hex : checkFileExist s.image (parentOf s.image q.chars) (basename q.chars) = true)
    (hst : parentOf s.image p.chars ≠ t) (hdb : (inodeAt s.image t).dirBlock ≠ 0)
    (hv : (inodeAt s.image t).firstVacant < 31)
    (hk : getFileIndexInDir (inodeAt s.image (parentOf s.image p.chars)) (blockAt s.image
      (inodeAt s.image (parentOf s.image p.chars)).dirBlock) (basename p.chars) = some k)
    (hfd : s'.fdTable = s.fdTable) (him : s'.image = moved s.image (parentOf s.image p.chars) k (inodeAt s.image t).dirBlock
      (inodeAt s.image t).firstVacant i (basename p.chars)) :
    MoveKeeps s s' p.chars q.chars ↔ MoveSound s.image p.chars q.chars i t := by
  have hinv := ht.inv
  obtain ⟨hs,hsdir⟩ := parentOf_spec hinv hch.srcParent
  obtain ⟨hd,hddir⟩ := parentOf_spec hinv hch.dstParent
  have hp := hch.paths ht
  rw [hi] at hp
  have ht256 : t < 256 := hti ▸ getFileInodeID_lt _ _ _
  have hi256 : i < 256 := hi ▸ getFileInodeID_lt _ _ _
  have hdst := ht.edge_of_exists hd hddir (basename_nulFree q.nulFree) hex
  rw [hti] at hdst
  obtain ⟨hk31,hlive,_⟩ := firstEntry_some hk
  have hsb := (hinv.record _ hs).block hsdir k hk31 hlive
  have hfirst := firstPrefix_of_index hs hsdir (basename_nulFree p.nulFree) hk
  have hmap : entryAt s'.image = update (entryAt s.image) (parentOf s.image p.chars) k none := by
    rw [him]
    exact entryAt_moved hinv ht.terminated i hs hsdir hk31 hlive ht256 hdb hst hv hch.srcName
  have hrec : ∀ {e}, e < 256 → parentOf s.image p.chars ≠ e → inodeAt s'.image e = inodeAt s.image e := by
    intro e he hne
    rw [him, inodeAt_moved (hinv.dirBlock_dataId hs hsb).1 (hinv.dirBlock_dataId ht256 hdb).1 _ he, if_neg hne]
  -- the bytes of a file at the destination
  have hbytes : (inodeAt s.image t).fileType ≠ typeDirectory → ∀ o, fileByte s'.image (inodeAt s.image t) o =
      if o / 1024 = 0 then some (movedEntry s.image t i (basename p.chars) (o % 1024))
      else fileByte s.image (inodeAt s.image t) o := by
    intro hfile o
    rw [him]
    exact fileByte_moved hinv hs hsdir hsb ht256 hdb (Ne.symm hst) hfile o
  have hfront : ∀ {o}, o < 1024 → fileByte s.image (inodeAt s.image t) o =
      some (blockAt s.image (inodeAt s.image t).dirBlock o) := by
    intro o ho
    rw [fileByte_eq_some, Nat.div_eq_of_lt ho, Nat.mod_eq_of_lt ho]
    exact ⟨hdb,rfl⟩
  constructor
  · intro hx
    have hslot := hx.slot ht ht' hp hfirst hmap
    obtain ⟨hgone,hiff⟩ := hp.kept_iff ht ht' hslot hmap
    obtain ⟨i',hi',hthere,hfile⟩ := hx.there
    obtain rfl : i' = i := Option.some.inj (hi'.symm.trans (hp.resolve_src ht))
    obtain ⟨hapart,hlands⟩ := (hp.there_iff ht ht' hslot hmap hdst hst hx.others).mp hthere
    refine ⟨hex,hapart,firstOfName_of_slot ht.distinct hslot hfirst,hiff.mp hx.others,?_,?_⟩
    · rintro rfl
      have hent := hfile.entries k
      rw [hmap, update_self, hslot] at hent
      cases hent
    · refine hlands.imp (fun he => ⟨he,fun hreg o ho hlt => ?_⟩) id
      subst he
      have hbyte := hfile.bytes hreg o ho
      rw [hrec hi256 hst, hbytes hreg, hfront hlt, if_pos (Nat.div_eq_of_lt hlt), Nat.mod_eq_of_lt hlt] at hbyte
      exact Option.some.inj hbyte
  · intro hx
    have hslot := hx.first.slot hp.edge hfirst
    obtain ⟨hgone,hiff⟩ := hp.kept_iff ht ht' hslot hmap
    have hothers := hiff.mpr hx.single
    have hsame := hrec hi256 (Ne.symm hx.outside)
    refine ⟨hgone,⟨i,hp.resolve_src ht,?_,?_⟩,hfd,hothers⟩
    · exact (hp.there_iff ht ht' hslot hmap hdst hst hothers).mpr ⟨hx.apart,hx.lands.imp And.left id⟩
    refine ⟨by rw [hsame],by rw [hsame],by rw [hsame],fun hreg o ho => ?_,fun j => ?_⟩
    · rw [hsame]
      by_cases hit : i = t
      · subst hit
        have hwritten : BytesStay s.image i (movedEntry s.image i i (basename p.chars)) :=
          hx.lands.elim And.right (fun he => absurd (edge_directory he).2 hreg)
        rw [hbytes hreg]
        split_ifs with h0
        · have hlt : o < 1024 := by omega
          rw [hfront hlt, Nat.mod_eq_of_lt hlt, hwritten hreg o ho hlt]
        · rfl
      · have hsi : SameInode s.image s'.image i := by
          rw [him]
          exact moved_sameInode hinv hs hsb ht256 hdb _ hi256 hx.outside hit
        have hbyte := hsi.fileByte_eq hreg o
        rwa [hsame] at hbyte
    · rw [hmap, update_of_ne (fun hc => hx.outside hc.1)]

/-- A directory that the move makes has no entry for the file. -/
theorem not_moveKeeps_made (ht : TidyImage s.image) (ht' : TidyImage s'.image) (hmk : MoveMakes s.image p.chars q.chars)
    (hn : namesOf s'.image = ((namesOf s.image).apply (moveDirectory s.image q.chars)).apply
      (.drop (parentOf s.image p.chars) k)) : ¬ MoveKeeps s s' p.chars q.chars := by
  intro hx
  obtain ⟨hd,hddir⟩ := parentOf_spec ht.inv hmk.checked.dstParent
  obtain ⟨hc,hcfree,_⟩ := firstFreeInode_spec hmk.inode
  have hcfile := ht.inv.file_of_free hc hcfree
  have hp := hmk.checked.paths ht
  have hno := no_edge_of_absent ht.inv hd (basename_nulFree q.nulFree) hmk.absent
  have hmap : entryAt s'.image = update (update (entryAt s.image) (parentOf s.image q.chars)
      (inodeAt s.image (parentOf s.image q.chars)).firstVacant (some (basename q.chars,firstFreeInode s.image)))
      (parentOf s.image p.chars) k none := congrArg Names.entries hn
  have hrec : (recordOf s'.image (firstFreeInode s.image)).kind = typeDirectory := by
    have he := congrArg Names.record hn
    exact congrArg Record.kind ((congrFun he (firstFreeInode s.image)).trans (Names.setRecord_self ..))
  have hE := ht.distinct.update_some (s := (inodeAt s.image (parentOf s.image q.chars)).firstVacant)
    (e := firstFreeInode s.image) hno
  have hvac := entryAt_firstVacant hmk.room
  have hedge : ∀ {d n j}, Edge (entryAt s'.image) d n j → Edge (update (entryAt s.image) (parentOf s.image q.chars)
      (inodeAt s.image (parentOf s.image q.chars)).firstVacant (some (basename q.chars,firstFreeInode s.image))) d n j := by
    intro d n j he
    rw [hmap] at he
    exact edge_of_update_none he
  have hdst : Path (update (entryAt s.image) (parentOf s.image q.chars)
      (inodeAt s.image (parentOf s.image q.chars)).firstVacant (some (basename q.chars,firstFreeInode s.image))) 0
      (strtok slash q.chars) (firstFreeInode s.image) := by
    rw [hp.dstNames]
    exact path_concat.mpr ⟨_,hp.dstParent.mono (fun _ _ _ he => (edge_update_some hvac).mpr (Or.inr he)),
      (edge_update_some hvac).mpr (Or.inl ⟨rfl,rfl,rfl⟩)⟩
  have hnew : ∀ {names j}, resolve s'.image names = some j ↔ Path (entryAt s'.image) 0 names j :=
    resolve_eq_some ht'.inv.dirsReadable ht'.distinct
  obtain ⟨i,_,hthere,hfile⟩ := hx.there
  rw [hnew, hnew, path_concat] at hthere
  rcases hthere with hi | ⟨e,he,hi⟩
  · -- an entry for an inode that was not in use
    obtain rfl := hE.path_unique (hi.mono (fun _ _ _ => hedge)) hdst
    rw [recordOf_lt hc] at hrec
    exact hcfile (hfile.fileType.symm.trans hrec)
  · obtain rfl := hE.path_unique (he.mono (fun _ _ _ => hedge)) hdst
    rcases (edge_update_some hvac).mp (hedge hi) with ⟨hcd,_⟩ | hold
    · rw [hcd] at hcfile
      exact hcfile hddir
    · exact hcfile (edge_directory hold).2

end Result

/-- When `fs_move` returns 0, nothing is lost if and only if the destination exists and is, or has, another link to
the source's inode, and the source's entry is the one that is found and the only way to it. -/
theorem move_keeps {s s' : F19FS} {src dst : PathArg} {junk : Inode} (h : TidyReachable s)
    (hsafe : Safe s (.move (some src) (some dst) junk)) (hr : call s (.move (some src) (some dst) junk) = some (0,s')) :
    MoveKeeps s s' src.chars dst.chars ↔ MoveSound s.image src.chars dst.chars
      (getFileInodeID s.image (parentOf s.image src.chars) (basename src.chars))
      (getFileInodeID s.image (parentOf s.image dst.chars) (basename dst.chars)) := by
  have ht := h.tidy
  have htidy : Tidy s (.move (some src) (some dst) junk) := ⟨hsafe,trivial⟩
  have ht' := step_tidy ht htidy (step_of_call hr)
  have hms : ∀ p ∈ pathOf (some src), ∀ q ∈ pathOf (some dst), MoveSafe s.image p q := by
    intro p hp q hq
    obtain rfl := Option.mem_some_iff.mp hp
    obtain rfl := Option.mem_some_iff.mp hq
    exact hsafe src rfl dst rfl
  obtain ⟨hfd,⟨hneg,_⟩ | ⟨p,q,hp,hq,hch,hres⟩⟩ :=
    fsMove_result ht.inv (nulFree_pathOf (some src)) (nulFree_pathOf (some dst)) hms hr
  · omega
  obtain rfl : src.chars = p := Option.some.inj hp
  obtain rfl : dst.chars = q := Option.some.inj hq
  obtain ⟨l,hl,_,hn⟩ := call_refines ht htidy hr
  generalize hret : (0 : ℤ) = ret at hres
  generalize him : s'.image = m' at hres
  cases hres with
  | stop hneg | inodeTaken hneg | blockTaken hneg => omega
  | moved hex he hne hdb hv hk =>
    subst he
    exact moveKeeps_found_iff ht ht' hch rfl rfl hex hne hdb hv hk hfd him
  | made hex _ hroom hif hf =>
    refine iff_of_false ?_ (fun hx => ?_)
    · cases hl with
      | refused _ h0 => exact absurd rfl h0
      | other hno => exact absurd trivial hno
      | take _ h0 => exact absurd rfl h0
      | drop hfinds =>
        have hfound := hfinds.found
        rw [hex] at hfound
        cases hfound
      | replace hmakes => exact not_moveKeeps_made ht ht' hmakes hn
    · have hfound := hx.found
      rw [hex] at hfound
      cases hfound

/-- A directory `/dd` with a file and another link to `/a`. -/
def pathDD : PathArg := ⟨ofChars ['/','d','d'],by decide⟩
def pathDDX : PathArg := ⟨ofChars ['/','d','d','/','x'],by decide⟩
def pathDDA : PathArg := ⟨ofChars ['/','d','d','/','a'],by decide⟩

theorem move_keeps_linked : ∃ s s', run step fsFormat [.create (some pathDD) .directory,.create (some pathDDX) .regular,
      .create (some fileA) .regular,.link (some fileA) (some pathDDA)] = some s ∧
    call s (.move (some fileA) (some pathDD) Inode.cleared) = some (0,s') ∧
    (MoveKeeps s s' fileA.chars pathDD.chars ↔ MoveSound s.image fileA.chars pathDD.chars
      (getFileInodeID s.image (parentOf s.image fileA.chars) (basename fileA.chars))
      (getFileInodeID s.image (parentOf s.image pathDD.chars) (basename pathDD.chars))) := by
  have hrun : (run (checked plainTidy step) fsFormat [.create (some pathDD) .directory,.create (some pathDDX) .regular,
      .create (some fileA) .regular]).bind (fun s₁ => (step s₁ (.link (some fileA) (some pathDDA))).bind (fun s =>
      (call s (.move (some fileA) (some pathDD) Inode.cleared)).map (fun r => decide (r.1 = 0) &&
        decide ((inodeAt s₁.image (parentOf s₁.image pathDDA.chars)).dirBlock ≠ 0) &&
        checkFileExist s.image (parentOf s.image pathDD.chars) (basename pathDD.chars) && decide ((inodeAt s.image
          (getFileInodeID s.image (parentOf s.image pathDD.chars) (basename pathDD.chars))).dirBlock ≠ 0)))) = some true := by
    decide +kernel
  obtain ⟨s₁,hs₁,hl⟩ := Option.bind_eq_some_iff.mp hrun
  obtain ⟨s,hs,hr⟩ := Option.bind_eq_some_iff.mp hl
  obtain ⟨⟨ret,s'⟩,hr,hf⟩ := Option.map_eq_some_iff.mp hr
  simp only [Bool.and_eq_true, decide_eq_true_eq] at hf
  obtain ⟨⟨⟨rfl,hlink⟩,hex⟩,hdb⟩ := hf
  have htidy : Tidy s₁ (.link (some fileA) (some pathDDA)) := by
    refine ⟨fun p hp q hq _ => ?_,trivial⟩
    obtain rfl := Option.mem_some_iff.mp hp
    obtain rfl := Option.mem_some_iff.mp hq
    exact hlink
  have hsafe : Safe s (.move (some fileA) (some pathDD) Inode.cleared) := by
    intro p hp q hq _
    obtain rfl := Option.mem_some_iff.mp hp
    obtain rfl := Option.mem_some_iff.mp hq
    rw [if_pos hex]
    exact fun _ => hdb
  have hreach : TidyReachable s := (tidyReachable_of_plain hs₁).tail htidy hs
  have hall := run_concat (run_of_checked hs₁) hs
  exact ⟨s,s',hall,hr,move_keeps hreach hsafe hr⟩

/-- The move of `/a` to a directory that it makes: the directory shows no entry. -/
theorem move_keeps_fail : ¬ ∀ s s' (src dst : PathArg) junk, Reach step (fun _ _ => True) fsFormat s →
    call s (.move (some src) (some dst) junk) = some (0,s') → MoveKeeps s s' src.chars dst.chars := by
  intro hall
  have hrun : (run step fsFormat [.create (some fileA) .regular]).bind (fun s =>
      (call s (.move (some fileA) (some pathDD) Inode.cleared)).map (fun r => decide (r.1 = 0) &&
        decide (resolve s.image (strtok slash fileA.chars) = some 1) &&
        decide (resolve r.2.image (strtok slash pathDD.chars) = some 2) &&
        decide (resolve r.2.image (strtok slash pathDD.chars ++ [basename fileA.chars]) = none))) = some true := by
    decide +kernel
  obtain ⟨s,hs,hr⟩ := Option.bind_eq_some_iff.mp hrun
  obtain ⟨⟨ret,s'⟩,hr,hf⟩ := Option.map_eq_some_iff.mp hr
  simp only [Bool.and_eq_true, decide_eq_true_eq] at hf
  obtain ⟨⟨⟨rfl,hsrc⟩,hdst⟩,hin⟩ := hf
  obtain ⟨i,hi,hthere,_⟩ := (hall s s' fileA pathDD _ (reach_of_run hs) hr).there
  rw [hsrc] at hi
  obtain rfl := Option.some.inj hi
  rw [hdst, hin] at hthere
  rcases hthere with he | he <;> cases he

end LiteOSFS
