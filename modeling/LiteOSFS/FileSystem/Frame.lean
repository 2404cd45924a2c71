import LiteOSFS.FileSystem.FileCalls

/-! # What a call leaves alone

An inode is the same in two images when its record is and the blocks that it holds
have the same bytes. `Created` says in full what a successful `fs_create` does.
-/
namespace LiteOSFS
open Memory CString Ownership

structure SameInode (m m' : Mem) (j : ℕ) : Prop where
  record : inodeAt m' j = inodeAt m j
  blocks : ∀ n, owns m (inodeAt m j) n ≠ 0 →
    blockAt m' (owns m (inodeAt m j) n) = blockAt m (owns m (inodeAt m j) n)

section Same
variable {m m' m₁ : Mem} {j : ℕ}

theorem SameInode.refl (m : Mem) (j : ℕ) : SameInode m m j := ⟨rfl,fun _ _ => rfl⟩

theorem SameInode.owns_eq (h : SameInode m m' j) (n : Node) : owns m' (inodeAt m' j) n = owns m (inodeAt m j) n := by
  rw [h.record]
  exact (owns_congr (fun _ p _ _ hne => (h.blocks p hne).symm) n).symm

theorem SameInode.trans (h : SameInode m m₁ j) (h' : SameInode m₁ m' j) : SameInode m m' j := by
  refine ⟨h'.record.trans h.record,fun n hn => ?_⟩
  have ho := h.owns_eq n
  have hb := h'.blocks n (by rwa [ho])
  rw [ho] at hb
  exact hb.trans (h.blocks n hn)

theorem SameInode.nodePtr_eq (h : SameInode m m' j) (hfile : (inodeAt m j).fileType ≠ typeDirectory) (n : Node) :
    nodePtr m' (inodeAt m' j) n = nodePtr m (inodeAt m j) n := by
  have ho := h.owns_eq n
  rwa [owns_of_file (by rwa [h.record]), owns_of_file hfile] at ho

theorem SameInode.fileByte_eq (h : SameInode m m' j) (hfile : (inodeAt m j).fileType ≠ typeDirectory) (o : ℕ) :
    fileByte m' (inodeAt m' j) o = fileByte m (inodeAt m j) o := by
  rw [h.record]
  apply fileByte_congr
  intro n hn
  have hb := h.blocks n (by rwa [owns_of_file hfile])
  rw [owns_of_file hfile] at hb
  exact hb.symm

theorem SameInode.dirBlock_eq (h : SameInode m m' j) (hne : (inodeAt m j).dirBlock ≠ 0) :
    blockAt m' (inodeAt m j).dirBlock = blockAt m (inodeAt m j).dirBlock := by
  have hd : owns m (inodeAt m j) (.data 0) = (inodeAt m j).dirBlock := owns_data_zero
  rw [← hd] at hne ⊢
  exact h.blocks _ hne

/-- Blocks held by an inode are the same when every data block but `b` is and `b` is not its own. -/
theorem ImageInv.sameInode (h : ImageInv m) (hj : j < 256) (hr : inodeAt m' j = inodeAt m j) {S : ℕ → Prop}
    (hb : ∀ x, DataId x → ¬ S x → blockAt m' x = blockAt m x)
    (hS : ∀ n, owns m (inodeAt m j) n ≠ 0 → ¬ S (owns m (inodeAt m j) n)) : SameInode m m' j := by
  refine ⟨hr,fun n hn => hb _ ?_ (hS n hn)⟩
  exact h.sound.own.dataId (q := (⟨j,hj⟩,n)) hn

end Same

theorem Extends.sameInode {m m' : Mem} {i : Fin 256} {x' : Inode} (h : Extends m (tableOf m) i m' x')
    (hi : ImageInv m) {j : ℕ} (hj : j < 256) (hne : i.val ≠ j) (y : Inode) : SameInode m (putInode m' i y) j := by
  have hij : (⟨j,hj⟩ : Fin 256) ≠ i := fun he => hne (congrArg Fin.val he).symm
  refine ⟨?_,fun n hn => ?_⟩
  · rw [inodeAt_putInode, if_neg hne, h.inodes j hj]
  · have hd : DataId (owns m (inodeAt m j) n) := hi.sound.own.dataId (q := (⟨j,hj⟩,n)) hn
    rw [blockAt_putInode i.isLt hd]
    exact h.blockAt_other hi.sound hij hn

/-- What `fs_create` does: inode `c` gets a fresh record and its name stands in slot `k` of its parent, whose
block is then `b`. -/
structure Created (m : Mem) (p : ℕ) (name : CStr) (type : FileT) (m' : Mem) (k b c : ℕ) : Prop where
  slot : k < 31
  vacant : (inodeAt m p).live k = false
  packed : ∀ j < k, (inodeAt m p).live j = true
  absent : ∀ j < 31, (inodeAt m p).live j = true → entryName (blockAt m (inodeAt m p).dirBlock) j ≠ name
  block : DataId b ∧ (k = 0 ∧ used m b = false ∨ k ≠ 0 ∧ b = (inodeAt m p).dirBlock)
  inodeLt : c < 256
  inodeFree : inodeUsed m c = false
  inodeFirst : c = firstFreeInode m
  blockFirst : k = 0 → b = firstFree m
  parent : inodeAt m' p = (inodeAt m p).withEntry k b
  child : inodeAt m' c = childInode type c
  others : ∀ j < 256, p ≠ j → c ≠ j → inodeAt m' j = inodeAt m j
  bits : ∀ j < 256, inodeUsed m' j = (decide (c = j) || inodeUsed m j)
  marks : ∀ x < 65536, used m' x = (decide (b = x) || used m x)
  entry : blockAt m' b = window (putEntry (blockAt m b) k name c) 0 1024
  blocks : ∀ x, DataId x → b ≠ x → blockAt m' x = blockAt m x

section Create
variable {m m' : Mem} {p k b c : ℕ} {name : CStr} {type : FileT}

theorem hasEntry_false (h : ImageInv m) (hp : p < 256) {data : Mem} (he : hasEntry m (inodeAt m p) data name = false) :
    ∀ j < 31, (inodeAt m p).live j = true → entryName (blockAt m (inodeAt m p).dirBlock) j ≠ name := by
  intro j hj hlive hname
  rw [(hasEntry_iff h hp data name).mpr ⟨j,hj,hlive,hname⟩] at he
  cases he

/-- The block for slot 0 is taken, but there is no inode. -/
structure BlockTaken (m : Mem) (p : ℕ) (m' : Mem) : Prop where
  vacant : (inodeAt m p).live 0 = false
  inodesFull : firstFreeInode m = sizeMax
  blockFree : firstFree m ≠ sizeMax
  image : m' = setUsed m (firstFree m)

theorem createIn_created (h : ImageInv m) (hp : p < 256) (hdir : (inodeAt m p).fileType = typeDirectory) {data : Mem}
    {ret : ℤ} (hc : createIn m p (inodeAt m p) data name type = (ret,m')) :
    (ret = -1 ∧ CreateStopped m p name ∧ m' = m) ∨
    (∀ j < 31, (inodeAt m p).live j = true → entryName (blockAt m (inodeAt m p).dirBlock) j ≠ name) ∧
    (ret = -1 ∧ BlockTaken m p m' ∨ ret = 0 ∧ ∃ k b c, Created m p name type m' k b c) := by
  rcases createIn_cases h hp hdir hc with ⟨hr,hstop,rfl⟩ | ⟨hr,⟨habs,hv,hf,hb⟩,rfl⟩ | ⟨k,hk,b,m₁,hr,habs,hvac,hpack,hblock,hfi,rfl⟩
  · exact Or.inl ⟨hr,hstop,rfl⟩
  · exact Or.inr ⟨hasEntry_false h hp habs,Or.inl ⟨hr,hv,hf,hb,rfl⟩⟩
  refine Or.inr ⟨hasEntry_false h hp habs,Or.inr ⟨hr,k,b,firstFreeInode m,?_⟩⟩
  obtain ⟨hc256,hcfree,_⟩ := firstFreeInode_spec hfi
  have hcp : firstFreeInode m ≠ p := by
    intro he
    rw [he, (h.record p hp).marked hdir] at hcfree
    cases hcfree
  obtain ⟨hb,hm₁,hfirst⟩ : (DataId b ∧ (k = 0 ∧ used m b = false ∨ k ≠ 0 ∧ b = (inodeAt m p).dirBlock)) ∧
      (m₁ = setUsed m b ∨ m₁ = m ∧ used m b = true) ∧ (k = 0 → b = firstFree m) := by
    rcases hblock with ⟨h0,hf,rfl,rfl⟩ | ⟨h0,rfl,hne,rfl⟩
    · obtain ⟨hd,hu,_⟩ := firstFree_spec h.sound.sys hf
      exact ⟨⟨hd,Or.inl ⟨h0,hu⟩⟩,Or.inl rfl,fun _ => rfl⟩
    · obtain ⟨hd,hu,_⟩ := h.dirBlock_dataId hp hne
      exact ⟨⟨hd,Or.inr ⟨h0,rfl⟩⟩,Or.inr ⟨rfl,hu⟩,fun hk0 => absurd hk0 h0⟩
  have hlt := hb.1.2
  have hino : ∀ j < 256, inodeAt (setInodeUsed m₁ (firstFreeInode m)) j = inodeAt m j := by
    intro j hj
    rw [inodeAt_setInodeUsed hc256]
    rcases hm₁ with rfl | ⟨rfl,_⟩
    · exact inodeAt_setUsed hj
    · rfl
  have hbits : ∀ j < 256, inodeUsed (setInodeUsed m₁ (firstFreeInode m)) j =
      (decide (firstFreeInode m = j) || inodeUsed m j) := by
    intro j hj
    rw [inodeUsed_setInodeUsed]
    rcases hm₁ with rfl | ⟨rfl,_⟩
    · rw [inodeUsed_setUsed hj]
    · rfl
  have hmarks : ∀ x < 65536, used (setInodeUsed m₁ (firstFreeInode m)) x = (decide (b = x) || used m x) := by
    intro x hx
    rw [used_setInodeUsed hc256 hx]
    rcases hm₁ with rfl | ⟨rfl,hu⟩
    · rw [used_setUsed]
    · by_cases he : b = x
      · rw [← he, hu, Bool.or_true]
      · rw [decide_eq_false he, Bool.false_or]
  have hblocks : ∀ x, DataId x → blockAt (setInodeUsed m₁ (firstFreeInode m)) x = blockAt m x := by
    intro x hx
    rw [blockAt_setInodeUsed hc256 hx]
    rcases hm₁ with rfl | ⟨rfl,_⟩
    · exact blockAt_setUsed hx
    · rfl
  generalize setInodeUsed m₁ (firstFreeInode m) = m₂ at *
  generalize hcid : firstFreeInode m = c at *
  have hput : ∀ j < 256, inodeAt (withChild m₂ p (inodeAt m p) k b c name type) j = if c = j then childInode type c
      else if p = j then (inodeAt m p).withEntry k b else inodeAt m j := by
    intro j hj
    rw [withChild, inodeAt_putInode, inodeAt_putBlock hb.1 hj, inodeAt_putInode, hino j hj]
  have hat : ∀ x, DataId x → blockAt (withChild m₂ p (inodeAt m p) k b c name type) x =
      if b = x then window (putEntry (blockAt m b) k name c) 0 1024 else blockAt m x := by
    intro x hx
    rw [withChild, blockAt_putInode hc256 hx, blockAt_putBlock, blockAt_putInode hp hx, hblocks x hx, hblocks b hb.1]
  refine ⟨hk,hvac,hpack,hasEntry_false h hp habs,hb,hc256,hcfree,hcid.symm,hfirst,?_,?_,fun j hj hpj hcj => ?_,fun j hj => ?_,
    fun x hx => ?_,?_,fun x hx hbx => ?_⟩
  · rw [hput p hp, if_neg hcp, if_pos rfl]
  · rw [hput c hc256, if_pos rfl]
  · rw [hput j hj, if_neg hcj, if_neg hpj]
  · rw [withChild, inodeUsed_putInode hj, inodeUsed_putBlock hb.1 hj, inodeUsed_putInode hj, hbits j hj]
  · rw [withChild, used_putInode hc256 hx, used_putBlock hb.1 hx, used_putInode hp hx, hmarks x hx]
  · rw [hat b hb.1, if_pos rfl]
  · rw [hat x hx, if_neg hbx]

theorem Created.child_ne_parent (h : Created m p name type m' k b c) (hi : ImageInv m) (hp : p < 256)
    (hdir : (inodeAt m p).fileType = typeDirectory) : c ≠ p := by
  rintro rfl
  have hf := h.inodeFree
  rw [(hi.record c hp).marked hdir] at hf
  cases hf

/-- An inode number that is not marked used belongs to no directory. -/
theorem ImageInv.file_of_free (h : ImageInv m) {i : ℕ} (hi : i < 256) (hu : inodeUsed m i = false) :
    (inodeAt m i).fileType ≠ typeDirectory := by
  intro hd
  rw [(h.record i hi).marked hd] at hu
  cases hu

/-- The block of the parent belongs to no other inode. -/
theorem Created.sameInode (h : Created m p name type m' k b c) (hi : ImageInv m) (hp : p < 256) {j : ℕ} (hj : j < 256)
    (hpj : p ≠ j) (hcj : c ≠ j) : SameInode m m' j := by
  refine hi.sameInode hj (h.others j hj hpj hcj) (S := (b = ·)) h.blocks (fun n hn he => ?_)
  have hq : held m (tableOf m) (⟨j,hj⟩,n) = b := he.symm
  rcases h.block.2 with ⟨_,hu⟩ | ⟨_,hb⟩
  · exact hi.sound.own.fresh h.block.1.ne_zero hu _ hq
  · have hd : held m (tableOf m) (⟨p,hp⟩,.data 0) = (inodeAt m p).dirBlock := owns_data_zero
    have hpl := hi.sound.own.inj (⟨j,hj⟩,n) (⟨p,hp⟩,.data 0) (by rw [hq]; exact h.block.1.ne_zero)
      (by rw [hq, hd, hb])
    exact hpj (congrArg (fun q : Place => q.1.val) hpl).symm

end Create

/-- The checks that `fs_create` makes before it changes anything: `d` is the directory found, `name` the new name. -/
structure CreateChecked (m : Mem) (path : CStr) (tokens : List CStr) (d : ℕ) (name : CStr) : Prop where
  split : splitPath path = some (some tokens)
  valid : tokens.all isValidFileName = true
  found : (walk m tokens.dropLast).indicator = tokens.length - 1
  parent : (walk m tokens.dropLast).inodeID = d
  directory : (inodeAt m d).fileType = typeDirectory
  last : tokens.getLastD [] = name
  absent : ∀ j < 31, (inodeAt m d).live j = true → entryName (blockAt m (inodeAt m d).dirBlock) j ≠ name

theorem CreateChecked.lt {m : Mem} {path name : CStr} {tokens : List CStr} {d : ℕ} (h : CreateChecked m path tokens d name) :
    d < 256 := by
  rw [← h.parent]
  exact walk_lt m _

theorem CreateChecked.mem {m : Mem} {path name : CStr} {tokens : List CStr} {d : ℕ}
    (h : CreateChecked m path tokens d name) : name ∈ tokens := by
  have hne := splitPath_ne_nil h.split
  rw [← h.last, List.getLastD_eq_getLast?, List.getLast?_eq_some_getLast hne]
  exact List.getLast_mem hne

/-- Once its checks are passed, `fs_create` goes on below the directory found. -/
theorem CreateChecked.call_eq {s : F19FS} {path name : CStr} {tokens : List CStr} {d : ℕ} {type : FileT}
    (h : CreateChecked s.image path tokens d name) (htype : type ≠ .invalid) : fsCreate s (some path) type =
      some ((createIn s.image d (inodeAt s.image d) (walk s.image tokens.dropLast).data name type).1,
        { s with image := (createIn s.image d (inodeAt s.image d) (walk s.image tokens.dropLast).data name type).2 }) := by
  have hlt := h.lt
  obtain ⟨hsp,hval,hind,rfl,hdir,rfl,_⟩ := h
  have hne : ¬ (path = [] ∨ type = .invalid) := by
    rintro (rfl | he)
    · obtain ⟨hhead,_⟩ := splitPath_some hsp
      cases hhead
    · exact htype he
  simp only [fsCreate, if_neg hne, hsp, hval, Bool.not_true, Bool.false_eq_true, if_false, hind,
    blockStoreInodeRead_table hlt, Option.getD_some, hdir, and_self, if_true]

/-- What a call of `fs_create` that passed its checks may do. -/
theorem CreateChecked.effect {s s' : F19FS} {path name : CStr} {tokens : List CStr} {d : ℕ} {type : FileT} {ret : ℤ}
    (h : CreateChecked s.image path tokens d name) (htype : type ≠ .invalid) (hi : ImageInv s.image)
    (hc : fsCreate s (some path) type = some (ret,s')) : s'.fdTable = s.fdTable ∧
      (ret = -1 ∧ CreateStopped s.image d name ∧ s'.image = s.image ∨ ret = -1 ∧ BlockTaken s.image d s'.image ∨
        ret = 0 ∧ ∃ k b c, Created s.image d name type s'.image k b c) := by
  rw [h.call_eq htype] at hc
  obtain ⟨r,m',hr⟩ : ∃ r m', createIn s.image d (inodeAt s.image d) (walk s.image tokens.dropLast).data name type =
    (r,m') := ⟨_,_,rfl⟩
  simp only [hr] at hc
  cases hc
  refine ⟨rfl,?_⟩
  rcases createIn_created hi h.lt h.directory hr with ⟨h1,h2,h3⟩ | ⟨_,hr⟩
  · exact Or.inl ⟨h1,h2,h3⟩
  · exact Or.inr hr

/-- `fs_create` does nothing, takes a block and stops for want of an inode, or creates. -/
theorem fsCreate_effect {s s' : F19FS} {path : Option CStr} {type : FileT} {ret : ℤ} (hi : ImageInv s.image)
    (h : fsCreate s path type = some (ret,s')) : s'.fdTable = s.fdTable ∧
    (ret = -1 ∧ s'.image = s.image ∨ ∃ q tokens d name, path = some q ∧ type ≠ .invalid ∧
      CreateChecked s.image q tokens d name ∧ (ret = -1 ∧ BlockTaken s.image d s'.image ∨
        ret = 0 ∧ ∃ k b c, Created s.image d name type s'.image k b c)) := by
  rcases fsCreate_cases h with ⟨hr,rfl⟩ | ⟨q,tokens,hq,_,htype,hsp,hval,hind,hdir,hc,htab⟩
  · exact ⟨rfl,Or.inl ⟨hr,rfl⟩⟩
  have hlt := walk_lt s.image tokens.dropLast
  rw [blockStoreInodeRead_table hlt, Option.getD_some] at hdir hc
  refine ⟨htab,?_⟩
  rcases createIn_created hi hlt hdir hc.symm with ⟨hr,_,he⟩ | ⟨habs,hr⟩
  · exact Or.inl ⟨hr,he⟩
  · exact Or.inr ⟨q,tokens,_,_,hq,htype,⟨hsp,hval,hind,rfl,hdir,rfl,habs⟩,hr⟩

end LiteOSFS
