import LiteOSFS.FileSystem.Lookup

/-! # What fs_create does to the image -/
namespace LiteOSFS
open Memory CString Ownership

/-- A directory's record after an entry was marked at slot `k` and its block is `b`. -/
def Inode.withEntry (x : Inode) (k b : ℕ) : Inode :=
  { x with
    vacantFile := UInt32.ofNat (x.vacantFile.toNat ||| 1 <<< k)
    directPointer := Function.update x.directPointer firstDirect (UInt16.ofNat b) }

/-- The image once a child is stored. -/
def withChild (m : Mem) (parentID : ℕ) (parent : Inode) (k b child : ℕ) (name : CStr) (type : FileT) : Mem :=
  putInode (putBlock (putInode m parentID (parent.withEntry k b)) b (putEntry (blockAt m b) k name child)) child
    (childInode type child)

theorem Inode.live_withEntry (x : Inode) {k b j : ℕ} (hk : k < 31) (hj : j < 31) :
    (x.withEntry k b).live j = (x.live j || decide (k = j)) := by
  rw [live_eq _ hj, live_eq _ hj, withEntry]
  simp only
  have hlt : x.vacantFile.toNat ||| 1 <<< k < 2 ^ 32 :=
    Nat.or_lt_two_pow x.vacantFile.toNat_lt
      (by rw [Nat.one_shiftLeft]; exact Nat.pow_lt_pow_right (by omega) (by omega))
  rw [UInt32.toNat_ofNat', Nat.mod_eq_of_lt hlt, Nat.testBit_or, Nat.one_shiftLeft, Nat.testBit_two_pow]

theorem Inode.dirBlock_withEntry (x : Inode) {k b : ℕ} (hb : b < 65536) : (x.withEntry k b).dirBlock = b := by
  show (Function.update x.directPointer firstDirect (UInt16.ofNat b) firstDirect).toNat = b
  rw [Function.update_self, UInt16.toNat_ofNat', Nat.mod_eq_of_lt hb]

/-- The first vacant slot, or 31 in a full directory. -/
theorem firstClear_spec (x : Inode) : firstClear x ≤ 31 ∧ (firstClear x < 31 → x.live (firstClear x) = false) ∧
    ∀ j < firstClear x, x.live j = true := by
  unfold firstClear
  cases hf : (List.range 31).find? (fun k => !x.vacantBit k) with
  | none =>
    have hall := List.find?_range_eq_none.mp hf
    refine ⟨le_rfl,fun h => absurd h (by simp),fun j hj => ?_⟩
    have hj' := hall j hj
    rw [x.vacantBit_eq hj] at hj'
    simpa using hj'
  | some k =>
    obtain ⟨hp,hmem,hall⟩ := List.find?_range_eq_some.mp hf
    have hk := List.mem_range.mp hmem
    rw [x.vacantBit_eq hk] at hp
    refine ⟨hk.le,fun _ => by simpa using hp,fun j hj => ?_⟩
    have hj : j < k := hj
    have hj' := hall j hj
    rw [x.vacantBit_eq (by omega)] at hj'
    simpa using hj'

section Create
variable {m : Mem}

theorem firstFreeInode_congr {m m' : Mem} (h : ∀ i < 256, inodeUsed m i = inodeUsed m' i) :
    firstFreeInode m = firstFreeInode m' := bitmapFfz_congr h

theorem storeChild_eq {parentID child k b : ℕ} {parent parent₁ : Inode} {data : Mem} {name : CStr} {type : FileT}
    (hp : parentID < 256) (hchild : child < 256) (hb : DataId b)
    (hP : { parent₁ with vacantFile := UInt32.ofNat (parent₁.vacantFile.toNat ||| 1 <<< k) } = parent.withEntry k b) :
    storeChild m parentID parent₁ data k child name type = withChild m parentID parent k b child name type := by
  have hlt := hb.2
  simp only [storeChild, hP, blockStoreInodeWrite_table hp, blockStoreInodeWrite_table hchild,
    parent.dirBlock_withEntry (k := k) (b := b) (by omega), blockStoreRead_data hlt.le, Option.getD_some,
    blockStoreWrite_data hlt.le, blockAt_putInode hp hb]
  rfl

theorem hasEntry_iff (h : ImageInv m) {p : ℕ} (hp : p < 256) (data : Mem) (name : CStr) :
    hasEntry m (inodeAt m p) data name = true ↔
      ∃ j < 31, (inodeAt m p).live j = true ∧ entryName (blockAt m (inodeAt m p).dirBlock) j = name := by
  rw [hasEntry, blockStoreRead_data (h.dirBlock_le hp), Option.getD_some, List.any_eq_true]
  refine exists_congr (fun j => ?_)
  rw [List.mem_range]
  refine and_congr_right (fun hj => ?_)
  rw [Inode.vacantBit_eq _ hj, Bool.and_eq_true, beq_iff_eq]

/-- Why `fs_create` stops below its parent and leaves the image as it was. -/
inductive CreateStopped (m : Mem) (p : ℕ) (name : CStr) : Prop where
  | taken {j : ℕ} : j < 31 → (inodeAt m p).live j = true → entryName (blockAt m (inodeAt m p).dirBlock) j = name →
      CreateStopped m p name
  | noBlock : (inodeAt m p).live 0 = false → firstFree m = sizeMax → CreateStopped m p name
  | noInode : (inodeAt m p).live 0 = true → firstFreeInode m = sizeMax → CreateStopped m p name
  | full : (∀ j < 31, (inodeAt m p).live j = true) → CreateStopped m p name

/-- The cases of `fs_create` below its parent. -/
theorem createIn_cases (h : ImageInv m) {parentID : ℕ} (hp : parentID < 256)
    (hdir : (inodeAt m parentID).fileType = typeDirectory) {data : Mem} {name : CStr} {type : FileT} {ret : ℤ}
    {m' : Mem} (hc : createIn m parentID (inodeAt m parentID) data name type = (ret,m')) :
    (ret = -1 ∧ CreateStopped m parentID name ∧ m' = m) ∨
    (ret = -1 ∧ (hasEntry m (inodeAt m parentID) data name = false ∧ (inodeAt m parentID).live 0 = false ∧
      firstFreeInode m = sizeMax ∧ firstFree m ≠ sizeMax) ∧ m' = setUsed m (firstFree m)) ∨
    ∃ k < 31, ∃ b m₁, ret = 0 ∧ hasEntry m (inodeAt m parentID) data name = false ∧
      (inodeAt m parentID).live k = false ∧ (∀ j < k, (inodeAt m parentID).live j = true) ∧
      (k = 0 ∧ firstFree m ≠ sizeMax ∧ b = firstFree m ∧ m₁ = setUsed m b ∨
        k ≠ 0 ∧ b = (inodeAt m parentID).dirBlock ∧ b ≠ 0 ∧ m₁ = m) ∧
      firstFreeInode m ≠ sizeMax ∧
      m' = withChild (setInodeUsed m₁ (firstFreeInode m)) parentID (inodeAt m parentID) k b (firstFreeInode m)
        name type := by
  obtain ⟨hk31,hkfree,hkall⟩ := firstClear_spec (inodeAt m parentID)
  rw [createIn] at hc
  cases he : hasEntry m (inodeAt m parentID) data name with
  | true =>
    rw [he, if_pos rfl] at hc
    cases hc
    obtain ⟨j,hj,hlive,hname⟩ := (hasEntry_iff h hp data name).mp he
    exact Or.inl ⟨rfl,CreateStopped.taken hj hlive hname,rfl⟩
  | false =>
    rw [he, if_neg Bool.false_ne_true] at hc
    generalize hk : firstClear (inodeAt m parentID) = k at *
    by_cases h0 : k = 0
    · by_cases hf : firstFree m = sizeMax
      · have hs : ¬ sizeMax < 65528 := by decide
        simp only [h0, if_true, blockStoreAllocate_whole, hf, hs, not_false_eq_true, and_self] at hc
        cases hc
        rw [h0] at hkfree
        exact Or.inl ⟨rfl,CreateStopped.noBlock (hkfree (by omega)) hf,rfl⟩
      · have hff := (firstFree_spec h.sound.sys hf).1
        have hic : firstFreeInode (setUsed m (firstFree m)) = firstFreeInode m :=
          firstFreeInode_congr (fun i hi => inodeUsed_setUsed hi)
        have h31 : (0 : ℕ) < 31 := by omega
        simp only [h0, if_true, blockStoreAllocate_whole, hf, if_false, hff.2, not_true_eq_false, and_false,
          h31, blockStoreAllocate_inode, hic] at hc
        by_cases hi : firstFreeInode m = sizeMax
        · simp only [hi, if_true] at hc
          cases hc
          rw [h0] at hkfree
          exact Or.inr (Or.inl ⟨rfl,⟨rfl,hkfree h31,hi,hf⟩,rfl⟩)
        · simp only [hi, if_false] at hc
          cases hc
          refine Or.inr (Or.inr ⟨0,h31,firstFree m,setUsed m (firstFree m),rfl,rfl,?_,by omega,
            Or.inl ⟨rfl,hf,rfl,rfl⟩,hi,?_⟩)
          · rw [h0] at hkfree
            exact hkfree h31
          · exact storeChild_eq hp (firstFreeInode_spec hi).1 hff rfl
    · simp only [h0, if_false, false_and] at hc
      by_cases h31 : k < 31
      · simp only [h31, if_true, blockStoreAllocate_inode] at hc
        by_cases hi : firstFreeInode m = sizeMax
        · simp only [hi, if_true] at hc
          cases hc
          exact Or.inl ⟨rfl,CreateStopped.noInode (hkall 0 (by omega)) hi,rfl⟩
        · simp only [hi, if_false] at hc
          cases hc
          have hne : (inodeAt m parentID).dirBlock ≠ 0 :=
            (h.record parentID hp).block hdir 0 (by omega) (hkall 0 (by omega))
          refine Or.inr (Or.inr ⟨k,h31,(inodeAt m parentID).dirBlock,m,rfl,rfl,hkfree h31,hkall,
            Or.inr ⟨h0,rfl,hne,rfl⟩,hi,?_⟩)
          apply storeChild_eq hp (firstFreeInode_spec hi).1 (h.dirBlock_dataId hp hne).1
          have he : Function.update (inodeAt m parentID).directPointer firstDirect
              ((inodeAt m parentID).directPointer firstDirect) = (inodeAt m parentID).directPointer :=
            Function.update_eq_self firstDirect _
          rw [Inode.withEntry, Inode.dirBlock, UInt16.ofNat_toNat, he]
      · rw [if_neg h31] at hc
        cases hc
        exact Or.inl ⟨rfl,CreateStopped.full (fun j hj => hkall j (by omega)),rfl⟩

/-- A directory block is written. -/
theorem putDirBlock_inv (h : ImageInv m) {i : ℕ} (hi : i < 256) (hne : (inodeAt m i).dirBlock ≠ 0) (c : Mem) :
    ImageInv (putBlock m (inodeAt m i).dirBlock c) ∧ SysSteps m (putBlock m (inodeAt m i).dirBlock c) := by
  obtain ⟨hid,_,hh⟩ := h.dirBlock_dataId hi hne
  refine ⟨h.putBlock hid (fun q n j hp hq => ?_),SysSteps.putBlock hid c⟩
  rw [← hh]
  exact not_index_of_data h.sound.own rfl n j hp hq

theorem owns_childInode {type : FileT} {c : ℕ} (n : Node) : owns m (childInode type c) n = 0 := by
  have hz : nodePtr m (childInode type c) n = 0 := by
    cases n with
    | data b =>
      simp only [nodePtr, Inode.top, childInode, Inode.cleared]
      split_ifs <;> rfl
    | _ => rfl
  unfold owns
  split_ifs
  · rfl
  · exact hz

theorem withChild_inv (h : ImageInv m) {parentID child k b : ℕ} (name : CStr) (type : FileT) (hp : parentID < 256)
    (hdir : (inodeAt m parentID).fileType = typeDirectory) (hc : child < 256) (hc0 : child ≠ 0)
    (hcu : inodeUsed m child = true) (hb : Allocated m b)
    (hfree : (∀ q, held m (tableOf m) q ≠ b) ∨ b = (inodeAt m parentID).dirBlock) :
    ImageInv (withChild m parentID (inodeAt m parentID) k b child name type) ∧
      SysSteps m (withChild m parentID (inodeAt m parentID) k b child name type) := by
  have hlt := hb.1.2
  have hPdir : ((inodeAt m parentID).withEntry k b).fileType = typeDirectory := hdir
  have hPb : ((inodeAt m parentID).withEntry k b).dirBlock = b := Inode.dirBlock_withEntry _ (by omega)
  have hs : Sound m (Function.update (tableOf m) ⟨parentID,hp⟩ ((inodeAt m parentID).withEntry k b)) := by
    rcases hfree with hfree | he
    · exact h.sound.updateBlock hPdir (by rwa [hPb]) (by rwa [hPb])
    · refine h.sound.updateDrop (fun n => ?_)
      by_cases hn : n = .data 0
      · right
        rw [hn, owns_data_zero, owns_data_zero, ← Inode.dirBlock, hPb, he]
        rfl
      · exact Or.inl (owns_of_directory hPdir hn)
  have hrec : RecordOk m parentID ((inodeAt m parentID).withEntry k b) :=
    ⟨fun _ => (h.record parentID hp).self hdir,fun _ => (h.record parentID hp).marked hdir,
      fun _ _ _ _ => by rw [hPb]; exact hb.1.ne_zero⟩
  have h₁ := h.putInode hp hs hrec (fun _ => hPdir)
  have hat : inodeAt (putInode m parentID ((inodeAt m parentID).withEntry k b)) parentID =
      (inodeAt m parentID).withEntry k b := by rw [inodeAt_putInode, if_pos rfl]
  obtain ⟨h₂,hs₂⟩ := putDirBlock_inv h₁ hp (by rw [hat, hPb]; exact hb.1.ne_zero)
    (putEntry (blockAt m b) k name child)
  rw [hat, hPb] at h₂ hs₂
  refine ⟨h₂.putInode hc (h₂.sound.updateDrop (fun n => Or.inl (owns_childInode n))) ⟨fun _ => ?_,fun _ => ?_,?_⟩
    (fun h0 => absurd h0 hc0),((SysSteps.putInode hp _).trans hs₂).trans (SysSteps.putInode hc _)⟩
  · rw [childInode]
    simp only
    rw [UInt64.toNat_ofNat', Nat.mod_eq_of_lt (by omega)]
  · rw [inodeUsed_putBlock hb.1 hc, inodeUsed_putInode hc]
    exact hcu
  · intro _ j hj hl
    rw [Inode.live_eq _ hj] at hl
    simp [childInode, Inode.cleared] at hl

theorem createIn_inv (h : ImageInv m) {parentID : ℕ} (hp : parentID < 256)
    (hdir : (inodeAt m parentID).fileType = typeDirectory) (data : Mem) (name : CStr) (type : FileT) :
    ImageInv (createIn m parentID (inodeAt m parentID) data name type).2 ∧
      SysSteps m (createIn m parentID (inodeAt m parentID) data name type).2 := by
  obtain ⟨ret,m',hc⟩ : ∃ ret m', createIn m parentID (inodeAt m parentID) data name type = (ret,m') := ⟨_,_,rfl⟩
  rw [hc]
  rcases createIn_cases h hp hdir hc with ⟨_,_,rfl⟩ | ⟨_,⟨_,_,_,hf⟩,rfl⟩ | ⟨k,hk,b,m₁,_,_,_,_,hblock,hi,rfl⟩
  · exact ⟨h,Relation.ReflTransGen.refl⟩
  · exact ⟨h.setUsed _,SysSteps.setUsed hf⟩
  · obtain ⟨hc256,hcfree,_⟩ := firstFreeInode_spec hi
    have hc0 : firstFreeInode m ≠ 0 := by
      intro h0
      rw [h0, (h.record 0 (by omega)).marked h.root] at hcfree
      cases hcfree
    have h₁ : ImageInv m₁ ∧ SysSteps m m₁ ∧ (∀ i < 256, inodeUsed m₁ i = inodeUsed m i) ∧
        (∀ i < 256, inodeAt m₁ i = inodeAt m i) ∧ Allocated m₁ b ∧
        ((∀ q, held m₁ (tableOf m₁) q ≠ b) ∨ b = (inodeAt m parentID).dirBlock) := by
      rcases hblock with ⟨_,hf,rfl,rfl⟩ | ⟨_,rfl,hne,rfl⟩
      · obtain ⟨hd,hu,_⟩ := firstFree_spec h.sound.sys hf
        have ht : tableOf (setUsed m (firstFree m)) = tableOf m := tableOf_congr (fun i hi => inodeAt_setUsed hi)
        refine ⟨h.setUsed _,SysSteps.setUsed hf,fun i hi => inodeUsed_setUsed hi,fun i hi => inodeAt_setUsed hi,
          ⟨hd,by rw [used_setUsed, decide_eq_true rfl, Bool.true_or]⟩,Or.inl (fun q => ?_)⟩
        rw [ht, held_setUsed h.sound.own]
        exact h.sound.own.fresh hd.ne_zero hu q
      · obtain ⟨hd,hu,_⟩ := h.dirBlock_dataId hp hne
        exact ⟨h,Relation.ReflTransGen.refl,fun _ _ => rfl,fun _ _ => rfl,⟨hd,hu⟩,Or.inr rfl⟩
    obtain ⟨hinv,hsteps,hbits,hinodes,hal,hfree⟩ := h₁
    have hi₁ : firstFreeInode m₁ = firstFreeInode m := firstFreeInode_congr hbits
    have h₂ := hinv.setInodeUsed (i := firstFreeInode m) hc256
    have hs₂ : SysSteps m₁ (setInodeUsed m₁ (firstFreeInode m)) := hi₁ ▸ SysSteps.setInodeUsed (by rwa [hi₁])
    have hat : ∀ i < 256, inodeAt (setInodeUsed m₁ (firstFreeInode m)) i = inodeAt m i :=
      fun i hlt => by rw [inodeAt_setInodeUsed hc256, hinodes i hlt]
    have ht₂ : tableOf (setInodeUsed m₁ (firstFreeInode m)) = tableOf m₁ :=
      tableOf_congr (fun _ _ => inodeAt_setInodeUsed hc256)
    have hb65 := hal.1.2
    have hheld : ∀ q, held (setInodeUsed m₁ (firstFreeInode m)) (tableOf m₁) q = held m₁ (tableOf m₁) q :=
      fun q => (held_congr (fun q _ _ _ hne =>
        (blockAt_setInodeUsed hc256 (hinv.sound.own.dataId hne)).symm) q).symm
    obtain ⟨h₃,hs₃⟩ := withChild_inv h₂ (k := k) (b := b) name type hp (by rwa [hat _ hp]) hc256
      hc0 (by rw [inodeUsed_setInodeUsed, decide_eq_true rfl, Bool.true_or])
      ⟨hal.1,by rw [used_setInodeUsed hc256 (by omega)]; exact hal.2⟩ (by
        rw [hat _ hp, ht₂]
        exact hfree.imp (fun hq q => by rw [hheld]; exact hq q) id)
    rw [hat _ hp] at h₃ hs₃
    exact ⟨h₃,(hsteps.trans hs₂).trans hs₃⟩

end Create

/-- `fs_create` stops, or creates below the parent that its walk found. -/
theorem fsCreate_cases {s s' : F19FS} {path : Option CStr} {type : FileT} {ret : ℤ}
    (h : fsCreate s path type = some (ret,s')) : (ret = -1 ∧ s' = s) ∨
    ∃ p tokens, path = some p ∧ p ≠ [] ∧ type ≠ .invalid ∧ splitPath p = some (some tokens) ∧
      tokens.all isValidFileName = true ∧ (walk s.image tokens.dropLast).indicator = tokens.length - 1 ∧
      ((blockStoreInodeRead s.image inodeStore (walk s.image tokens.dropLast).inodeID).getD
        Inode.cleared).fileType = typeDirectory ∧
      (ret,s'.image) = createIn s.image (walk s.image tokens.dropLast).inodeID
        ((blockStoreInodeRead s.image inodeStore (walk s.image tokens.dropLast).inodeID).getD Inode.cleared)
        (walk s.image tokens.dropLast).data (tokens.getLastD []) type ∧ s'.fdTable = s.fdTable := by
  unfold fsCreate at h
  cases path with
  | none =>
    cases h
    exact Or.inl ⟨rfl,rfl⟩
  | some p =>
    simp only at h
    by_cases hbad : p = [] ∨ type = .invalid
    · rw [if_pos hbad] at h
      cases h
      exact Or.inl ⟨rfl,rfl⟩
    rw [if_neg hbad] at h
    obtain ⟨hne,htype⟩ := not_or.mp hbad
    cases hsp : splitPath p with
    | none =>
      rw [hsp] at h
      cases h
    | some r =>
      cases r with
      | none =>
        rw [hsp] at h
        cases h
        exact Or.inl ⟨rfl,rfl⟩
      | some tokens =>
        simp only [hsp] at h
        cases hall : tokens.all isValidFileName with
        | false =>
          rw [hall] at h
          cases h
          exact Or.inl ⟨rfl,rfl⟩
        | true =>
          simp only [hall, Bool.not_true, Bool.false_eq_true, if_false] at h
          split_ifs at h with hcond
          · cases h
            exact Or.inr ⟨p,tokens,rfl,hne,htype,hsp,hall,hcond.1,hcond.2,rfl,rfl⟩
          · cases h
            exact Or.inl ⟨rfl,rfl⟩

/-- The walk stays among the inode numbers of one byte. -/
theorem walk_lt (m : Mem) (tokens : List CStr) : (walk m tokens).inodeID < 256 := by
  have hstep : ∀ (w : Walk) (token : CStr), w.inodeID < 256 → (walkStep m w token).inodeID < 256 := by
    intro w token hw
    unfold walkStep
    simp only
    split_ifs with hd
    · generalize (blockStoreRead m wholeStore ((blockStoreInodeRead m inodeStore w.inodeID).getD
        Inode.cleared).dirBlock).getD w.data = data
      generalize (blockStoreInodeRead m inodeStore w.inodeID).getD Inode.cleared = parent
      have hfold : ∀ (l : List ℕ) (w : Walk), w.inodeID < 256 → (l.foldl (fun w j =>
          if parent.vacantBit j && entryName data j == token then
            { w with inodeID := entryInode data j, indicator := w.indicator + 1 }
          else w) w).inodeID < 256 := by
        intro l
        induction l with
        | nil => exact fun _ hw => hw
        | cons j l ih =>
          intro w hw
          apply ih
          dsimp only
          split_ifs
          · exact entryInode_lt data j
          · exact hw
      exact hfold _ _ hw
    · exact hw
  have hfold : ∀ (tokens : List CStr) (w : Walk), w.inodeID < 256 → (tokens.foldl (walkStep m) w).inodeID < 256 := by
    intro tokens
    induction tokens with
    | nil => exact fun _ hw => hw
    | cons token tokens ih => exact fun w hw => ih _ (hstep w token hw)
  exact hfold tokens _ (by simp)

theorem fsCreate_inv {s s' : F19FS} {path : Option CStr} {type : FileT} {ret : ℤ} (hi : ImageInv s.image)
    (h : fsCreate s path type = some (ret,s')) : ImageInv s'.image ∧ SysSteps s.image s'.image := by
  rcases fsCreate_cases h with ⟨_,rfl⟩ | ⟨p,tokens,_,_,_,_,_,_,hdir,hc,_⟩
  · exact ⟨hi,Relation.ReflTransGen.refl⟩
  · have hlt := walk_lt s.image tokens.dropLast
    rw [blockStoreInodeRead_table hlt, Option.getD_some] at hdir hc
    have hm : s'.image = (createIn s.image _ _ _ _ _).2 := congrArg Prod.snd hc
    rw [hm]
    exact createIn_inv hi hlt hdir _ _ _

end LiteOSFS
