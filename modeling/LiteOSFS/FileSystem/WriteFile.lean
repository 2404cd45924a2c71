import LiteOSFS.FileSystem.WriteEffect
import LiteOSFS.FileSystem.Invariant

/-! # What fs_write does to the image

A cursor of a file of 2^31 bytes or more may have an offset past its block. From
there the writers overrun a buffer, unless they store nothing or take a fresh
direct block; what they do then they also do from the start of the block.
-/
namespace LiteOSFS
open Memory Ownership

/-- The nodes that a write visits, whatever the cursor's offset. -/
def writtenNodes (b off n : ℕ) : List Node :=
  if off ≤ 1024 then touchedNodes b off n else touchedNodes b 0 (n + off - 2 ^ 64)

theorem blankSpace_past {off n : ℕ} (ho : 1024 < off) (ho' : off < 65536) :
    blankSpace off n = min n (2 ^ 64 + 1024 - off) := by
  unfold blankSpace
  simp only
  split_ifs <;> omega

theorem blankSpace_zero (n : ℕ) : blankSpace 0 n = min n 1024 := by
  unfold blankSpace
  simp only
  split_ifs <;> omega

theorem memcpyInto_past {block src : Mem} {off len : ℕ} (ho : 1024 ≤ off) (hl : 0 < len) :
    memcpyInto block off src len = none := if_neg (by omega)

theorem memcpyInto_nothing (block src : Mem) (off : ℕ) : memcpyInto block off src 0 = some block := by
  rw [memcpyInto, if_pos (Or.inl rfl), copyIn_eq_self (fun i hi => absurd hi (Nat.not_lt_zero i))]

section Past
variable {m : Mem} {x : Inode} {b off n fuel : ℕ} {src : Mem} {res : ℕ × Mem × Inode}

theorem indirectIndex_lt (hb : 6 ≤ b) : indirectIndex b < 512 := by
  have he : ((b : ℤ) - 6).tmod 512 = ((b : ℤ) - 6) % 512 := Int.tmod_eq_emod_of_nonneg (by omega)
  rw [indirectIndex, he]
  omega

theorem writeIndirectBlock_past {id : ℕ} (hb : 6 ≤ b) (ho : 1024 < off) (ho' : off < 65536)
    (h : writeIndirectBlock (fuel + 1) m x b off src n id = some res) :
    ∃ n' ≤ 1, writeIndirectBlock (fuel + 1) m x b 0 src n' id = some res := by
  rcases Nat.eq_zero_or_pos n with rfl | hn
  · refine ⟨0,by omega,?_⟩
    have hloop : ∀ (st : IndirectWrite), st.nbyte = 0 → writeIndirectLoop 512 st = some (true,st) := by
      intro st hst
      rw [writeIndirectLoop, if_neg (by omega)]
    simp only [writeIndirectBlock, hloop] at h ⊢
    exact h
  · refine ⟨1,le_rfl,?_⟩
    have hlt := indirectIndex_lt hb
    simp only [writeIndirectBlock] at h ⊢
    cases hr : blockStoreRead m wholeStore id with
    | none =>
      simp only [hr] at h
      rw [if_neg (by omega)] at h
      cases h
    | some buffer =>
      simp only [hr] at h ⊢
      -- the first slot is either refused or overrun
      cases ht : slotTarget ⟨m,pointersOf buffer,indirectIndex b,b,off,src,n,0⟩ with
      | none =>
        have ht' : slotTarget ⟨m,pointersOf buffer,indirectIndex b,b,0,src,1,0⟩ = none := ht
        rw [writeIndirectLoop, if_pos ⟨hlt,hn⟩, ht] at h
        rw [writeIndirectLoop, if_pos ⟨hlt,Nat.one_pos⟩, ht']
        exact h
      | some target =>
        obtain ⟨blockID,image,ptrs⟩ := target
        rw [writeIndirectLoop, if_pos ⟨hlt,hn⟩, ht] at h
        have hpos : 0 < blankSpace off n := by
          rw [blankSpace_past ho ho']
          exact lt_min hn (by omega)
        simp only [memcpyInto_past ho.le hpos] at h
        cases h

theorem writeDoubleDirectBlock_past (hb : 6 ≤ b) (ho : 1024 < off) (ho' : off < 65536)
    (h : writeDoubleDirectBlock (writeIndirectBlock (fuel + 1)) m x b off src n = some res) :
    ∃ n' ≤ 1, writeDoubleDirectBlock (writeIndirectBlock (fuel + 1)) m x b 0 src n' = some res := by
  unfold writeDoubleDirectBlock at h ⊢
  cases ht : doubleTarget m x with
  | none =>
    rw [ht] at h
    exact ⟨0,by omega,h⟩
  | some target =>
    obtain ⟨id,m₁,x₁⟩ := target
    simp only [ht] at h ⊢
    cases hr : blockStoreRead m₁ wholeStore id with
    | none =>
      rw [hr] at h
      cases h
    | some buffer =>
      simp only [hr] at h ⊢
      split_ifs at h ⊢ with h1 h2 h3
      · exact ⟨0,by omega,h⟩
      · exact writeIndirectBlock_past hb ho ho' h
      · exact writeIndirectBlock_past hb ho ho' h

/-- The source as a cursor past its block spreads it: the first block, then what follows the gap. -/
def spliced (src : Mem) (gap : ℕ) : Mem := fun i => if i < 1024 then src i else src (gap + (i - 1024))

theorem shift_spliced (src : Mem) (gap : ℕ) : shift (spliced src gap) 1024 = shift src gap := by
  funext i
  rw [shift, shift, spliced, if_neg (by omega), Nat.add_sub_cancel_left]

theorem copyIn_spliced (src : Mem) (gap : ℕ) : copyIn zeros 0 1024 (spliced src gap) = copyIn zeros 0 1024 src :=
  copyIn_congr (fun _ hi => if_pos hi)

theorem directTarget_eq {l : Fin 6} {src' : Mem} (hz : x.directPointer l = 0)
    (hsrc : copyIn zeros 0 1024 src' = copyIn zeros 0 1024 src) (off off' len len' : ℕ) :
    directTarget m x l off src len = directTarget m x l off' src' len' := by
  simp only [directTarget, hz, if_true, hsrc]

/-- The same blocks are written when the gap is cut out of the source. -/
theorem writeDirectBlock_spliced {gap n' : ℕ} (hb : b < 6) (hp : x.directPointer ⟨b,hb⟩ = 0)
    (hblank : blankSpace off n = gap) (hn : n - gap ≠ 0) (hn' : n' = 1024 + (n - gap))
    (h : writeDirectBlock (fuel + 1) m x b off src n = some res) :
    ∃ r, writeDirectBlock (fuel + 1) m x b 0 (spliced src gap) n' = some (r,res.2) := by
  have hadd : ∀ {w : WriteResult} {k k' : ℕ}, addSum k w = some res → ∃ r, addSum k' w = some (r,res.2) := by
    intro w k k' hw
    obtain ⟨w',rfl,rfl⟩ := Option.map_eq_some_iff.mp hw
    exact ⟨_,rfl⟩
  have hmin : min n' 1024 = 1024 := min_eq_right (by omega)
  have hrest : n' - 1024 = n - gap := by omega
  rw [writeDirectBlock, dif_pos hb] at h ⊢
  simp only [hblank, directTarget_eq hp (copyIn_spliced src gap) off 0 gap 1024, hn, if_false] at h
  simp only [blankSpace_zero, hmin, hrest, hn, if_false, shift_spliced]
  cases ht : directTarget m x ⟨b,hb⟩ 0 (spliced src gap) 1024 with
  | none =>
    rw [ht] at h
    cases h
  | some target =>
    cases target with
    | none =>
      rw [ht] at h
      cases h
      exact ⟨0,rfl⟩
    | some target =>
      obtain ⟨blockID,block,m₁,x₁⟩ := target
      simp only [ht] at h ⊢
      split_ifs at h ⊢ with h6
      · exact hadd h
      · cases hi : indirectTarget (blockStoreWrite m₁ wholeStore blockID block).2 x₁ with
        | none =>
          rw [hi] at h
          cases h
          exact ⟨0,rfl⟩
        | some target =>
          simp only [hi] at h ⊢
          exact hadd h

theorem writeDirectBlock_past (hb : b < 6) (ho : 1024 < off) (ho' : off < 65536) (hn : n < 2 ^ 64)
    (h : writeDirectBlock (fuel + 1) m x b off src n = some res) :
    ∃ src' n' r, (n' ≤ 1024 ∨ n' = n + off - 2 ^ 64) ∧
      writeDirectBlock (fuel + 1) m x b 0 src' n' = some (r,res.2) := by
  have hfull := h
  rw [writeDirectBlock, dif_pos hb] at h
  simp only [blankSpace_past ho ho'] at h
  by_cases hz : n = 0
  · subst hz
    refine ⟨src,0,res.1,Or.inl (by omega),?_⟩
    have ht : directTarget m x ⟨b,hb⟩ off src 0 = directTarget m x ⟨b,hb⟩ 0 src 0 := by
      simp only [directTarget, memcpyInto_nothing]
    rw [writeDirectBlock, dif_pos hb]
    simp only [blankSpace_zero, Nat.zero_min, ← ht]
    simpa only [Nat.zero_min] using h
  by_cases hp : x.directPointer ⟨b,hb⟩ = 0
  · by_cases hfit : n ≤ 2 ^ 64 + 1024 - off
    · rw [directTarget_eq hp rfl off 0 _ (min n 1024)] at h
      have hmin : min (min n 1024) 1024 = min n 1024 := by rw [min_assoc, min_self]
      simp only [min_eq_left hfit, Nat.sub_self, if_true] at h
      cases ht : directTarget m x ⟨b,hb⟩ 0 src (min n 1024) with
      | none =>
        rw [ht] at h
        cases h
      | some target =>
        cases target with
        | none =>
          rw [ht] at h
          cases h
          refine ⟨src,min n 1024,0,Or.inl (by omega),?_⟩
          rw [writeDirectBlock, dif_pos hb]
          simp only [blankSpace_zero, hmin, ht]
        | some target =>
          rw [ht] at h
          cases h
          refine ⟨src,min n 1024,min n 1024,Or.inl (by omega),?_⟩
          rw [writeDirectBlock, dif_pos hb]
          simp only [blankSpace_zero, hmin, ht, Nat.sub_self, if_true]
    · obtain ⟨r,hr⟩ := writeDirectBlock_spliced hb hp (blankSpace_past ho ho') (by omega)
        (show n + off - 2 ^ 64 = 1024 + (n - min n (2 ^ 64 + 1024 - off)) by omega) hfull
      exact ⟨_,_,r,Or.inr rfl,hr⟩
  · have hpos : 0 < min n (2 ^ 64 + 1024 - off) := lt_min (by omega) (by omega)
    simp only [directTarget, if_neg hp, memcpyInto_past ho.le hpos, Option.map_none] at h
    cases h

theorem writeFrom_past {res : Option (ℕ × Mem × Inode)} (ho : 1024 < off) (ho' : off < 65536) (hn : n < 2 ^ 64)
    (h : writeFrom m x b off src n = some res) :
    ∃ src' n' res', (n' ≤ 1024 ∨ n' = n + off - 2 ^ 64) ∧ writeFrom m x b 0 src' n' = some res' ∧
      res'.map Prod.snd = res.map Prod.snd := by
  unfold writeFrom at h ⊢
  split_ifs at h ⊢ with h6 h518
  · obtain ⟨res,hd,rfl⟩ := Option.map_eq_some_iff.mp h
    obtain ⟨src',n',r,hn',hd'⟩ := writeDirectBlock_past h6 ho ho' hn hd
    exact ⟨src',n',some (r,res.2),hn',by rw [hd']; rfl,rfl⟩
  · cases ht : indirectTarget m x with
    | none =>
      rw [ht] at h
      exact ⟨src,0,res,Or.inl (by omega),h,rfl⟩
    | some target =>
      obtain ⟨id,m₁,x₁⟩ := target
      simp only [ht] at h ⊢
      obtain ⟨res,hd,rfl⟩ := Option.map_eq_some_iff.mp h
      obtain ⟨n',hn',hd'⟩ := writeIndirectBlock_past (by omega) ho ho' hd
      exact ⟨src,n',some res,Or.inl (by omega),by rw [indexRounds, hd']; rfl,rfl⟩
  · obtain ⟨res,hd,rfl⟩ := Option.map_eq_some_iff.mp h
    obtain ⟨n',hn',hd'⟩ := writeDoubleDirectBlock_past (by omega) ho ho' hd
    exact ⟨src,n',some res,Or.inl (by omega),by rw [indexRounds, hd']; rfl,rfl⟩

end Past

theorem fill_append {has : Node → Bool} {free : List ℕ} {ns rest : List Node} {p : Node × ℕ}
    (h : p ∈ fill has free ns) : p ∈ fill has free (ns ++ rest) := by
  induction ns generalizing has free with
  | nil =>
    cases free <;> cases h
  | cons n ns ih =>
    cases hn : has n with
    | true =>
      rw [fill_skip hn] at h
      rw [List.cons_append, fill_skip hn]
      exact ih h
    | false =>
      cases free with
      | nil =>
        rw [fill_nil hn] at h
        cases h
      | cons id free =>
        rw [fill_cons hn] at h
        rw [List.cons_append, fill_cons hn]
        rcases List.mem_cons.mp h with rfl | h
        · exact List.mem_cons_self
        · exact List.mem_cons_of_mem _ (ih h)

theorem Clean.left {m : Mem} {x : Inode} {ns rest : List Node} (h : Clean m x (ns ++ rest)) : Clean m x ns :=
  fun k id hk => h k id (fill_append hk)

/-- A write from past the block of its cursor does what some write from the start of it does. -/
theorem writeFrom_call {m m' : Mem} {t : Table} {i : Fin 256} {b off n r : ℕ} {src : Mem} {x' : Inode}
    (hs : Sound m t) (hfile : (t i).fileType ≠ typeDirectory) (hb : b < 65536) (ho : off < 65536) (hn : n < 2 ^ 64)
    (hc : Clean m (t i) (writtenNodes b off n)) (h : writeFrom m (t i) b off src n = some (some (r,m',x'))) :
    ∃ off' n' src' sum, Ready m t i b off' n' ∧ WriteCall m (t i) b off' src' n' sum m' x' := by
  by_cases hoff : off ≤ 1024
  · rw [writtenNodes, if_pos hoff] at hc
    have hr : Ready m t i b off n := ⟨hs,hfile,hb,hoff,hn,hc⟩
    obtain ⟨sum,hw,_⟩ := writeFrom_wrote hr h
    exact ⟨off,n,src,sum,hr,hw⟩
  · rw [writtenNodes, if_neg hoff] at hc
    obtain ⟨src',n',res',hn',hw,he⟩ := writeFrom_past (by omega) ho hn h
    have hN : n + off - 2 ^ 64 < 2 ^ 64 := by omega
    generalize n + off - 2 ^ 64 = N at hc hn' hN
    have hc' : Clean m (t i) (touchedNodes b 0 n') := by
      rcases hn' with hle | rfl
      · have hpath : touchedNodes b 0 n' = pathTo b := by
          rw [touchedNodes, show (0 + max n' 1 - 1) / 1024 = 0 by omega]
          simp
        obtain ⟨rest,hrest,_⟩ := touchedNodes_step (b := b) (n := N) (Nat.zero_le 1024)
        rw [hrest] at hc
        rw [hpath]
        exact hc.left
      · exact hc
    have hr : Ready m t i b 0 n' := ⟨hs,hfile,hb,Nat.zero_le 1024,by omega,hc'⟩
    obtain ⟨⟨r',m₁,x₁⟩,rfl,hsnd⟩ := Option.map_eq_some_iff.mp he
    cases hsnd
    obtain ⟨sum,hcall,_⟩ := writeFrom_wrote hr hw
    exact ⟨0,n',src',sum,hr,hcall⟩

/-- The image and the inode after `fs_write`, before the inode is stored. -/
theorem writeFrom_extends {m : Mem} {t : Table} {i : Fin 256} {b off n : ℕ} {src : Mem}
    {res : Option (ℕ × Mem × Inode)} (hs : Sound m t) (hfile : (t i).fileType ≠ typeDirectory) (hb : b < 65536)
    (ho : off < 65536) (hn : n < 2 ^ 64) (hc : Clean m (t i) (writtenNodes b off n))
    (h : writeFrom m (t i) b off src n = some res) :
    Extends m t i ((res.map (·.2.1)).getD m) ((res.map (·.2.2)).getD (t i)) := by
  cases res with
  | none => exact Extends.refl hs
  | some res =>
    obtain ⟨r,m',x'⟩ := res
    obtain ⟨_,_,_,_,hr,hw⟩ := writeFrom_call hs hfile hb ho hn hc h
    exact (hw.effect hr).ext

theorem owns_size {m : Mem} {x : Inode} {size : UInt64} (n : Node) :
    owns m { x with fileSize := size } n = owns m x n := owns_top_congr rfl (fun n => by cases n <;> rfl) n

/-- The inode of a file is stored after its blocks were extended. -/
theorem Extends.storeInode {m m' : Mem} {i : Fin 256} {x' : Inode} (h : ImageInv m) (he : Extends m (tableOf m) i m' x')
    (hfile : (inodeAt m i).fileType ≠ typeDirectory) (size : UInt64) :
    ImageInv (putInode m' i { x' with fileSize := size }) ∧ SysSteps m (putInode m' i { x' with fileSize := size }) := by
  have hi := i.isLt
  have htype : x'.fileType ≠ typeDirectory := by
    rw [attributes_fileType he.attrs]
    exact hfile
  refine ⟨⟨?_,fun j hj => ?_,?_⟩,he.steps.trans (SysSteps.putInode hi _)⟩
  · rw [tableOf_putInode hi, tableOf_congr he.inodes]
    have hs : Sound m' (Function.update (tableOf m) i { x' with fileSize := size }) := by
      refine ⟨he.sound.sys,he.sound.own.congrTable (fun j n => ?_)⟩
      by_cases hj : j = i
      · subst hj
        rw [Function.update_self, Function.update_self, owns_size]
      · rw [Function.update_of_ne hj, Function.update_of_ne hj]
    exact hs.congr (fun b hb => used_putInode hi hb) (fun b hb => blockAt_putInode hi hb)
  · rw [inodeAt_putInode]
    split_ifs with hij
    · exact ⟨fun hd => absurd hd htype,fun hd => absurd hd htype,fun hd => absurd hd htype⟩
    · rw [he.inodes j hj]
      exact (h.record j hj).congr (fun hu => by rwa [inodeUsed_putInode hj, he.inodeBits j hj])
  · rw [inodeAt_putInode]
    split_ifs with h0
    · exact absurd (h0 ▸ h.root) hfile
    · rw [he.inodes 0 (by omega)]
      exact h.root

/-- `fs_write` stops, stores nothing for want of an index block, or stores what the writers return. -/
theorem fsWrite_cases {s s' : F19FS} {fd : ℤ} {src : Option Mem} {nbyte : UInt64} {ret : ℤ}
    (h : fsWrite s fd src nbyte = some (ret,s')) :
    ((ret < 0 ∧ (src = none ∨ ¬ (0 ≤ fd ∧ fd < 256 ∧ s.isOpen fd.toNat = true))) ∧ s' = s) ∨
    ∃ src₀ res, src = some src₀ ∧ 0 ≤ fd ∧ fd < 256 ∧ s.isOpen fd.toNat = true ∧
      writeFrom s.image (s.inode (s.descriptor fd.toNat).inodeNum.toNat)
        (s.descriptor fd.toNat).locateOrder.toNat (s.descriptor fd.toNat).locateOffset.toNat src₀ nbyte.toNat =
        some res ∧
      ((res = none ∧ ret = 0 ∧ s' = s) ∨
        ∃ r m' x', res = some (r,m',x') ∧ ret = r ∧
          s'.image = putInode m' (s.descriptor fd.toNat).inodeNum.toNat
            { x' with fileSize := x'.fileSize + UInt64.ofNat r } ∧
          s'.fdTable = (s.storeDescriptor fd.toNat (updateFD (s.descriptor fd.toNat) r)).fdTable) := by
  cases src with
  | none =>
    cases h
    exact Or.inl ⟨⟨by decide,Or.inl rfl⟩,rfl⟩
  | some src₀ =>
    have hi : (s.descriptor fd.toNat).inodeNum.toNat < 256 := UInt8.toNat_lt _
    simp only [fsWrite] at h
    by_cases hfd : fd < 0 ∨ fd ≥ 256
    · rw [if_pos hfd] at h
      cases h
      exact Or.inl ⟨⟨by decide,Or.inr (fun ho => by omega)⟩,rfl⟩
    rw [if_neg hfd] at h
    cases hopen : s.isOpen fd.toNat with
    | false =>
      simp only [hopen, Bool.not_false, if_true] at h
      cases h
      exact Or.inl ⟨⟨by decide,Or.inr (by simp)⟩,rfl⟩
    | true =>
      simp only [hopen, Bool.not_true, Bool.false_eq_true, if_false] at h
      cases hw : writeFrom s.image (s.inode (s.descriptor fd.toNat).inodeNum.toNat)
          (s.descriptor fd.toNat).locateOrder.toNat (s.descriptor fd.toNat).locateOffset.toNat src₀
          nbyte.toNat with
      | none =>
        rw [hw] at h
        cases h
      | some res =>
        refine Or.inr ⟨src₀,res,rfl,by omega,by omega,rfl,hw,?_⟩
        cases res with
        | none =>
          rw [hw] at h
          cases h
          exact Or.inl ⟨rfl,rfl,rfl⟩
        | some res =>
          obtain ⟨r,m',x'⟩ := res
          simp only [hw, blockStoreInodeWrite_table hi] at h
          cases h
          exact Or.inr ⟨r,m',x',rfl,rfl,rfl,rfl⟩

/-- The descriptor's inode is no directory, and the second-level index blocks that the write takes are
zero-filled. -/
def WriteSafe (s : F19FS) (fd : ℤ) (nbyte : UInt64) : Prop :=
  0 ≤ fd → fd < 256 → s.isOpen fd.toNat = true →
    (s.inode (s.descriptor fd.toNat).inodeNum.toNat).fileType ≠ typeDirectory ∧
    Clean s.image (s.inode (s.descriptor fd.toNat).inodeNum.toNat)
      (writtenNodes (s.descriptor fd.toNat).locateOrder.toNat (s.descriptor fd.toNat).locateOffset.toNat nbyte.toNat)

theorem writeSafe_of_low {s : F19FS} {fd : ℤ} {nbyte : UInt64}
    (hfile : (s.inode (s.descriptor fd.toNat).inodeNum.toNat).fileType ≠ typeDirectory)
    (hoff : (s.descriptor fd.toNat).locateOffset.toNat ≤ 1024)
    (h : (s.descriptor fd.toNat).locateOrder.toNat +
      ((s.descriptor fd.toNat).locateOffset.toNat + max nbyte.toNat 1 - 1) / 1024 < 518) : WriteSafe s fd nbyte := by
  refine fun _ _ _ => ⟨hfile,?_⟩
  rw [writtenNodes, if_pos hoff]
  exact clean_of_low h

theorem fsWrite_extends {s s' : F19FS} {fd : ℤ} {src : Option Mem} {nbyte : UInt64} {ret : ℤ}
    (hi : ImageInv s.image) (hsafe : WriteSafe s fd nbyte) (h : fsWrite s fd src nbyte = some (ret,s')) :
    s' = s ∨ 0 ≤ fd ∧ fd < 256 ∧
    ∃ i m' x' size, i = (s.descriptor fd.toNat).inodeNum.toNat ∧ ∃ hlt : i < 256,
      (inodeAt s.image i).fileType ≠ typeDirectory ∧ Extends s.image (tableOf s.image) ⟨i,hlt⟩ m' x' ∧
      s'.image = putInode m' i { x' with fileSize := size } ∧
      s'.fdTable = (s.storeDescriptor fd.toNat (updateFD (s.descriptor fd.toNat) ret)).fdTable := by
  rcases fsWrite_cases h with ⟨_,rfl⟩ | ⟨src₀,res,_,hlo,hhi,hopen,hw,⟨_,_,rfl⟩ | ⟨r,m',x',rfl,rfl,him,hfd⟩⟩
  · exact Or.inl rfl
  · exact Or.inl rfl
  · obtain ⟨hfile,hc⟩ := hsafe hlo hhi hopen
    have hlt : (s.descriptor fd.toNat).inodeNum.toNat < 256 := UInt8.toNat_lt _
    have hext := writeFrom_extends (i := ⟨_,hlt⟩) hi.sound hfile (UInt16.toNat_lt _) (UInt16.toNat_lt _)
      (UInt64.toNat_lt _) hc hw
    exact Or.inr ⟨hlo,hhi,_,m',x',_,rfl,hlt,hfile,hext,him,hfd⟩

theorem fsWrite_inv {s s' : F19FS} {fd : ℤ} {src : Option Mem} {nbyte : UInt64} {ret : ℤ} (hi : ImageInv s.image)
    (hsafe : WriteSafe s fd nbyte) (h : fsWrite s fd src nbyte = some (ret,s')) :
    ImageInv s'.image ∧ SysSteps s.image s'.image := by
  rcases fsWrite_extends hi hsafe h with rfl | ⟨_,_,i,m',x',size,_,hlt,hfile,hext,him,_⟩
  · exact ⟨hi,Relation.ReflTransGen.refl⟩
  · rw [him]
    exact hext.storeInode hi hfile size

end LiteOSFS
