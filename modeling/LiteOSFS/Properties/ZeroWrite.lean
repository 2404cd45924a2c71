import LiteOSFS.Properties.ShortWrite
import LiteOSFS.Properties.StoreCalls

/-! # Writes of no bytes

With `nbyte` 0 the writers still look up the block of the cursor: the direct
block, or the index blocks above it. What is there stays as it is, what is not
there is allocated.
-/
namespace LiteOSFS
open Memory Transition Ownership

/-- The blocks that a write of no bytes at logical block `b` looks up. -/
def zeroPath (b : ℕ) : List Node := if b < 6 then [.data b] else (pathTo b).dropLast

/-- When a write of no bytes changes nothing: all blocks that it looks up are there, or none is free; and
the cursor has not been left at the end of its block, where `updateFD` moves it to the next one, or `fs_write`
returns before that. -/
def ZeroWriteGuard (s : F19FS) (fd : ℤ) : Prop :=
  ((∀ n ∈ zeroPath (s.descriptor fd.toNat).locateOrder.toNat, nodePtr s.image (s.inode (s.fileOf fd)) n ≠ 0) ∨
    firstFree s.image = sizeMax) ∧ (s.descriptor fd.toNat).locateOffset ≠ 1024 ∨
  firstFree s.image = sizeMax ∧ 6 ≤ (s.descriptor fd.toNat).locateOrder.toNat ∧
    (s.descriptor fd.toNat).locateOrder.toNat < 518 ∧ nodePtr s.image (s.inode (s.fileOf fd)) .ind = 0

section Levels
variable {m : Mem} {x : Inode} {b off id : ℕ} {src : Mem}

theorem blankSpace_nothing : blankSpace off 0 = 0 := by
  simp only [blankSpace]
  split_ifs <;> omega

theorem firstFree_lt (h : firstFree m ≠ sizeMax) : firstFree m < 65528 := by
  rcases bitmapFfz_spec m wholeStore.fbm with ⟨he,_⟩ | ⟨hlt,_,_⟩
  · exact absurd he h
  · exact hlt

theorem firstFree_unused (h : firstFree m ≠ sizeMax) : used m (firstFree m) = false := by
  rcases bitmapFfz_spec m wholeStore.fbm with ⟨he,_⟩ | ⟨_,hf,_⟩
  · exact absurd he h
  · exact hf

theorem used_putBlock_low {c : Mem} {j : ℕ} (hid : id < 65528) (hj : j < 65536) : used (putBlock m id c) j = used m j :=
  used_congr (copyIn_agreeOn (by omega)) hj

/-- Storing a block as it was read, or past the end, changes nothing. -/
theorem blockStoreWrite_same (c : Mem) (h : id ≤ 65528 → c = blockAt m id) :
    (blockStoreWrite m wholeStore id c).2 = m := by
  by_cases hid : id ≤ 65528
  · rw [blockStoreWrite_data hid, h hid]
    exact putBlock_blockAt m id
  · rw [blockStoreWrite_past (by omega)]

/-- An index block is written back as it was read. -/
theorem writeIndirectBlock_zero (fuel : ℕ) :
    writeIndirectBlock (fuel + 1) m x b off src 0 id = some (0,m,x) := by
  rw [writeIndirectBlock]
  cases hr : blockStoreRead m wholeStore id with
  | none => rfl
  | some buffer =>
    have hbuf : id ≤ 65528 → pointerBytes (pointersOf buffer) = blockAt m id := by
      intro hid
      rw [blockStoreRead_data hid] at hr
      cases hr
      exact pointerBytes_pointersOf _
    have hloop : ∀ st : IndirectWrite, st.nbyte = 0 → writeIndirectLoop 512 st = some (true,st) := by
      intro st h0
      rw [writeIndirectLoop, if_neg (by omega)]
    simp only [hloop ⟨m,pointersOf buffer,indirectIndex b,b,off,src,0,0⟩ rfl, Bool.not_true, Bool.false_or,
      decide_true, if_true, blockStoreWrite_same _ hbuf]

/-- The cases of the direct level: nothing to do, nothing left, or a block taken. -/
theorem writeDirectBlock_zero (m : Mem) (x : Inode) (off : ℕ) (src : Mem) (hb : b < 6) (fuel : ℕ) :
    if nodePtr m x (.data b) ≠ 0 ∨ firstFree m = sizeMax then
      writeDirectBlock (fuel + 1) m x b off src 0 = some (0,m,x)
    else ∃ m' x', writeDirectBlock (fuel + 1) m x b off src 0 = some (0,m',x') ∧ used m' (firstFree m) = true := by
  have hptr : nodePtr m x (.data b) = (x.directPointer ⟨b,hb⟩).toNat := by
    rw [nodePtr, if_pos hb, Inode.top, dif_pos hb]
  rw [writeDirectBlock, dif_pos hb]
  simp only [blankSpace_nothing, Nat.sub_self, if_true]
  by_cases hz : x.directPointer ⟨b,hb⟩ = 0
  · have hn : ¬ nodePtr m x (.data b) ≠ 0 := by
      rw [hptr, hz]
      simp
    by_cases hf : firstFree m = sizeMax
    · rw [if_pos (Or.inr hf)]
      simp only [directTarget, hz, if_true, blockStoreAllocate_whole, hf]
    · rw [if_neg (not_or.mpr ⟨hn,hf⟩)]
      simp only [directTarget, hz, if_true, blockStoreAllocate_whole, hf, if_false]
      refine ⟨_,_,rfl,?_⟩
      rw [blockStoreWrite_data (firstFree_lt hf).le, used_putBlock_low (firstFree_lt hf)
        ((firstFree_lt hf).trans (by omega)), used_setUsed, decide_eq_true rfl, Bool.true_or]
  · have hn : nodePtr m x (.data b) ≠ 0 := by
      rw [hptr]
      exact fun he => hz (UInt16.toNat_inj.mp he)
    have hsame : (blockStoreWrite m wholeStore (x.directPointer ⟨b,hb⟩).toNat
        ((blockStoreRead m wholeStore (x.directPointer ⟨b,hb⟩).toNat).getD zeros)).2 = m := by
      apply blockStoreWrite_same
      intro hid
      rw [blockStoreRead_data hid, Option.getD_some]
    have hcopy : ∀ c, memcpyInto c off src 0 = some c := by
      intro c
      rw [memcpyInto, if_pos (Or.inl rfl), copyIn_eq_self (fun i hi => absurd hi (Nat.not_lt_zero i))]
    rw [if_pos (Or.inl hn)]
    simp only [directTarget, if_neg hz, hcopy, Option.map_some, hsame]

/-- A fresh index block is below the bitmap, so clearing it leaves it marked. -/
theorem allocateIndirectPtrBlock_fresh (h : firstFree m ≠ sizeMax) :
    allocateIndirectPtrBlock m = (firstFree m,putBlock (setUsed m (firstFree m)) (firstFree m) zeros) ∧
      used (putBlock (setUsed m (firstFree m)) (firstFree m) zeros) (firstFree m) = true := by
  have hlt := firstFree_lt h
  constructor
  · simp only [allocateIndirectPtrBlock, blockStoreAllocate_whole, h, if_false]
    rw [blockStoreWrite_data hlt.le]
  · rw [used_putBlock_low hlt (by omega), used_setUsed, decide_eq_true rfl, Bool.true_or]

theorem indirectTarget_zero : (indirectTarget m x = none ∧ nodePtr m x .ind = 0 ∧ firstFree m = sizeMax) ∨
    (indirectTarget m x = some (nodePtr m x .ind,m,x) ∧ nodePtr m x .ind ≠ 0) ∨
    ∃ m' x', indirectTarget m x = some (firstFree m,m',x') ∧ nodePtr m x .ind = 0 ∧ firstFree m ≠ sizeMax ∧
      used m' (firstFree m) = true := by
  have hptr : nodePtr m x .ind = x.indirectPointer.toNat := rfl
  by_cases hz : x.indirectPointer = 0
  · rw [hptr, hz]
    by_cases hf : firstFree m = sizeMax
    · left
      simp only [indirectTarget, hz, if_true, allocateIndirectPtrBlock_full hf, hf]
      exact ⟨trivial,rfl,trivial⟩
    · obtain ⟨ha,hu⟩ := allocateIndirectPtrBlock_fresh hf
      refine Or.inr (Or.inr ⟨_,{ x with indirectPointer := UInt16.ofNat (firstFree m) },?_,rfl,hf,hu⟩)
      simp only [indirectTarget, hz, if_true, ha, hf, if_false]
  · rw [hptr]
    exact Or.inr (Or.inl ⟨if_neg hz,fun he => hz (UInt16.toNat_inj.mp he)⟩)

theorem doubleTarget_zero : (doubleTarget m x = none ∧ nodePtr m x .dbl = 0 ∧ firstFree m = sizeMax) ∨
    (doubleTarget m x = some (nodePtr m x .dbl,m,x) ∧ nodePtr m x .dbl ≠ 0) ∨
    ∃ x', doubleTarget m x = some (firstFree m,putBlock (setUsed m (firstFree m)) (firstFree m) zeros,x') ∧
      nodePtr m x .dbl = 0 ∧ firstFree m ≠ sizeMax := by
  have hptr : nodePtr m x .dbl = x.doubleIndirectPointer.toNat := rfl
  by_cases hz : x.doubleIndirectPointer = 0
  · rw [hptr, hz]
    by_cases hf : firstFree m = sizeMax
    · left
      simp only [doubleTarget, hz, if_true, allocateIndirectPtrBlock_full hf, hf]
      exact ⟨trivial,rfl,trivial⟩
    · refine Or.inr (Or.inr ⟨{ x with doubleIndirectPointer := UInt16.ofNat (firstFree m) },?_,rfl,hf⟩)
      simp only [doubleTarget, hz, if_true, (allocateIndirectPtrBlock_fresh hf).1, hf, if_false]
  · rw [hptr]
    exact Or.inr (Or.inl ⟨if_neg hz,fun he => hz (UInt16.toNat_inj.mp he)⟩)

/-- The double-indirect level, its index block `id` read and the second-level slot looked up. -/
theorem writeDouble_zero (fuel off : ℕ) (src : Mem) {m₁ : Mem} {x₁ : Inode} (hb : 518 ≤ b) (hlt : b < 65536) (hid : id < 65528)
    (ht : doubleTarget m x = some (id,m₁,x₁)) :
    if (pointersOf (blockAt m₁ id) ((b - 518) / 512)) ≠ 0 ∨ firstFree m₁ = sizeMax then
      writeDoubleDirectBlock (writeIndirectBlock (fuel + 1)) m x b off src 0 = some (0,m₁,x₁)
    else ∃ m', writeDoubleDirectBlock (writeIndirectBlock (fuel + 1)) m x b off src 0 = some (0,m',x₁) ∧
      ∀ j < 65528, used m' j = (decide (firstFree m₁ = j) || used m₁ j) := by
  have hindex := doubleIndex_eq hb
  have hrange : ¬ (doubleIndex b < 0 ∨ doubleIndex b ≥ 512) := by
    rw [hindex]
    omega
  have hnat : (doubleIndex b).toNat = (b - 518) / 512 := by rw [hindex, Int.toNat_natCast]
  rw [writeDoubleDirectBlock, ht]
  simp only [blockStoreRead_data hid.le, if_neg hrange, hnat]
  by_cases hz : pointersOf (blockAt m₁ id) ((b - 518) / 512) = 0
  · simp only [hz, ne_eq, not_true_eq_false, false_or, if_true]
    by_cases hf : firstFree m₁ = sizeMax
    · simp only [hf, if_true, blockStoreAllocate_whole]
    · simp only [hf, if_false, blockStoreAllocate_whole, writeIndirectBlock_zero]
      refine ⟨_,rfl,fun j hj => ?_⟩
      rw [blockStoreWrite_data hid.le, used_putBlock_low hid (by omega), used_setUsed]
  · rw [if_pos (Or.inl hz), if_neg hz, writeIndirectBlock_zero]

/-- What a write of no bytes does, on whatever level: return early, return, or mark a block. -/
theorem writeFrom_zero (off : ℕ) (src : Mem) (hlt : b < 65536) (hd : 518 ≤ b → nodePtr m x .dbl < 65528) :
    (writeFrom m x b off src 0 = some none ∧ firstFree m = sizeMax ∧ 6 ≤ b ∧ b < 518 ∧ nodePtr m x .ind = 0) ∨
    (writeFrom m x b off src 0 = some (some (0,m,x)) ∧
      ((∀ n ∈ zeroPath b, nodePtr m x n ≠ 0) ∨ firstFree m = sizeMax) ∧
      ¬ (6 ≤ b ∧ b < 518 ∧ nodePtr m x .ind = 0)) ∨
    ∃ m' x', writeFrom m x b off src 0 = some (some (0,m',x')) ∧ used m' (firstFree m) = true ∧
      firstFree m ≠ sizeMax ∧ ∃ n ∈ zeroPath b, nodePtr m x n = 0 := by
  by_cases h6 : b < 6
  · have hpath : zeroPath b = [.data b] := if_pos h6
    have hw := writeDirectBlock_zero m x off src h6 5
    rw [writeFrom, if_pos h6, hpath]
    simp only [List.mem_singleton, forall_eq, exists_eq_left]
    split_ifs at hw with hc
    · rw [hw]
      exact Or.inr (Or.inl ⟨rfl,hc,fun h => absurd h.1 (by omega)⟩)
    · obtain ⟨m',x',hw,hu⟩ := hw
      rw [not_or, not_not] at hc
      rw [hw]
      exact Or.inr (Or.inr ⟨m',x',rfl,hu,hc.2,hc.1⟩)
  by_cases h518 : b < 518
  · have hpath : zeroPath b = [.ind] := by
      rw [zeroPath, if_neg h6, pathTo, if_neg h6, if_pos h518]
      rfl
    rw [writeFrom, if_neg h6, if_pos h518, hpath]
    simp only [List.mem_singleton, forall_eq, exists_eq_left]
    rcases indirectTarget_zero (m := m) (x := x) with ⟨ht,hn,hf⟩ | ⟨ht,hn⟩ | ⟨m',x',ht,hn,hf,hu⟩
    · rw [ht]
      exact Or.inl ⟨rfl,hf,by omega,h518,hn⟩
    · rw [ht]
      simp only [indexRounds, writeIndirectBlock_zero, Option.map_some]
      exact Or.inr (Or.inl ⟨trivial,Or.inl hn,fun h => hn h.2.2⟩)
    · rw [ht]
      simp only [indexRounds, writeIndirectBlock_zero, Option.map_some]
      exact Or.inr (Or.inr ⟨m',x',rfl,hu,hf,hn⟩)
  · have hpath : zeroPath b = [.dbl,.sec ((b - 518) / 512)] := by
      rw [zeroPath, if_neg h6, pathTo, if_neg h6, if_neg h518]
      rfl
    have hb : 518 ≤ b := by omega
    rw [writeFrom, if_neg h6, if_neg h518, hpath]
    simp only [List.mem_cons, List.not_mem_nil, or_false, forall_eq_or_imp, forall_eq, exists_eq_or_imp,
      exists_eq_left]
    right
    rcases doubleTarget_zero (m := m) (x := x) with ⟨ht,hn,hf⟩ | ⟨ht,hn⟩ | ⟨x',ht,hn,hf⟩
    · rw [writeDoubleDirectBlock, ht]
      exact Or.inl ⟨rfl,Or.inr hf,fun h => h518 h.2.1⟩
    · have hsec : nodePtr m x (.sec ((b - 518) / 512)) =
          (pointersOf (blockAt m (nodePtr m x .dbl)) ((b - 518) / 512)).toNat := if_neg hn
      have hw := writeDouble_zero 129 off src hb hlt (hd hb) ht
      have hzero : pointersOf (blockAt m (nodePtr m x .dbl)) ((b - 518) / 512) = 0 ↔
          nodePtr m x (.sec ((b - 518) / 512)) = 0 := by
        rw [hsec]
        exact UInt16.toNat_inj.symm
      simp only [ne_eq, hzero] at hw
      split_ifs at hw with hc
      · rw [indexRounds, hw]
        exact Or.inl ⟨rfl,hc.imp_left (fun h => ⟨hn,h⟩),fun h => h518 h.2.1⟩
      · obtain ⟨m',hw,hu⟩ := hw
        rw [not_or, not_not] at hc
        rw [indexRounds, hw]
        exact Or.inr ⟨m',x,rfl,by rw [hu _ (firstFree_lt hc.2), decide_eq_true rfl, Bool.true_or],hc.2,Or.inr hc.1⟩
    · have hw := writeDouble_zero 129 off src hb hlt (firstFree_lt hf) ht
      have hu := (allocateIndirectPtrBlock_fresh hf).2
      right
      split_ifs at hw with hc
      · rw [indexRounds, hw]
        exact ⟨_,_,rfl,hu,hf,Or.inl hn⟩
      · obtain ⟨m',hw,hu'⟩ := hw
        rw [indexRounds, hw]
        exact ⟨_,_,rfl,by rw [hu' _ (firstFree_lt hf), hu, Bool.or_true],hf,Or.inl hn⟩

end Levels

section Write
variable {s : F19FS} {fd : ℤ}

/-- What `fs_write` makes of the result of its writers. -/
def written (s : F19FS) (fd : ℤ) : Option (ℕ × Mem × Inode) → ℤ × F19FS
  | none => (0,s)
  | some (sum,m,x) => (sum,⟨putInode m (s.fileOf fd) { x with fileSize := x.fileSize + UInt64.ofNat sum },
      putDescriptor s.fdTable fd.toNat (updateFD (s.descriptor fd.toNat) sum)⟩)

theorem fsWrite_opened (h : s.Opened fd) (src : Mem) (nbyte : UInt64) : fsWrite s fd (some src) nbyte =
    (writeFrom s.image (s.inode (s.fileOf fd)) (s.descriptor fd.toNat).locateOrder.toNat
      (s.descriptor fd.toNat).locateOffset.toNat src nbyte.toNat).map (written s fd) := by
  have hi : (s.descriptor fd.toNat).inodeNum.toNat < 256 := UInt8.toNat_lt _
  rw [fsWrite, if_neg h.not_range, h.2.2]
  simp only [Bool.not_true, Bool.false_eq_true, if_false, F19FS.fileOf]
  cases writeFrom s.image (s.inode (s.descriptor fd.toNat).inodeNum.toNat) (s.descriptor fd.toNat).locateOrder.toNat
      (s.descriptor fd.toNat).locateOffset.toNat src nbyte.toNat with
  | none => rfl
  | some res =>
    cases res with
    | none => rfl
    | some res =>
      obtain ⟨sum,m,x⟩ := res
      simp only [storeDescriptor_image, storeDescriptor_fdTable h.lt, blockStoreInodeWrite_table hi, Option.map_some,
        written, F19FS.fileOf]

theorem updateFD_zero (d : FileDescriptor) : updateFD d 0 =
    if d.locateOffset = 1024 then { d with locateOrder := UInt16.ofInt (d.locateOrder.toNat + 1), locateOffset := 0 }
    else d := by
  have hoff : UInt16.ofInt ((d.locateOffset.toNat : ℤ) + 0) = d.locateOffset := by
    rw [Int.add_zero, ofInt_natCast, UInt16.ofNat_toNat]
  rw [updateFD, if_pos (by omega)]
  simp only [hoff]

/-- Nothing written leaves the state but for the cursor. -/
theorem written_zero : written s fd (some (0,s.image,s.inode (s.fileOf fd))) = (0,s) ↔
    (s.descriptor fd.toNat).locateOffset ≠ 1024 := by
  have hx : ({ s.inode (s.fileOf fd) with fileSize := (s.inode (s.fileOf fd)).fileSize + UInt64.ofNat 0 } : Inode) =
      inodeAt s.image (s.fileOf fd) := Inode.ext rfl rfl rfl rfl rfl (UInt64.add_zero _) rfl rfl rfl rfl
  rw [written, hx, putInode_inodeAt]
  constructor
  · intro he hoff
    have hd : (F19FS.mk s.image (putDescriptor s.fdTable fd.toNat (updateFD (s.descriptor fd.toNat) 0))).descriptor
        fd.toNat = updateFD (s.descriptor fd.toNat) 0 := (descriptor_putDescriptor _).trans (if_pos rfl)
    have hs := (Prod.ext_iff.mp he).2
    simp only [Nat.cast_zero] at hs
    rw [hs, updateFD_zero, if_pos hoff] at hd
    have h0 := congrArg FileDescriptor.locateOffset hd
    rw [hoff] at h0
    cases h0
  · intro hoff
    have hsame : putDescriptor s.fdTable fd.toNat (s.descriptor fd.toNat) = s.fdTable := by
      apply copyIn_eq_self
      intro i hi
      rw [F19FS.descriptor, FileDescriptor.toBytes_ofBytes _ hi, window_apply_lt hi]
    rw [Nat.cast_zero, updateFD_zero, if_neg hoff, hsame]

end Write

/-- In every state whose double-indirect pointer, where it is used, names a block. -/
theorem zero_write {s : F19FS} {fd : ℤ} (src : Mem) (ho : s.Opened fd)
    (hd : 518 ≤ (s.descriptor fd.toNat).locateOrder.toNat → nodePtr s.image (s.inode (s.fileOf fd)) .dbl < 65528) :
    fsWrite s fd (some src) 0 = some (0,s) ↔ ZeroWriteGuard s fd := by
  rw [fsWrite_opened ho, ZeroWriteGuard]
  rcases writeFrom_zero (s.descriptor fd.toNat).locateOffset.toNat src
    (UInt16.toNat_lt (s.descriptor fd.toNat).locateOrder) hd with ⟨hw,hearly⟩ | ⟨hw,hc,hearly⟩ | ⟨m',x',hw,hu,hf,hmiss⟩
  · rw [show (0 : UInt64).toNat = 0 from rfl, hw]
    exact iff_of_true rfl (Or.inr hearly)
  · rw [show (0 : UInt64).toNat = 0 from rfl, hw, Option.map_some, Option.some_inj, written_zero]
    exact ⟨fun h => Or.inl ⟨hc,h⟩,fun h => h.elim And.right (fun h => absurd h.2 hearly)⟩
  · rw [show (0 : UInt64).toNat = 0 from rfl, hw, Option.map_some, Option.some_inj]
    refine iff_of_false (fun he => ?_) ?_
    · have him := congrArg F19FS.image (Prod.ext_iff.mp he).2
      have hlt := firstFree_lt hf
      have hmark : used (written s fd (some (0,m',x'))).2.image (firstFree s.image) = used m' (firstFree s.image) :=
        used_putInode (s.fileOf fd).isLt (by omega)
      rw [him, hu, firstFree_unused hf] at hmark
      cases hmark
    · obtain ⟨n,hn,hn0⟩ := hmiss
      rintro (⟨hall | hfull,_⟩ | ⟨hfull,_⟩)
      · exact hall n hn hn0
      · exact hf hfull
      · exact hf hfull

theorem zero_write_inside : ∃ s, run step fsFormat [.create (pathArg ['/','a']) .regular,
    .openFile (pathArg ['/','a']),.write 0 (some zeros) 5] = some s ∧ fsWrite s 0 (some zeros) 0 = some (0,s) := by
  have hs : (run step fsFormat [.create (pathArg ['/','a']) .regular,.openFile (pathArg ['/','a']),
      .write 0 (some zeros) 5]).map (fun s : F19FS => s.isOpen 0 && decide ((s.descriptor 0).locateOrder.toNat = 0 ∧
        (s.descriptor 0).locateOffset ≠ 1024) && decide (nodePtr s.image (s.inode (s.fileOf 0)) (.data 0) ≠ 0)) =
      some true := by
    decide +kernel
  obtain ⟨s,hs,hf⟩ := Option.map_eq_some_iff.mp hs
  simp only [Bool.and_eq_true, decide_eq_true_eq] at hf
  obtain ⟨⟨hopen,horder,hoff⟩,hn⟩ := hf
  have ho : (s.descriptor (0 : ℤ).toNat).locateOrder.toNat = 0 := horder
  refine ⟨s,hs,(zero_write zeros ⟨le_rfl,by decide,hopen⟩ (fun h => ?_)).mpr (Or.inl ⟨Or.inl ?_,hoff⟩)⟩
  · rw [ho] at h
    omega
  · rw [ho]
    simpa [zeroPath] using hn

/-- A write of no bytes to a new file takes block 18. -/
theorem zero_write_fails : ¬ ∀ (s : F19FS) (fd : ℤ) (src : Mem), Reachable s → s.Opened fd →
    fsWrite s fd (some src) 0 = some (0,s) := by
  intro h
  have hs : (run step fsFormat [.create (pathArg ['/','a']) .regular,.openFile (pathArg ['/','a'])]).map
      (fun s : F19FS => s.isOpen 0 && !used s.image 18 &&
        (fsWrite s 0 (some zeros) 0).all (fun r => used r.2.image 18)) = some true := by
    decide +kernel
  obtain ⟨s,hs,hf⟩ := Option.map_eq_some_iff.mp hs
  simp only [Bool.and_eq_true, Bool.not_eq_true'] at hf
  obtain ⟨⟨hopen,hfree⟩,hmark⟩ := hf
  have hr : Reachable s := reach_of_guarded_run (by simp [Safe]) hs
  rw [h s 0 zeros hr ⟨le_rfl,by decide,hopen⟩, Option.all_some, hfree] at hmark
  cases hmark

end LiteOSFS
