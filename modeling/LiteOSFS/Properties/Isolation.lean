import LiteOSFS.FileSystem.Namespace

/-! # Exclusive ownership and write isolation

In every run of safe calls no block is held at two places, and a write changes
nothing but its own file and descriptor. A file that reaches the double-indirect
level over a recycled block does not keep to its own blocks.
-/
namespace LiteOSFS
open Memory CString Ownership Transition

/-- Every block number that the inodes and their index blocks hold is a data block, is marked used and is
held at one place only. -/
theorem blocks_exclusive {s : F19FS} (h : Reachable s) {q : Place} (hq : held s.image (tableOf s.image) q ≠ 0) :
    (17 ≤ held s.image (tableOf s.image) q ∧ held s.image (tableOf s.image) q < 65528) ∧
      used s.image (held s.image (tableOf s.image) q) = true ∧
      ∀ q', held s.image (tableOf s.image) q' = held s.image (tableOf s.image) q → q' = q := by
  obtain ⟨hd,hu⟩ := h.inv.sound.own.holds q hq
  exact ⟨hd,hu,fun q' he => (h.inv.sound.own.inj q q' hq he.symm).symm⟩

/-- Places that hold blocks after 7000 bytes were written to `/a`: the root's block, six direct blocks and the index
block with a seventh. -/
def writtenPlaces : List Place := [(0,.data 0),(1,.data 0),(1,.data 1),(1,.data 2),(1,.data 3),(1,.data 4),(1,.data 5),
  (1,.ind),(1,.data 6)]

theorem blocks_exclusive_written : ∃ s, run step fsFormat [.create (pathArg ['/','a']) .regular,
      .openFile (pathArg ['/','a']),.write 0 (some zeros) 7000] = some s ∧
    writtenPlaces.map (held s.image (tableOf s.image)) = [17,18,19,20,21,22,23,24,25] ∧
    ∀ q ∈ writtenPlaces, ∀ q', held s.image (tableOf s.image) q' = held s.image (tableOf s.image) q → q' = q := by
  have hrun : (run (checked plain step) fsFormat [.create (pathArg ['/','a']) .regular,.openFile (pathArg ['/','a']),
      .write 0 (some zeros) 7000]).map (fun s => decide (writtenPlaces.map (held s.image (tableOf s.image)) =
        [17,18,19,20,21,22,23,24,25])) = some true := by
    decide +kernel
  obtain ⟨s,hs,hr⟩ := Option.map_eq_some_iff.mp hrun
  have hheld := of_decide_eq_true hr
  refine ⟨s,run_of_checked hs,hheld,fun q hq => (blocks_exclusive (reachable_of_plain hs) (fun h0 => ?_)).2.2⟩
  have hmem := List.mem_map_of_mem (f := held s.image (tableOf s.image)) hq
  rw [hheld, h0] at hmem
  exact absurd hmem (by decide)

/-- Bytes that read as the number 17 in every slot of an index block. -/
def dirty : Mem := fun i => if i % 2 = 0 then 17 else 0

/-- File `a` gets two blocks of such bytes, file `b` one block. -/
def dirtyRun : List Call := [.create (pathArg ['/','a']) .regular,.create (pathArg ['/','b']) .regular,
  .openFile (pathArg ['/','a']),.openFile (pathArg ['/','b']),.write 0 (some dirty) 2048,.write 1 (some zeros) 1024]

/-- The first block of `b` is written again, which adds to its size. -/
def overwrite : List Call := [.seek 1 0 .set,.write 1 (some zeros) 1024]

/-- The state with another size of inode 2. -/
def sized (s : F19FS) (size : ℕ) : F19FS :=
  F19FS.mk (putInode s.image 2 { inodeAt s.image 2 with fileSize := UInt64.ofNat size }) s.fdTable

/-- The size of `b` grows to 518 blocks, the cursor goes there, and `a` gives its blocks back. -/
def recycleRun : List Call := dirtyRun ++ (List.replicate 517 overwrite).flatten ++
  [.seek 1 530432 .set,.remove (pathArg ['/','a'])]

/-- Descriptor 1 stands after the first block of inode 2, which is block 20 and zero-filled. -/
structure AfterFirst (s : F19FS) : Prop where
  isOpen : s.isOpen 1 = true
  cursor : s.descriptor 1 = ⟨2,1,1,0⟩
  block : (inodeAt s.image 2).directPointer 0 = 20
  bytes : ∀ k < 1024, blockAt s.image 20 k = 0

theorem AfterFirst.seek {s : F19FS} (h : AfterFirst s) (size : ℕ) : fsSeek (sized s size) 1 0 .set =
    some (0,F19FS.mk (sized s size).image (putDescriptor s.fdTable 1 ⟨2,1,0,0⟩)) := by
  have hopen : (sized s size).isOpen (1 : ℤ).toNat = true := h.isOpen
  have hd : (sized s size).descriptor (1 : ℤ).toNat = ⟨2,1,1,0⟩ := h.cursor
  have htarget : ∀ fileSize, seekTarget ⟨2,1,1,0⟩ fileSize (0 : Int64).toInt .set = some 0 := fun _ => rfl
  have hcut : ∀ fileSize, cutBoundary fileSize 0 = 0 := fun _ => by rw [cutBoundary, if_pos le_rfl]
  have hup : updateFD ⟨2,1,0,0⟩ 0 = ⟨2,1,0,0⟩ := by apply FileDescriptor.ext <;> decide
  rw [fsSeek, if_neg (by omega), hopen, if_neg (by simp), if_neg (by simp)]
  simp only [hd, htarget, hcut, hup]
  rw [F19FS.storeDescriptor, blockStoreFdWrite_table (by decide)]
  rfl

theorem AfterFirst.write {s : F19FS} (h : AfterFirst s) (size : ℕ) :
    fsWrite (F19FS.mk (sized s size).image (putDescriptor s.fdTable 1 ⟨2,1,0,0⟩)) 1 (some zeros) 1024 =
      some (1024,sized s (size + 1024)) := by
  obtain ⟨t,ht⟩ : ∃ t, t = F19FS.mk (sized s size).image (putDescriptor s.fdTable 1 ⟨2,1,0,0⟩) := ⟨_,rfl⟩
  have hopen : t.isOpen (1 : ℤ).toNat = true := by
    rw [ht, isOpen_putDescriptor _ (by decide)]
    exact h.isOpen
  have hd : t.descriptor (1 : ℤ).toNat = ⟨2,1,0,0⟩ := by
    rw [ht, descriptor_putDescriptor, if_pos (by decide)]
  have hx : t.inode 2 = { inodeAt s.image 2 with fileSize := UInt64.ofNat size } := by
    rw [F19FS.inode, ht, sized, inodeAt_putInode, if_pos rfl]
  have hb : blockAt t.image 20 = blockAt s.image 20 := by
    rw [ht]
    exact blockAt_putInode (by decide) (by decide)
  have hput : putBlock t.image 20 (copyIn (blockAt s.image 20) 0 1024 zeros) = t.image := by
    rw [← hb, putBlock_congr (c := blockAt t.image 20), putBlock_blockAt]
    intro k hk
    rw [hb, copyIn_inside (by omega) (by omega), h.bytes k hk]
    rfl
  have hw : writeFrom t.image (t.inode 2) 0 0 zeros 1024 = some (some (1024,t.image,t.inode 2)) := by
    have hp : (t.inode 2).directPointer 0 = 20 := by rw [hx]; exact h.block
    have hblank : blankSpace 0 1024 = 1024 := by decide
    have htarget : directTarget t.image (t.inode 2) ⟨0,by decide⟩ 0 zeros 1024 =
        some (some (20,copyIn (blockAt s.image 20) 0 1024 zeros,t.image,t.inode 2)) := by
      have hp' : (t.inode 2).directPointer ⟨0,by decide⟩ = 20 := hp
      rw [directTarget, hp', if_neg (by decide)]
      have h20 : (20 : UInt16).toNat = 20 := rfl
      simp only [h20]
      rw [blockStoreRead_data (by decide), Option.getD_some, memcpyInto_eq (by decide), hb]
      rfl
    rw [writeFrom, if_pos (by decide), writeDirectBlock, dif_pos (by decide)]
    simp only [hblank, htarget]
    rw [blockStoreWrite_data (by decide)]
    simp only [hput, Nat.sub_self, if_true, Option.map_some]
  have hup : updateFD ⟨2,1,0,0⟩ 1024 = ⟨2,1,1,0⟩ := by apply FileDescriptor.ext <;> decide
  rw [← ht, fsWrite]
  simp only
  rw [if_neg (by omega), hopen, if_neg (by simp)]
  have h2 : (2 : UInt8).toNat = 2 := rfl
  have h0 : (0 : UInt16).toNat = 0 := rfl
  have hn : (1024 : UInt64).toNat = 1024 := rfl
  simp only [hd, h2, h0, hn, hw]
  rw [blockStoreInodeWrite_table (by decide)]
  have htab : (F19FS.mk t.image t.fdTable).storeDescriptor (1 : ℤ).toNat (updateFD ⟨2,1,0,0⟩ ((1024 : ℕ) : ℤ)) =
      F19FS.mk t.image s.fdTable := by
    have hu : updateFD ⟨2,1,0,0⟩ ((1024 : ℕ) : ℤ) = s.descriptor 1 := by rw [h.cursor]; exact hup
    rw [hu, F19FS.storeDescriptor, blockStoreFdWrite_table (by decide), ht]
    congr 1
    exact putDescriptor_putDescriptor s.image _
  rw [htab]
  have himg : putInode t.image 2 { t.inode 2 with fileSize := (t.inode 2).fileSize + UInt64.ofNat 1024 } =
      (sized s (size + 1024)).image := by
    rw [hx, ht, sized, sized, putInode_putInode, UInt64.ofNat_add]
  rw [himg]
  rfl

theorem run_append {s : F19FS} (cs ds : List Call) :
    run step s (cs ++ ds) = (run step s cs).bind (fun s' => run step s' ds) := List.foldlM_append

theorem AfterFirst.overwrites {s : F19FS} (h : AfterFirst s) (size n : ℕ) :
    run step (sized s size) (List.replicate n overwrite).flatten = some (sized s (size + n * 1024)) := by
  induction n generalizing size with
  | zero =>
    rw [Nat.zero_mul]
    rfl
  | succ n ih =>
    have ho : run step (sized s size) overwrite = some (sized s (size + 1024)) := by
      have hs : step (sized s size) (.seek 1 0 .set) =
          some (F19FS.mk (sized s size).image (putDescriptor s.fdTable 1 ⟨2,1,0,0⟩)) := by
        rw [step, call, h.seek]
        rfl
      have hw : step (F19FS.mk (sized s size).image (putDescriptor s.fdTable 1 ⟨2,1,0,0⟩))
          (.write 1 (some zeros) 1024) = some (sized s (size + 1024)) := by
        rw [step, call, h.write]
        rfl
      simp only [run, overwrite, List.foldlM_cons, List.foldlM_nil, hs, Option.bind_eq_bind, Option.bind_some, hw]
      rfl
    rw [List.replicate_succ, List.flatten_cons, run_append, ho, Option.bind_some, ih]
    congr 2
    omega

theorem dirtyRun_cursor : (run step fsFormat dirtyRun).map (fun s : F19FS => s.isOpen 1 &&
    decide ((s.descriptor 1).inodeNum = 2 ∧ (s.descriptor 1).usage = 1) &&
    decide ((s.descriptor 1).locateOrder = 1 ∧ (s.descriptor 1).locateOffset = 0)) = some true := by decide +kernel

theorem dirtyRun_block : (run step fsFormat dirtyRun).map (fun s : F19FS =>
    decide ((inodeAt s.image 2).directPointer 0 = 20 ∧ (inodeAt s.image 2).fileSize = 1024) &&
    decide (∀ k : ℕ, k < 1024 → blockAt s.image 20 k = 0)) = some true := by decide +kernel

theorem dirtyRun_overwrites (n : ℕ) : run step fsFormat (dirtyRun ++ (List.replicate n overwrite).flatten) =
    (run step fsFormat dirtyRun).map (fun s => sized s (1024 + n * 1024)) := by
  rw [run_append]
  obtain ⟨s,hs,hc⟩ := Option.map_eq_some_iff.mp dirtyRun_cursor
  obtain ⟨s',hs',hb⟩ := Option.map_eq_some_iff.mp dirtyRun_block
  obtain rfl : s = s' := Option.some.inj (hs.symm.trans hs')
  simp only [Bool.and_eq_true, decide_eq_true_eq] at hc hb
  obtain ⟨⟨hopen,hnum,huse⟩,horder,hoffset⟩ := hc
  obtain ⟨⟨hblock,hsize⟩,hbytes⟩ := hb
  have h : AfterFirst s := ⟨hopen,FileDescriptor.ext hnum huse horder hoffset,hblock,hbytes⟩
  have hself : sized s 1024 = s := by
    have hx : ({ inodeAt s.image 2 with fileSize := UInt64.ofNat 1024 } : Inode) = inodeAt s.image 2 :=
      Inode.ext rfl rfl rfl rfl rfl hsize.symm rfl rfl rfl rfl
    rw [sized, hx, putInode_inodeAt]
  have ho := h.overwrites 1024 n
  rw [hself] at ho
  rw [hs, Option.bind_some, Option.map_some, ho]

theorem recycleRun_eq : run step fsFormat recycleRun = (run step fsFormat dirtyRun).bind (fun s =>
    run step (sized s 530432) [.seek 1 530432 .set,.remove (pathArg ['/','a'])]) := by
  rw [recycleRun, run_append, dirtyRun_overwrites, Option.bind_map]
  rfl

/-- Bytes of a file that was removed are followed as block numbers: the block of the root directory is
held by file `b` too. -/
theorem blocks_not_exclusive : ¬ ∀ s, Reach step (fun _ _ => True) fsFormat s → ∀ q q' : Place,
    inodeUsed s.image q.1 = true → inodeUsed s.image q'.1 = true → held s.image (tableOf s.image) q ≠ 0 →
    held s.image (tableOf s.image) q = held s.image (tableOf s.image) q' → q = q' := by
  have hshared : ((run step fsFormat recycleRun).bind (step · (.write 1 (some dirty) 34))).map (fun s : F19FS =>
      decide (inodeUsed s.image 2 = true ∧ inodeUsed s.image 0 = true) &&
      decide (held s.image (tableOf s.image) (2,.data 518) = 17 ∧
        held s.image (tableOf s.image) (0,.data 0) = 17)) = some true := by
    rw [recycleRun_eq]
    decide +kernel
  intro h
  obtain ⟨s',hs',hf⟩ := Option.map_eq_some_iff.mp hshared
  obtain ⟨s,hs,hw⟩ := Option.bind_eq_some_iff.mp hs'
  simp only [Bool.and_eq_true, decide_eq_true_eq] at hf
  obtain ⟨⟨hu,hu0⟩,hq,hq0⟩ := hf
  have he := h s' ((reach_of_run hs).tail trivial hw) (2,.data 518) (0,.data 0) hu hu0 (by rw [hq]; decide)
    (hq.trans hq0.symm)
  exact absurd (congrArg Prod.fst he) (by decide)

/-- A write of a regular file leaves every other inode and its bytes, the entries of every directory and
every other descriptor as they were. -/
theorem write_isolated {s s' : F19FS} (h : Reachable s) {fd : ℤ} {src : Option Mem} {nbyte : UInt64} {ret : ℤ}
    (hfd : 0 ≤ fd ∧ fd < 256) (hopen : s.isOpen fd.toNat = true)
    (hreg : (s.inode (s.descriptor fd.toNat).inodeNum.toNat).fileType = typeRegular)
    (hclean : Clean s.image (s.inode (s.descriptor fd.toNat).inodeNum.toNat)
      (writtenNodes (s.descriptor fd.toNat).locateOrder.toNat (s.descriptor fd.toNat).locateOffset.toNat nbyte.toNat))
    (hw : fsWrite s fd src nbyte = some (ret,s')) :
    (∀ j < 256, j ≠ (s.descriptor fd.toNat).inodeNum.toNat → s'.inode j = s.inode j ∧
      inodeUsed s'.image j = inodeUsed s.image j ∧
      ((s.inode j).fileType ≠ typeDirectory → ∀ o, fileByte s'.image (s'.inode j) o = fileByte s.image (s.inode j) o)) ∧
    (∀ d < 256, (s.inode d).fileType = typeDirectory → liveEntries s'.image d = liveEntries s.image d) ∧
    ∀ k < 256, k ≠ fd.toNat → s'.descriptor k = s.descriptor k ∧ s'.isOpen k = s.isOpen k := by
  have hi := h.inv
  have hsafe : WriteSafe s fd nbyte := fun _ _ _ => ⟨by rw [hreg]; decide,hclean⟩
  rcases fsWrite_extends hi hsafe hw with rfl | ⟨_,_,i,m',x',size,rfl,hlt,hfile,hext,him,htab⟩
  · exact ⟨fun _ _ _ => ⟨rfl,rfl,fun _ _ => rfl⟩,fun _ _ _ => rfl,fun _ _ _ => ⟨rfl,rfl⟩⟩
  generalize (s.descriptor fd.toNat).inodeNum.toNat = i at *
  have hinode : ∀ j < 256, j ≠ i → s'.inode j = s.inode j := by
    intro j hj hne
    rw [F19FS.inode, him, inodeAt_putInode, if_neg (Ne.symm hne), hext.inodes j hj]
    rfl
  have hblock : ∀ b, DataId b → blockAt s'.image b = blockAt m' b := fun b hb => by
    rw [him, blockAt_putInode hlt hb]
  refine ⟨fun j hj hne => ⟨hinode j hj hne,?_,fun hjf o => ?_⟩,fun d hd hdir => ?_,fun k hk hne => ?_⟩
  · rw [him, inodeUsed_putInode hj, hext.inodeBits j hj]
  · rw [hinode j hj hne]
    have hji : (⟨j,hj⟩ : Fin 256) ≠ ⟨i,hlt⟩ := fun he => hne (congrArg Fin.val he)
    have hsame := hext.fileByte_other hi.sound hji hjf o
    refine Eq.trans ?_ hsame
    rw [him]
    apply fileByte_congr
    intro n hn
    have hp : nodePtr m' (s.inode j) n = nodePtr s.image (s.inode j) n := hext.nodePtr_other hji hjf n
    rw [hp] at hn ⊢
    have hd : DataId (nodePtr s.image (s.inode j) n) := (dataId_of_node (i := ⟨j,hj⟩) hi.sound hjf hn).1
    rw [blockAt_putInode hlt hd]
  · have hdi : d ≠ i := by
      rintro rfl
      exact hfile hdir
    by_cases hb0 : (inodeAt s.image d).dirBlock = 0
    · have hnone : ∀ j < 31, (inodeAt s.image d).live j = false := by
        intro j hj
        by_contra hl
        exact (hi.record d hd).block hdir j hj (by simpa using hl) hb0
      have hsame : inodeAt s'.image d = inodeAt s.image d := hinode d hd hdi
      rw [liveEntries_of_none (hsame ▸ hnone), liveEntries_of_none hnone]
    · apply liveEntries_congr (hinode d hd hdi)
      obtain ⟨hdat,_,hh⟩ := hi.dirBlock_dataId hd hb0
      rw [hblock _ hdat]
      have hne : (⟨d,hd⟩ : Fin 256) ≠ ⟨i,hlt⟩ := fun he => hdi (congrArg Fin.val he)
      have hb := hext.blockAt_other hi.sound hne (n := .data 0) (by rw [owns_data_zero]; exact hb0)
      rw [owns_data_zero] at hb
      exact hb
  · obtain ⟨f,t⟩ := s'
    simp only at htab
    rw [storeDescriptor_fdTable (by omega)] at htab
    rw [htab]
    have hd : (F19FS.mk f (putDescriptor s.fdTable fd.toNat (updateFD (s.descriptor fd.toNat) ret))).descriptor k =
        s.descriptor k := by
      rw [descriptor_putDescriptor, if_neg (Ne.symm hne)]
      rfl
    exact ⟨hd,isOpen_putDescriptor f (by omega)⟩

theorem write_isolated_first : ∃ s s' ret, run step fsFormat [.create (pathArg ['/','a']) .regular,
      .create (pathArg ['/','b']) .regular,.openFile (pathArg ['/','a'])] = some s ∧
    fsWrite s 0 (some zeros) 1 = some (ret,s') ∧ s'.inode 2 = s.inode 2 ∧
      liveEntries s'.image 0 = liveEntries s.image 0 := by
  have hs : (run step fsFormat [.create (pathArg ['/','a']) .regular,.create (pathArg ['/','b']) .regular,
      .openFile (pathArg ['/','a'])]).map (fun s : F19FS => s.isOpen 0 &&
        decide ((s.descriptor 0).inodeNum = 1 ∧ (s.descriptor 0).locateOrder = 0 ∧
          (s.descriptor 0).locateOffset = 0) &&
        decide ((s.inode 1).fileType = typeRegular ∧ (s.inode 0).fileType = typeDirectory) &&
        (fsWrite s 0 (some zeros) 1).isSome) = some true := by decide +kernel
  obtain ⟨s,hs,hf⟩ := Option.map_eq_some_iff.mp hs
  simp only [Bool.and_eq_true, decide_eq_true_eq] at hf
  obtain ⟨⟨⟨hopen,hnum,horder,hoffset⟩,hreg,hroot⟩,hw⟩ := hf
  obtain ⟨⟨ret,s'⟩,hw⟩ := Option.isSome_iff_exists.mp hw
  have hr : Reachable s := reach_of_guarded_run (by simp [Safe]) hs
  have hn : (s.descriptor (0 : ℤ).toNat).inodeNum.toNat = 1 := congrArg UInt8.toNat hnum
  have ho : (s.descriptor (0 : ℤ).toNat).locateOrder.toNat = 0 := congrArg UInt16.toNat horder
  have hf : (s.descriptor (0 : ℤ).toNat).locateOffset.toNat = 0 := congrArg UInt16.toNat hoffset
  have hi := write_isolated hr (show 0 ≤ (0 : ℤ) ∧ (0 : ℤ) < 256 from ⟨le_rfl,by decide⟩) hopen (by rw [hn]; exact hreg) (by
    rw [hn, ho, hf]
    intro k id hk
    have hnodes : writtenNodes 0 0 (1 : UInt64).toNat = [.data 0] := by decide
    rw [hnodes] at hk
    exact absurd (fill_subset hk) (by simp)) hw
  exact ⟨s,s',ret,hs,hw,(hi.1 2 (by decide) (by rw [hn]; decide)).1,hi.2.1 0 (by decide) hroot⟩

/-- The last write of the run changes the name of an entry of the root directory. -/
theorem write_not_isolated : ¬ ∀ s s' src nbyte ret, ∀ fd : ℤ, Reach step (fun _ _ => True) fsFormat s →
    0 ≤ fd ∧ fd < 256 → s.isOpen fd.toNat = true →
    (s.inode (s.descriptor fd.toNat).inodeNum.toNat).fileType = typeRegular →
    fsWrite s fd src nbyte = some (ret,s') →
    ∀ d < 256, (s.inode d).fileType = typeDirectory → liveEntries s'.image d = liveEntries s.image d := by
  have hlost : (run step fsFormat recycleRun).bind (fun s : F19FS => (fsWrite s 1 (some dirty) 34).map (fun r =>
      s.isOpen 1 && decide ((s.inode (s.descriptor 1).inodeNum.toNat).fileType = typeRegular) &&
      decide ((s.inode 0).fileType = typeDirectory) &&
      decide (liveEntries r.2.image 0 ≠ liveEntries s.image 0))) = some true := by
    rw [recycleRun_eq]
    decide +kernel
  intro h
  obtain ⟨s,hs,hw⟩ := Option.bind_eq_some_iff.mp hlost
  obtain ⟨⟨ret,s'⟩,hw,hf⟩ := Option.map_eq_some_iff.mp hw
  simp only [Bool.and_eq_true, decide_eq_true_eq] at hf
  obtain ⟨⟨⟨hopen,hreg⟩,hroot⟩,hne⟩ := hf
  exact hne (h s s' (some dirty) 34 ret 1 (reach_of_run hs) ⟨by decide,by decide⟩ hopen hreg hw 0 (by decide) hroot)

end LiteOSFS
