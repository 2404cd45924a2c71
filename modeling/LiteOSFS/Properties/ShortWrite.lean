import LiteOSFS.FileSystem.WriteTotal
import LiteOSFS.Properties.Accounting
import LiteOSFS.Properties.Storing
import Mathlib.Algebra.BigOperators.Group.Finset.Piecewise

/-! # How much fs_write writes

The count is the largest one that the free blocks pay for, and it is what was
stored. Three things break this: the spill out of the direct blocks that drops the
last one, a start inside a fresh direct block, and the end of the 16-bit locator.
-/
namespace LiteOSFS
open Memory CString Transition Ownership

/-- The counts up to `nbyte` whose bytes, from the cursor of `fd` on, the free blocks pay for. -/
def affordableCounts (s : F19FS) (fd : ℤ) (nbyte : UInt64) : Set ℕ :=
  {r | r ≤ nbyte.toNat ∧ Affordable s.image (s.inode (s.fileOf fd)) (s.descriptor fd.toNat).position r}

/-- A write that stores `r` bytes at the cursor, moves it by `r` and was cut by nothing but a full store. -/
structure ShortWrite (s : F19FS) (fd : ℤ) (src : Mem) (nbyte : UInt64) (r : ℕ) (s' : F19FS) : Prop where
  greatest : IsGreatest (affordableCounts s fd nbyte) r
  stores : WriteStores s fd src r s'
  position : (s'.descriptor fd.toNat).position = (s.descriptor fd.toNat).position + r
  ranOut : r < nbyte.toNat → freeBlocks s'.image = []

/-- The spill drops nothing, the write does not start inside a fresh direct block (unless the source repeats there
what it should store), and it ends before the end of the 16-bit locator. -/
structure ShortWriteGuard (s : F19FS) (fd : ℤ) (src : Mem) (nbyte : UInt64) : Prop where
  counted : ¬ SpillDrops s.image (s.inode (s.fileOf fd)) (s.descriptor fd.toNat).locateOrder.toNat
    (s.descriptor fd.toNat).locateOffset.toNat nbyte.toNat
  aligned : Aligned s.image (s.inode (s.fileOf fd)) (s.descriptor fd.toNat).locateOrder.toNat
      (s.descriptor fd.toNat).locateOffset.toNat ∨ freeBlocks s.image = [] ∨
    ∀ k < min (1024 - (s.descriptor fd.toNat).locateOffset.toNat) nbyte.toNat,
      src ((s.descriptor fd.toNat).locateOffset.toNat + k) = src k
  inRange : ∀ r ∈ affordableCounts s fd nbyte, (s.descriptor fd.toNat).position + r < 65536 * 1024

/-- The bytes up to the end of the direct blocks cost the direct blocks that are missing. -/
theorem affordable_direct {m : Mem} {x : Inode} {b off : ℕ} (hb : b < 6) (hoff : off < 1024)
    (h : (freeBlocks m).length = missingDirect m x b) :
    Affordable m x (b * 1024 + off) (6144 - (b * 1024 + off)) := by
  have hnodes : byteNodes (b * 1024 + off) (6144 - (b * 1024 + off)) ⊆
      ((List.range' b (6 - b)).map Node.data).toFinset := by
    intro n hn
    obtain ⟨o,ho,hn⟩ := mem_byteNodes.mp hn
    rw [pathTo, if_pos (by omega), List.mem_singleton] at hn
    rw [hn, List.mem_toFinset]
    exact List.mem_map_of_mem (List.mem_range'_1.mpr (by omega))
  have hnodup : ((List.range' b (6 - b)).map Node.data).Nodup :=
    List.Nodup.map (fun _ _ he => by cases he; rfl) (List.nodup_range' 1 Nat.one_pos)
  have hcard := Finset.card_le_card (Finset.filter_subset_filter (fun n => hasNode m x n = false) hnodes)
  have hlist : (absent m x ((List.range' b (6 - b)).map Node.data).toFinset).card = missingDirect m x b := by
    rw [card_absent_list hnodup, List.countP_map]
    rfl
  rw [Affordable, h, ← hlist]
  exact hcard

section Write
variable {s s' : F19FS} {fd : ℤ} {src : Mem} {nbyte : UInt64} {r sum : ℕ} {m' : Mem} {x' : Inode}

theorem WriteDone.freeBlocks_eq (h : WriteDone s fd src nbyte r sum m' x' s') : freeBlocks s'.image = freeBlocks m' := by
  rw [h.image]
  exact freeBlocks_congr (fun b hb => used_putInode (s.fileOf fd).isLt (by omega))

theorem WriteDone.position_eq (h : WriteDone s fd src nbyte r sum m' x' s')
    (hoff : (s.descriptor fd.toNat).locateOffset.toNat < 1024) :
    (s'.descriptor fd.toNat).position = ((s.descriptor fd.toNat).position + r) % (65536 * 1024) := by
  rcases h.table with ht | ⟨rfl,ht⟩
  · have hd : s'.descriptor fd.toNat = updateFD (s.descriptor fd.toNat) r := by
      have hput : (F19FS.mk s'.image (putDescriptor s.fdTable fd.toNat (updateFD (s.descriptor fd.toNat) r))).descriptor
          fd.toNat = updateFD (s.descriptor fd.toNat) r := (descriptor_putDescriptor _).trans (if_pos rfl)
      rwa [← ht] at hput
    rw [hd, updateFD_position hoff.le]
  · have hd : s'.descriptor fd.toNat = s.descriptor fd.toNat := by rw [F19FS.descriptor, F19FS.descriptor, ht]
    have horder := UInt16.toNat_lt (s.descriptor fd.toNat).locateOrder
    rw [hd, FileDescriptor.position]
    omega

/-- `fs_write` returns when the free blocks do not reach the end of the locator. -/
theorem fsWrite_isSome (src : Mem) (hi : ImageInv s.image) (ho : s.Opened fd) (hsafe : WriteSafe s fd nbyte)
    (hoff : (s.descriptor fd.toNat).locateOffset.toNat < 1024)
    (hrange : ∀ r ∈ affordableCounts s fd nbyte, (s.descriptor fd.toNat).position + r < 65536 * 1024) :
    ∃ (r : ℕ) (s' : F19FS), fsWrite s fd (some src) nbyte = some ((r : ℤ),s') := by
  cases h : fsWrite s fd (some src) nbyte with
  | some res =>
    obtain ⟨ret,s'⟩ := res
    rcases fsWrite_done hi hsafe hoff.le h with ⟨_,_,hclosed⟩ | ⟨r,sum,m',x',rfl,_⟩
    · exact absurd ho hclosed
    · exact ⟨r,s',rfl⟩
  | none =>
    have hopen : ¬ (fd < 0 ∨ fd ≥ 256) := by
      have hlo := ho.1
      have hhi := ho.2.1
      omega
    have hw : writeFrom s.image (s.inode (s.fileOf fd)) (s.descriptor fd.toNat).locateOrder.toNat
        (s.descriptor fd.toNat).locateOffset.toNat src nbyte.toNat = none := by
      rw [fsWrite, if_neg hopen] at h
      simp only [ho.2.2, Bool.not_true, Bool.false_eq_true, if_false] at h
      cases hw : writeFrom s.image (s.inode (s.descriptor fd.toNat).inodeNum.toNat)
          (s.descriptor fd.toNat).locateOrder.toNat (s.descriptor fd.toNat).locateOffset.toNat src nbyte.toNat with
      | none => exact hw
      | some res =>
        rw [hw] at h
        cases res <;> cases h
    obtain ⟨r,hle,haff,hend⟩ := writeFrom_overruns (ready_of_writeSafe hi ho hsafe hoff.le) hoff hw
    have hlt := hrange r ⟨hle,haff⟩
    rw [FileDescriptor.position] at hlt
    omega

theorem WriteDone.greatest (h : WriteDone s fd src nbyte r sum m' x' s') (hi : ImageInv s.image)
    (hsafe : WriteSafe s fd nbyte) (hoff : (s.descriptor fd.toNat).locateOffset.toNat < 1024) :
    IsGreatest (affordableCounts s fd nbyte) sum ∧ (sum < nbyte.toNat → freeBlocks s'.image = []) := by
  have hset : affordableCounts s fd nbyte = {r | r ≤ nbyte.toNat ∧ Affordable s.image (tableOf s.image (s.fileOf fd))
      ((s.descriptor fd.toNat).locateOrder.toNat * 1024 + (s.descriptor fd.toNat).locateOffset.toNat) r} := rfl
  have hwrote : WriteCall s.image (tableOf s.image (s.fileOf fd)) (s.descriptor fd.toNat).locateOrder.toNat
      (s.descriptor fd.toNat).locateOffset.toNat src nbyte.toNat sum m' x' := h.wrote
  rw [h.freeBlocks_eq, hset]
  exact hwrote.greatest (ready_of_writeSafe hi h.opened hsafe hoff.le) hoff

/-- At a spill that drops the last direct block the count is 1024 bytes too low. -/
theorem WriteDone.spill (h : WriteDone s fd src nbyte r sum m' x' s') (hi : ImageInv s.image)
    (hsafe : WriteSafe s fd nbyte) (hoff : (s.descriptor fd.toNat).locateOffset.toNat < 1024)
    (hw : fsWrite s fd (some src) nbyte = some ((r : ℤ),s'))
    (hspill : SpillDrops s.image (s.inode (s.fileOf fd)) (s.descriptor fd.toNat).locateOrder.toNat
      (s.descriptor fd.toNat).locateOffset.toNat nbyte.toNat) : r < sum := by
  have hr := ready_of_writeSafe hi h.opened hsafe hoff.le
  have hspill' : SpillDrops s.image (tableOf s.image (s.fileOf fd)) (s.descriptor fd.toNat).locateOrder.toNat
      (s.descriptor fd.toNat).locateOffset.toNat nbyte.toNat := hspill
  obtain ⟨hb,hlong,_,hcount⟩ := hspill
  have hsum : 6144 - (s.descriptor fd.toNat).position ≤ sum := by
    apply (h.greatest hi hsafe hoff).1.2
    refine ⟨?_,affordable_direct hb hoff hcount⟩
    rw [FileDescriptor.position]
    omega
  rcases fsWrite_cases hw with ⟨⟨hneg,_⟩,_⟩ | ⟨src₀,res,hsrc,_,_,_,hfrom,hres⟩
  · omega
  · cases hsrc
    rw [writeFrom, if_pos hb] at hfrom
    obtain ⟨out,hd,rfl⟩ := Option.map_eq_some_iff.mp hfrom
    rcases hres with ⟨he,_⟩ | ⟨r',m₁,x₁,he,hret,_⟩
    · cases he
    · cases he
      have hrun : writeDirectBlock 6 s.image (tableOf s.image (s.fileOf fd)) (s.descriptor fd.toNat).locateOrder.toNat
          (s.descriptor fd.toNat).locateOffset.toNat src nbyte.toNat = some (r',m₁,x₁) := hd
      have hdrop := writeDirectBlock_spill hr hoff hspill' hrun
      rw [FileDescriptor.position] at hsum
      omega

/-- The bytes are in place unless the write starts inside a fresh direct block. -/
theorem WriteDone.stores_iff (h : WriteDone s fd src nbyte sum sum m' x' s') (hi : ImageInv s.image)
    (hsafe : WriteSafe s fd nbyte) (hoff : (s.descriptor fd.toNat).locateOffset.toNat < 1024) :
    WriteStores s fd src sum s' ↔ Aligned s.image (s.inode (s.fileOf fd)) (s.descriptor fd.toNat).locateOrder.toNat
        (s.descriptor fd.toNat).locateOffset.toNat ∨ freeBlocks s.image = [] ∨
      ∀ k < min (1024 - (s.descriptor fd.toNat).locateOffset.toNat) nbyte.toNat,
        src ((s.descriptor fd.toNat).locateOffset.toNat + k) = src k := by
  have hr := ready_of_writeSafe hi h.opened hsafe hoff.le
  have hfile := hr.file
  have hmax := (h.greatest hi hsafe hoff).1
  have hle := hmax.1.1
  by_cases hal : Aligned s.image (s.inode (s.fileOf fd)) (s.descriptor fd.toNat).locateOrder.toNat
      (s.descriptor fd.toNat).locateOffset.toNat
  · exact iff_of_true (h.stores hfile rfl (h.effect.inside hal)) (Or.inl hal)
  have hfresh := hal
  rw [Aligned, not_or, not_or, not_not, not_le] at hfresh
  obtain ⟨_,hn,hb⟩ := hfresh
  -- what the bytes of the first block are, when there are any
  have hbytes : ∀ k < sum, fileByte m' x' ((s.descriptor fd.toNat).position + k) =
      some (if k < 1024 - (s.descriptor fd.toNat).locateOffset.toNat then
        src ((s.descriptor fd.toNat).locateOffset.toNat + k) else src k) := by
    intro k hk
    have hwrote := h.wrote.wrote_of_pos (by omega)
    exact hwrote.inside_fresh hr.sound hfile hoff.le hr.clean hb hn k hk
  constructor
  · intro hst
    refine Or.inr (or_iff_not_imp_left.mpr (fun hfree k hk => ?_))
    have hk' : k < sum := by
      refine hk.trans_le (hmax.2 ⟨min_le_right _ _,?_⟩)
      obtain ⟨rest,hv⟩ := hr.visitable
      rcases hgrow : growPath s.image (tableOf s.image (s.fileOf fd)) (pathTo (s.descriptor fd.toNat).locateOrder.toNat)
        with ⟨ok,m₁,x₁⟩
      cases ok with
      | true => exact hv.affordable_block hgrow (by omega)
      | false =>
        have hpath : pathTo (s.descriptor fd.toNat).locateOrder.toNat =
            [.data (s.descriptor fd.toNat).locateOrder.toNat] := if_pos hb
        have hlt := (hv.count hgrow).2 rfl
        rw [card_absent_list hv.nodup, hpath, List.countP_singleton] at hlt
        split_ifs at hlt
        · exact absurd (List.length_eq_zero_iff.mp (by omega)) hfree
        · omega
    have hin := hst.1 k hk'
    rw [h.fileByte_eq hfile, hbytes k hk', if_pos (by omega)] at hin
    exact Option.some.inj hin
  · rintro (h0 | hfree | hrep)
    · exact absurd h0 hal
    · have h0 : sum = 0 := by
        by_contra hpos
        have haff := Affordable.mono hmax.1.2 (show 1 ≤ sum by omega)
        rw [Affordable, hfree, FileDescriptor.position, blocksNeeded, byteNodes_block Nat.one_pos (by omega),
          card_absent_list (pathTo_nodup _), pathTo, if_pos hb, List.countP_singleton, hasNode_false hn] at haff
        simp at haff
      exact h.stores hfile rfl (fun k hk => absurd hk (by omega))
    · refine h.stores hfile rfl (fun k hk => ?_)
      rw [hbytes k hk]
      split_ifs with hlt
      · rw [hrep k (by omega)]
      · rfl

end Write

/-- In a state reached by safe calls, a safe write through a cursor inside its block is a short write if and only if
it meets the guard. -/
theorem short_write {s : F19FS} {fd : ℤ} {src : Mem} {nbyte : UInt64} (hs : Reachable s) (ho : s.Opened fd)
    (hsafe : WriteSafe s fd nbyte) (hoff : (s.descriptor fd.toNat).locateOffset.toNat < 1024) :
    (∃ (r : ℕ) (s' : F19FS), fsWrite s fd (some src) nbyte = some ((r : ℤ),s') ∧ ShortWrite s fd src nbyte r s') ↔
      ShortWriteGuard s fd src nbyte := by
  have hdone : ∀ (r : ℕ) (s' : F19FS), fsWrite s fd (some src) nbyte = some ((r : ℤ),s') →
      ∃ sum m' x', WriteDone s fd src nbyte r sum m' x' s' := by
    intro r s' hw
    rcases fsWrite_done hs.inv hsafe hoff.le hw with ⟨hneg,_⟩ | ⟨r',sum,m',x',he,hd⟩
    · omega
    · obtain rfl : r = r' := by exact_mod_cast he
      exact ⟨sum,m',x',hd⟩
  constructor
  · rintro ⟨r,s',hw,hsw⟩
    obtain ⟨sum,m',x',hd⟩ := hdone r s' hw
    have hmax := (hd.greatest hs.inv hsafe hoff).1
    obtain rfl : r = sum := hsw.greatest.unique hmax
    refine ⟨fun hspill => absurd (hd.spill hs.inv hsafe hoff hw hspill) (lt_irrefl _),
      (hd.stores_iff hs.inv hsafe hoff).mp hsw.stores,fun k hk => ?_⟩
    have hpos := hsw.position
    have hmod := Nat.mod_lt ((s.descriptor fd.toNat).position + r) (show 0 < 65536 * 1024 by omega)
    rw [← hd.position_eq hoff, hpos] at hmod
    exact (Nat.add_le_add_left (hmax.2 hk) _).trans_lt hmod
  · intro hg
    obtain ⟨r,s',hw⟩ := fsWrite_isSome src hs.inv ho hsafe hoff hg.inRange
    obtain ⟨sum,m',x',hd⟩ := hdone r s' hw
    obtain rfl : r = sum := hd.counted.resolve_right (fun hc => hg.counted hc.1)
    obtain ⟨hmax,hran⟩ := hd.greatest hs.inv hsafe hoff
    refine ⟨r,s',hw,hmax,(hd.stores_iff hs.inv hsafe hoff).mpr hg.aligned,?_,hran⟩
    rw [hd.position_eq hoff, Nat.mod_eq_of_lt (hg.inRange r hmax.1)]

theorem short_write_first : ∃ (s s' : F19FS) (r : ℕ), run step fsFormat [.create (pathArg ['/','a']) .regular,
    .openFile (pathArg ['/','a'])] = some s ∧ fsWrite s 0 (some zeros) 1500 = some ((r : ℤ),s') ∧
    ShortWrite s 0 zeros 1500 r s' := by
  have hs : (run step fsFormat [.create (pathArg ['/','a']) .regular,.openFile (pathArg ['/','a'])]).map
      (fun s : F19FS => s.isOpen 0 && decide ((s.descriptor 0).inodeNum = 1 ∧ (s.descriptor 0).locateOrder = 0 ∧
          (s.descriptor 0).locateOffset = 0) && decide ((s.inode 1).fileType = typeRegular)) = some true := by
    decide +kernel
  obtain ⟨s,hs,hf⟩ := Option.map_eq_some_iff.mp hs
  simp only [Bool.and_eq_true, decide_eq_true_eq] at hf
  obtain ⟨⟨hopen,hnum,horder,hoffset⟩,hreg⟩ := hf
  have hr : Reachable s := reach_of_guarded_run (by simp [Safe]) hs
  have hn : (s.descriptor (0 : ℤ).toNat).inodeNum.toNat = 1 := congrArg UInt8.toNat hnum
  have ho : (s.descriptor (0 : ℤ).toNat).locateOrder.toNat = 0 := congrArg UInt16.toNat horder
  have hf : (s.descriptor (0 : ℤ).toNat).locateOffset.toNat = 0 := congrArg UInt16.toNat hoffset
  have hsafe : WriteSafe s 0 1500 := by
    refine writeSafe_of_low ?_ ?_ ?_
    · rw [hn, hreg]
      decide
    · rw [hf]
      decide
    · rw [ho, hf]
      decide
  have hguard : ShortWriteGuard s 0 zeros 1500 := by
    refine ⟨?_,Or.inl (Or.inl hf),fun r hr => ?_⟩
    · rintro ⟨_,hlong,_⟩
      rw [ho, hf] at hlong
      exact absurd hlong (by decide)
    · have hle : r ≤ 1500 := hr.1
      rw [FileDescriptor.position, ho, hf]
      omega
  obtain ⟨r,s',hw,hsw⟩ := (short_write hr ⟨le_rfl,by decide,hopen⟩ hsafe (by rw [hf]; decide)).mpr hguard
  exact ⟨s,s',r,hs,hw,hsw⟩

/-- The guard of the runs whose blocks are counted, as a check. -/
def plainAccounted (s : F19FS) : Call → Bool
  | .create path type => decide ((fsCreate s (pathOf path) type).map Prod.fst = some 0)
  | .openFile _ => true
  | .write fd src nbyte => decide ((s.inode (s.fileOf fd)).fileType = typeRegular ∧ nbyte ≠ 0 ∧
      (s.descriptor fd.toNat).position = (s.inode (s.fileOf fd)).fileSize.toNat ∧
      (fsWrite s fd src nbyte).map Prod.fst = some (nbyte.toNat : ℤ))
  | _ => false

theorem accounted_of_plain (s : F19FS) (c : Call) (h : plainAccounted s c = true) : Accounted s c := by
  cases c with
  | create path type =>
    obtain ⟨⟨_,s'⟩,hc,rfl⟩ := Option.map_eq_some_iff.mp (of_decide_eq_true h)
    exact ⟨s',hc⟩
  | openFile _ => trivial
  | write fd src nbyte =>
    obtain ⟨hreg,hn,hpos,hw⟩ := of_decide_eq_true h
    obtain ⟨⟨_,s'⟩,hc,rfl⟩ := Option.map_eq_some_iff.mp hw
    exact ⟨hreg,hn,hpos,s',hc⟩
  | _ => cases h

theorem freeBlocks_length (m : Mem) : (freeBlocks m).length + blockStoreGetUsedBlocks m wholeStore = 65528 := by
  have hsplit := List.length_eq_countP_add_countP (fun b => used m b) (l := List.range 65528)
  rw [List.length_range, countP_range, ← usedBlocks_card] at hsplit
  rw [freeBlocks, ← List.countP_eq_length_filter, Nat.add_comm]
  convert hsplit.symm using 4
  simp

/-- Two files, open for writing; the second one has five blocks. -/
def twoFiles : List Call := [.create (pathArg ['/','a']) .regular,.create (pathArg ['/','b']) .regular,
  .openFile (pathArg ['/','a']),.openFile (pathArg ['/','b']),.write 1 (some zeros) 5120]

/-- The files "/a" of the given size and "/b" of five blocks, with descriptor 1 at the end of "/b". -/
structure Holding (s : F19FS) (size : ℕ) : Prop where
  cursor : s.Opened 1 ∧ s.fileOf 1 = 2 ∧ (s.descriptor 1).locateOrder.toNat = 5 ∧ (s.descriptor 1).locateOffset.toNat = 0
  root : (s.inode 0).fileType = typeDirectory ∧ HasEntry (s.inode 0)
  first : (s.inode 1).fileType = typeRegular ∧ (s.inode 1).fileSize.toNat = size
  second : (s.inode 2).fileType = typeRegular ∧ (s.inode 2).fileSize.toNat = 5120
  others : ∀ k < 253, (s.inode (k + 3)).fileType ≠ typeDirectory ∧ (s.inode (k + 3)).fileSize = 0

theorem Holding.card {s : F19FS} {size : ℕ} (h : Holding s size) (i : Fin 256) :
    (filledNodes s.image i).card = (if i = 0 then 1 else 0) +
      (if i = 1 then blockCost ((size + 1023) / 1024) else 0) + (if i = 2 then 5 else 0) := by
  have hfile : ∀ {i : Fin 256} {size : ℕ}, (s.inode i).fileType ≠ typeDirectory → (s.inode i).fileSize.toNat = size →
      (filledNodes s.image i).card = blockCost ((size + 1023) / 1024) := by
    rintro i _ htype rfl
    have hne : ¬ (inodeAt s.image i).fileType = typeDirectory := htype
    rw [filledNodes, if_neg hne, Node.card_upTo]
    rfl
  by_cases h0 : i = 0
  · subst h0
    have hd : (inodeAt s.image (0 : Fin 256)).fileType = typeDirectory := h.root.1
    have he : HasEntry (inodeAt s.image (0 : Fin 256)) := h.root.2
    rw [filledNodes, if_pos hd, if_pos he]
    rfl
  by_cases h1 : i = 1
  · subst h1
    have htype : (s.inode (1 : Fin 256)).fileType = typeRegular := h.first.1
    have hsize : (s.inode (1 : Fin 256)).fileSize.toNat = size := h.first.2
    rw [hfile (by rw [htype]; decide) hsize, if_neg (by decide), if_pos rfl, if_neg (by decide), Nat.zero_add]
    rfl
  by_cases h2 : i = 2
  · subst h2
    have htype : (s.inode (2 : Fin 256)).fileType = typeRegular := h.second.1
    have hsize : (s.inode (2 : Fin 256)).fileSize.toNat = 5120 := h.second.2
    rw [hfile (by rw [htype]; decide) hsize, if_neg (by decide), if_neg (by decide), if_pos rfl]
    rfl
  · have hval : 3 ≤ i.val := by
      have h0' := fun he => h0 (Fin.ext he)
      have h1' := fun he => h1 (Fin.ext he)
      have h2' := fun he => h2 (Fin.ext he)
      simp only [Fin.val_zero, Fin.val_one, Fin.val_two] at h0' h1' h2'
      omega
    obtain ⟨htype,hsize⟩ := h.others (i.val - 3) (by omega)
    rw [Nat.sub_add_cancel hval] at htype hsize
    rw [hfile htype (congrArg UInt64.toNat hsize), if_neg h0, if_neg h1, if_neg h2]
    rfl

/-- 65505 blocks are left for "/a". -/
theorem Holding.free {s : F19FS} {content : Contents} {size : ℕ} (h : Holding s size) (hi : AccountInv (s,content)) :
    (freeBlocks s.image).length + blockCost ((size + 1023) / 1024) = 65505 := by
  have hused := usedBlocks_eq hi.append.image.inv.sound.sys
  have hfree := freeBlocks_length s.image
  have hsum := hi.usedBlocks
  simp only [Finset.sum_congr rfl (fun i _ => h.card i), Finset.sum_add_distrib, Finset.sum_ite_eq', Finset.mem_univ,
    if_true] at hsum
  simp only at hused
  omega

theorem twoFiles_holding : ∃ s : F19FS, Reach step Accounted fsFormat s ∧ Holding s 0 ∧ s.Opened 0 ∧ s.fileOf 0 = 1 ∧
    (s.descriptor 0).locateOrder.toNat = 0 ∧ (s.descriptor 0).locateOffset.toNat = 0 := by
  have hrun : (run (checked plainAccounted step) fsFormat twoFiles).map (fun s : F19FS => s.isOpen 0 && s.isOpen 1 &&
      decide ((s.descriptor 0).inodeNum = 1 ∧ (s.descriptor 0).locateOrder = 0 ∧ (s.descriptor 0).locateOffset = 0) &&
      decide ((s.descriptor 1).inodeNum = 2 ∧ (s.descriptor 1).locateOrder = 5 ∧ (s.descriptor 1).locateOffset = 0) &&
      decide ((s.inode 0).fileType = typeDirectory ∧ HasEntry (s.inode 0)) &&
      decide ((s.inode 1).fileType = typeRegular ∧ (s.inode 1).fileSize = 0) &&
      decide ((s.inode 2).fileType = typeRegular ∧ (s.inode 2).fileSize = 5120) &&
      (List.range 253).all (fun k =>
        decide ((s.inode (k + 3)).fileType ≠ typeDirectory ∧ (s.inode (k + 3)).fileSize = 0))) = some true := by
    decide +kernel
  obtain ⟨s,hs,hf⟩ := Option.map_eq_some_iff.mp hrun
  simp only [Bool.and_eq_true, decide_eq_true_eq, List.all_eq_true, List.mem_range] at hf
  obtain ⟨⟨⟨⟨⟨⟨⟨hopen₀,hopen₁⟩,hnum₀,horder₀,hoff₀⟩,hnum₁,horder₁,hoff₁⟩,hroot⟩,hreg₁,hsize₁⟩,hreg₂,hsize₂⟩,hothers⟩ := hf
  refine ⟨s,reach_of_checked_run accounted_of_plain hs,⟨⟨⟨by decide,by decide,hopen₁⟩,Fin.ext (congrArg UInt8.toNat hnum₁),
    congrArg UInt16.toNat horder₁,congrArg UInt16.toNat hoff₁⟩,hroot,⟨hreg₁,congrArg UInt64.toNat hsize₁⟩,
    ⟨hreg₂,congrArg UInt64.toNat hsize₂⟩,hothers⟩,⟨le_rfl,by decide,hopen₀⟩,Fin.ext (congrArg UInt8.toNat hnum₀),
    congrArg UInt16.toNat horder₀,congrArg UInt16.toNat hoff₀⟩

/-- A file of `n` blocks written from its start costs no more than its nodes. -/
theorem affordable_start {m : Mem} {x : Inode} {n r : ℕ} (hr : r ≤ n * 1024) (h : blockCost n ≤ (freeBlocks m).length) :
    Affordable m x 0 r := by
  have hsub : absent m x (byteNodes 0 r) ⊆ Node.upTo n := by
    intro l hl
    obtain ⟨o,ho,hmem⟩ := mem_byteNodes.mp (Finset.mem_filter.mp hl).1
    have hle := Node.first_le_of_mem hmem
    rw [Node.mem_upTo]
    omega
  have hcard := Finset.card_le_card hsub
  rw [Node.card_upTo] at hcard
  exact hcard.trans h

/-- All blocks but one can be taken. -/
theorem filled : ∃ (s : F19FS) (content : Contents), Reach step (fun _ _ => True) fsFormat s ∧ AccountInv (s,content) ∧
    Holding s 66944000 := by
  obtain ⟨s,hs,hold,ho,hfile,horder,hoffset⟩ := twoFiles_holding
  obtain ⟨content,hg⟩ := hs.exists_ghost appended (fun _ => [])
  have hi : AccountInv (s,content) := hg.invariant account_fsFormat (fun hi hg hs => account_step hi hg hs)
  have hinv : ImageInv s.image := hi.append.image.inv
  have hreg : (s.inode (s.fileOf 0)).fileType = typeRegular := by
    rw [hfile]
    exact hold.first.1
  have hsize : (s.inode (s.fileOf 0)).fileSize.toNat = 0 := by
    rw [hfile]
    exact hold.first.2
  have hpos : (s.descriptor (0 : ℤ).toNat).position = 0 := by
    rw [FileDescriptor.position]
    simp only [Int.toNat_zero, horder, hoffset]
  have hoff : (s.descriptor (0 : ℤ).toNat).locateOffset.toNat < 1024 := hi.append.offset 0 (by decide)
  have hne : (s.inode (s.fileOf 0)).fileType ≠ typeDirectory := by
    rw [hreg]
    decide
  have hsafe : WriteSafe s 0 66944000 := (hi.append.image.ready hne hoff 66944000).1
  have hfree : (freeBlocks s.image).length + blockCost ((0 + 1023) / 1024) = 65505 := hold.free hi
  have hrange : ∀ r ∈ affordableCounts s 0 66944000, (s.descriptor (0 : ℤ).toNat).position + r < 65536 * 1024 := by
    intro r hr
    have hle : r ≤ 66944000 := hr.1
    rw [hpos]
    omega
  obtain ⟨r,s',hw⟩ := fsWrite_isSome zeros hinv ho hsafe hoff hrange
  rcases fsWrite_done hinv hsafe hoff.le hw with ⟨hneg,_⟩ | ⟨r',sum,m',x',he,hd⟩
  · omega
  obtain rfl : r = r' := by exact_mod_cast he
  have hsum : r = sum := by
    refine hd.counted.resolve_right (fun hspill => ?_)
    have hcount := hspill.1.2.2.2
    have hle : missingDirect s.image (s.inode (s.fileOf 0)) (s.descriptor (0 : ℤ).toNat).locateOrder.toNat ≤
        6 - (s.descriptor (0 : ℤ).toNat).locateOrder.toNat :=
      List.countP_le_length.trans_eq List.length_range'
    have hzero : blockCost ((0 + 1023) / 1024) = 0 := rfl
    omega
  have hr : r = 66944000 := by
    obtain ⟨hle,hmax⟩ := (hd.greatest hinv hsafe hoff).1
    refine hsum ▸ le_antisymm hle.1 (hmax ⟨le_rfl,?_⟩)
    rw [hpos]
    exact affordable_start (n := 65375) (by decide) (by
      have hcost : blockCost 65375 = 65504 := rfl
      have hzero : blockCost ((0 + 1023) / 1024) = 0 := rfl
      omega)
  subst hr
  have hstep : step s (.write 0 (some zeros) 66944000) = some s' := step_of_call hw
  have hguard : Accounted s (.write 0 (some zeros) 66944000) := ⟨hreg,by decide,by rw [hpos, hsize],s',hw⟩
  have hother : ∀ {j : ℕ}, j < 256 → j ≠ 1 → s'.inode j = s.inode j := by
    intro j hj hne
    refine fsWrite_other hinv hsafe hw hj ?_
    rw [hfile]
    exact fun he => hne he.symm
  have hslot : s'.descriptor 1 = s.descriptor 1 ∧ s'.isOpen 1 = s.isOpen 1 := by
    rcases hd.table with ht | ⟨h0,_⟩
    · have hs' : s' = F19FS.mk s'.image s'.fdTable := rfl
      rw [hs', ht]
      exact ⟨(descriptor_putDescriptor _).trans (if_neg (by decide)),isOpen_putDescriptor _ (by decide)⟩
    · cases h0
  obtain ⟨⟨hlo,hhi,hopen⟩,hfile₁,horder₁,hoff₁⟩ := hold.cursor
  refine ⟨s',_,(hs.mono (fun _ _ _ => trivial)).tail trivial hstep,account_step hi hguard (by rw [ghost, hstep]; rfl),
    ⟨⟨⟨hlo,hhi,hslot.2.trans hopen⟩,?_,?_,?_⟩,?_,⟨?_,?_⟩,?_,fun k hk => ?_⟩⟩
  · rw [← hfile₁]
    exact Fin.ext (congrArg (fun d : FileDescriptor => d.inodeNum.toNat) hslot.1)
  · rw [hslot.1, horder₁]
  · rw [hslot.1, hoff₁]
  · rw [hother (by decide) (by decide)]
    exact hold.root
  · have hx := hd.inode
    rw [hfile] at hx
    have htype : x'.fileType = (s.inode (s.fileOf 0)).fileType := attributes_fileType hd.effect.ext.attrs
    have hx' : s'.inode 1 = { x' with fileSize := x'.fileSize + UInt64.ofNat 66944000 } := hx
    rw [hx']
    exact htype.trans hreg
  · have hx := hd.inode_eq (j := 1) (by decide)
    rw [if_pos (show (s.fileOf 0).val = 1 from congrArg Fin.val hfile)] at hx
    rw [hx, UInt64.toNat_add, hold.first.2]
    rfl
  · rw [hother (by decide) (by decide)]
    exact hold.second
  · rw [hother (by omega) (by omega)]
    exact hold.others k hk

/-- There "/b" has no room but for one direct block. -/
theorem Holding.spills {s : F19FS} {content : Contents} (h : Holding s 66944000) (hi : AccountInv (s,content)) :
    SpillDrops s.image (s.inode (s.fileOf 1)) (s.descriptor 1).locateOrder.toNat (s.descriptor 1).locateOffset.toNat
      1025 := by
  obtain ⟨_,hfile,horder,hoffset⟩ := h.cursor
  have hreg : (inodeAt s.image (2 : Fin 256)).fileType = typeRegular := h.second.1
  have hst : Stores s.image (s.inode 2) (content 2) := hi.append.image.file 2 (by rw [hreg]; decide)
  have hnode : ∀ l, 5 ≤ l.first → nodePtr s.image (s.inode 2) l = 0 := by
    intro l hl
    by_contra hne
    have hlt := hst.node l hne
    rw [← hst.size, h.second.2] at hlt
    omega
  have hfree := h.free hi
  have hcost : blockCost ((66944000 + 1023) / 1024) = 65504 := rfl
  have hmissing : missingDirect s.image (s.inode 2) 5 = 1 := by
    rw [missingDirect_succ (by decide), hasNode_false (hnode (.data 5) le_rfl)]
    rfl
  rw [hfile, horder, hoffset]
  refine ⟨by decide,by decide,hnode .ind (by decide),?_⟩
  rw [show ((2 : Fin 256) : ℕ) = 2 from rfl, hmissing]
  omega

/-- The last free block is taken for the last direct block, and the write returns 0. -/
theorem short_write_fails : ¬ ∀ s src nbyte, ∀ fd : ℤ, Reach step (fun _ _ => True) fsFormat s → s.Opened fd →
    (s.inode (s.fileOf fd)).fileType = typeRegular →
    (s.descriptor fd.toNat).position = (s.inode (s.fileOf fd)).fileSize.toNat →
    ∃ (r : ℕ) (s' : F19FS), fsWrite s fd (some src) nbyte = some ((r : ℤ),s') ∧ ShortWrite s fd src nbyte r s' := by
  intro h
  obtain ⟨s,content,hs,hi,hold⟩ := filled
  obtain ⟨ho,hfile,horder,hoffset⟩ := hold.cursor
  have hinv : ImageInv s.image := hi.append.image.inv
  have hreg : (s.inode (s.fileOf 1)).fileType = typeRegular := by
    rw [hfile]
    exact hold.second.1
  have hsize : (s.inode (s.fileOf 1)).fileSize.toNat = 5120 := by
    rw [hfile]
    exact hold.second.2
  have hpos : (s.descriptor (1 : ℤ).toNat).position = 5120 := by
    rw [FileDescriptor.position]
    simp only [Int.toNat_one, horder, hoffset]
  have hoff : (s.descriptor (1 : ℤ).toNat).locateOffset.toNat < 1024 := hi.append.offset 1 (by decide)
  have hsafe : WriteSafe s 1 1025 := (hi.append.image.ready (by rw [hreg]; decide) hoff 1025).1
  obtain ⟨r,s',hw,hsw⟩ := h s zeros 1025 1 hs ho hreg (by rw [hpos, hsize])
  rcases fsWrite_done hinv hsafe hoff.le hw with ⟨hneg,_⟩ | ⟨r',sum,m',x',he,hd⟩
  · omega
  obtain rfl : r = r' := by exact_mod_cast he
  have hlt := hd.spill hinv hsafe hoff hw (hold.spills hi)
  have hmax := (hd.greatest hinv hsafe hoff).1
  exact absurd (hsw.greatest.unique hmax) hlt.ne

end LiteOSFS
