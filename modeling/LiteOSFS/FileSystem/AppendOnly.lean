import LiteOSFS.FileSystem.EntryMap
import LiteOSFS.FileSystem.SlotStep
import LiteOSFS.FileSystem.WriteAccount
import Mathlib.Order.Interval.Finset.Nat

/-! # Runs that only append

No file is removed, moved or linked, and every write starts at the end of its file
and returns its full length. Beside the state stands what was written to each
file; the invariant says that the blocks of a file are those of these bytes.
-/
namespace LiteOSFS
open Memory CString Ownership Transition

/-- The calls of such a run. -/
def AppendOnly (s : F19FS) : Call → Prop
  | .write fd src nbyte => (s.inode (s.fileOf fd)).fileType = typeRegular ∧ nbyte ≠ 0 ∧
    (s.descriptor fd.toNat).position = (s.inode (s.fileOf fd)).fileSize.toNat ∧
    ∃ s', fsWrite s fd src nbyte = some ((nbyte.toNat : ℤ),s')
  | .remove _ => False
  | .move _ _ _ => False
  | .link _ _ => False
  | .remount => False
  | _ => True

/-- The data written to each inode, in order. -/
abbrev Contents := Fin 256 → List UInt8

def appended (s : F19FS) (content : Contents) : Call → Contents
  | .write fd (some src) nbyte =>
    Function.update content (s.fileOf fd) (content (s.fileOf fd) ++ (List.range nbyte.toNat).map src)
  | _ => content

/-- The first data block on whose path a node lies. -/
def Node.first : Node → ℕ
  | data b => b
  | ind => 6
  | dbl => 518
  | sec k => 518 + 512 * k

theorem Node.first_le_of_mem {l : Node} {b : ℕ} (h : l ∈ pathTo b) : l.first ≤ b := by
  unfold pathTo at h
  split_ifs at h with h6 h518
  · rw [List.mem_singleton.mp h]
    exact le_rfl
  · rcases List.mem_pair.mp h with rfl | rfl
    · exact Nat.le_of_not_lt h6
    · exact le_rfl
  · simp only [List.mem_cons, List.not_mem_nil, or_false] at h
    rcases h with rfl | rfl | rfl
    · exact Nat.le_of_not_lt h518
    · simp only [first]
      omega
    · exact le_rfl

theorem Node.first_lt_of_touched {l : Node} {b off n : ℕ} (hn : 0 < n) (h : l ∈ touchedNodes b off n) :
    l.first * 1024 < b * 1024 + off + n := by
  obtain ⟨c,hc,hl⟩ := List.mem_flatMap.mp h
  have hle := first_le_of_mem hl
  have hr := (List.mem_range'_1.mp hc).2
  omega

/-- A file holds the bytes `bs`, and has the nodes that these need and no others. -/
structure Stores (m : Mem) (x : Inode) (bs : List UInt8) : Prop where
  size : x.fileSize.toNat = bs.length
  byte : ∀ k (hk : k < bs.length), fileByte m x k = some bs[k]
  node : ∀ l, nodePtr m x l ≠ 0 → l.first * 1024 < bs.length

section Stores
variable {m m' : Mem} {x : Inode} {bs : List UInt8} {j : ℕ}

theorem Stores.block (h : Stores m x bs) {c : ℕ} (hc : c * 1024 < bs.length) : nodePtr m x (.data c) ≠ 0 := by
  have hb := (fileByte_eq_some.mp (h.byte (c * 1024) hc)).1
  rwa [Nat.mul_div_cancel c (by omega)] at hb

theorem SameInode.stores (hs : SameInode m m' j) (hfile : (inodeAt m j).fileType ≠ typeDirectory)
    (h : Stores m (inodeAt m j) bs) : Stores m' (inodeAt m' j) bs := by
  refine ⟨by rw [hs.record]; exact h.size,fun k hk => ?_,fun l hl => ?_⟩
  · rw [hs.fileByte_eq hfile, h.byte k hk]
  · rw [hs.nodePtr_eq hfile] at hl
    exact h.node l hl

theorem stores_of_none (hsize : x.fileSize = 0) (hn : ∀ l, nodePtr m x l = 0) : Stores m x [] :=
  ⟨by rw [hsize]; rfl,fun _ hk => absurd hk (Nat.not_lt_zero _),fun l hl => absurd (hn l) hl⟩

/-- There are 65511 blocks for data. -/
theorem Sound.blocks_le {t : Table} {i : Fin 256} (hs : Sound m t) (hfile : (t i).fileType ≠ typeDirectory) {N : ℕ}
    (hall : ∀ c < N, nodePtr m (t i) (.data c) ≠ 0) : N ≤ 65511 := by
  have hcard := hs.own.card_le (S := (Finset.range N).image (fun c => ((i,.data c) : Place))) (fun q hq => ?_)
    (T := Finset.Ico 17 65528) (fun id hid => Finset.mem_Ico.mpr hid.1)
  · rw [Finset.card_image_of_injective _ (fun a b hab => by simpa using hab), Finset.card_range, Nat.card_Ico] at hcard
    exact hcard
  · obtain ⟨c,hc,rfl⟩ := Finset.mem_image.mp hq
    rw [held, owns_of_file hfile]
    exact hall c (Finset.mem_range.mp hc)

theorem Stores.length_le {t : Table} {i : Fin 256} (h : Stores m (t i) bs) (hs : Sound m t)
    (hfile : (t i).fileType ≠ typeDirectory) : bs.length ≤ 65511 * 1024 := by
  have hN := hs.blocks_le hfile (N := (bs.length + 1023) / 1024) (fun c hc => h.block (by omega))
  omega

end Stores

/-- Blocks that were never used are zero-filled. -/
def FreshZero (m : Mem) : Prop := ∀ b, DataId b → used m b = false → blockAt m b = zeros

theorem FreshZero.clean {m : Mem} (h : FreshZero m) (hs : SysUsed m) (x : Inode) (ns : List Node) : Clean m x ns := by
  intro k id hk
  obtain ⟨hlt,hu⟩ := mem_freeBlocks.mp (mem_of_mem_fill hk)
  refine h id ⟨?_,hlt⟩ hu
  by_contra h17
  rw [hs id (by omega)] at hu
  cases hu

/-- The invariant of the image. The entries of a directory fill its slots from the start. -/
structure AppendImage (m : Mem) (content : Contents) : Prop where
  inv : ImageInv m
  zero : FreshZero m
  names : ∀ d j a i, entryAt m d j = some (a,i) → a.length < 32 ∧ inodeUsed m i = true
  packed : ∀ d < 256, (inodeAt m d).fileType = typeDirectory → ∀ j < 31, (inodeAt m d).live j = true →
    ∀ j' < j, (inodeAt m d).live j' = true
  kind : ∀ i < 256, inodeUsed m i = true → (inodeAt m i).fileType = typeDirectory ∨ (inodeAt m i).fileType = typeRegular
  file : ∀ i : Fin 256, (inodeAt m i).fileType ≠ typeDirectory → Stores m (inodeAt m i) (content i)
  empty : ∀ d < 256, (inodeAt m d).fileType = typeDirectory → (inodeAt m d).fileSize = 0
  free : ∀ i : Fin 256, inodeUsed m i = false → content i = []

/-- Every slot of the descriptor table names an inode that is in use, and has its cursor inside a block. -/
structure AppendInv (q : F19FS × Contents) : Prop where
  image : AppendImage q.1.image q.2
  offset : ∀ k < 256, (q.1.descriptor k).locateOffset.toNat < 1024
  named : ∀ k < 256, inodeUsed q.1.image (q.1.descriptor k).inodeNum.toNat = true

section Format

theorem blockAt_fsFormat {b : ℕ} (hb : DataId b) : blockAt fsFormat.image b = zeros := by
  have halloc : ∀ n, blockAt (allocateTimes blockStoreCreate wholeStore n) b = blockAt blockStoreCreate b := by
    intro n
    induction n with
    | zero => rfl
    | succ n ih =>
      rw [allocateTimes, blockStoreAllocate_whole]
      split_ifs
      · exact ih
      · rw [blockAt_setUsed hb, ih]
  have hz : blockAt blockStoreCreate b = zeros := by
    have hlt := hb.2
    funext a
    rw [blockAt, window]
    split_ifs with ha
    · exact if_neg (by omega)
    · rfl
  rw [fsFormat]
  simp only [blockStoreInodeWrite_table (show 0 < 256 by omega), blockAt_putInode (show 0 < 256 by omega) hb,
    blockStoreSubAllocate, blockStoreAllocate_inode]
  split_ifs with hf
  · rw [halloc, hz]
  · rw [blockAt_setInodeUsed (firstFreeInode_spec hf).1 hb, halloc, hz]

theorem descriptor_fsFormat (k : ℕ) : fsFormat.descriptor k = ⟨0,0,0,0⟩ := by
  have hz : window blockStoreFdCreate (k * 6) 6 = zeros := by
    funext i
    rw [window]
    split_ifs <;> rfl
  rw [F19FS.descriptor, fsFormat]
  simp only [hz]
  rfl

theorem live_rootInode {j : ℕ} (hj : j < 31) : rootInode.live j = false := by
  rw [Inode.live_eq _ hj]
  simp [rootInode, Inode.cleared]

theorem nodePtr_fsFormat {i : ℕ} (hi : i < 256) (hfile : (inodeAt fsFormat.image i).fileType ≠ typeDirectory) (l : Node) :
    nodePtr fsFormat.image (inodeAt fsFormat.image i) l = 0 := by
  have hh : owns fsFormat.image (inodeAt fsFormat.image i) l = 0 := held_fsFormat (⟨i,hi⟩,l)
  rwa [owns_of_file hfile] at hh

theorem size_fsFormat {i : ℕ} (hi : i < 256) : (inodeAt fsFormat.image i).fileSize = 0 := by
  rw [inodeAt_fsFormat hi]
  split_ifs <;> rfl

theorem entryAt_fsFormat (d j : ℕ) : entryAt fsFormat.image d j = none := by
  rw [entryAt_eq_none]
  rintro ⟨hd,hj,hdir,hl⟩
  rw [inodeAt_fsFormat hd] at hdir hl
  split_ifs at hdir hl
  · rw [live_rootInode hj] at hl
    cases hl
  · cases hdir

theorem inodeUsed_fsFormat {i : ℕ} (hi : i < 256) : inodeUsed fsFormat.image i = decide (i = 0) := by
  have hall : ∀ i < 256, inodeUsed fsFormat.image i = decide (i = 0) := by decide +kernel
  exact hall i hi

theorem append_fsFormat : AppendInv (fsFormat,fun _ => []) := by
  refine ⟨⟨fsFormat_inv,fun b hb _ => blockAt_fsFormat hb,fun d j a i he => ?_,fun d hd hdir j hj hl => ?_,
    fun i hi hu => ?_,fun i hfile => ?_,fun d hd _ => size_fsFormat hd,fun _ _ => rfl⟩,fun k _ => ?_,fun k _ => ?_⟩
  · rw [entryAt_fsFormat] at he
    cases he
  · have he := entryAt_fsFormat d j
    rw [entryAt_live hd hj hdir hl] at he
    cases he
  · rw [inodeUsed_fsFormat hi, decide_eq_true_eq] at hu
    rw [inodeAt_fsFormat hi, if_pos hu]
    exact Or.inl rfl
  · have hi := i.isLt
    exact stores_of_none (size_fsFormat hi) (nodePtr_fsFormat hi hfile)
  · rw [descriptor_fsFormat]
    decide
  · rw [descriptor_fsFormat]
    exact fsFormat_rootUsed

end Format

section Create
variable {m m' : Mem} {content : Contents}

theorem AppendImage.setUsed (h : AppendImage m content) (id : ℕ) : AppendImage (setUsed m id) content := by
  have hsame : ∀ j < 256, SameInode m (LiteOSFS.setUsed m id) j := fun j hj =>
    ⟨inodeAt_setUsed hj,fun n hn => blockAt_setUsed (h.inv.sound.own.dataId (q := (⟨j,hj⟩,n)) hn)⟩
  refine ⟨h.inv.setUsed id,fun b hb hu => ?_,fun d j a i he => ?_,fun d hd => ?_,fun i hi hu => ?_,fun i hfile => ?_,
    fun d hd hdir => ?_,fun i hu => ?_⟩
  · rw [used_setUsed, Bool.or_eq_false_iff] at hu
    rw [blockAt_setUsed hb, h.zero b hb hu.2]
  · have hd := (entryAt_eq_some.mp he).1.1
    rw [(hsame d hd).entryAt_eq h.inv] at he
    obtain ⟨ha,hu⟩ := h.names d j a i he
    exact ⟨ha,by rwa [inodeUsed_setUsed (entryAt_lt he)]⟩
  · rw [inodeAt_setUsed hd]
    exact h.packed d hd
  · rw [inodeUsed_setUsed hi] at hu
    rw [inodeAt_setUsed hi]
    exact h.kind i hi hu
  · rw [inodeAt_setUsed i.isLt] at hfile
    exact (hsame i i.isLt).stores hfile (h.file i hfile)
  · rw [inodeAt_setUsed hd] at hdir ⊢
    exact h.empty d hd hdir
  · rw [inodeUsed_setUsed i.isLt] at hu
    exact h.free i hu

theorem nodePtr_childInode (type : FileT) (c : ℕ) (l : Node) : nodePtr m (childInode type c) l = 0 := by
  cases l with
  | data b =>
    simp only [nodePtr, Inode.top, childInode, Inode.cleared]
    split_ifs <;> rfl
  | _ => rfl

theorem AppendImage.created (h : AppendImage m content) {p k b c : ℕ} {name : CStr} {type : FileT} (hp : p < 256)
    (hdir : (inodeAt m p).fileType = typeDirectory) (hname : FitsSlot name) (hc : Created m p name type m' k b c)
    (hinv : ImageInv m') : AppendImage m' content := by
  have hcp := hc.child_ne_parent h.inv hp hdir
  have hdir' : (inodeAt m' p).fileType = typeDirectory := by
    rw [hc.parent]
    exact hdir
  have hfirst : k = 0 → ∀ j < 31, (inodeAt m p).live j = false := by
    rintro rfl j hj
    by_contra hl
    rw [Bool.not_eq_false] at hl
    have hv := hc.vacant
    by_cases h0 : j = 0
    · rw [h0] at hl
      rw [hl] at hv
      cases hv
    · rw [h.packed p hp hdir j hj hl 0 (by omega)] at hv
      cases hv
  have hentry := hc.entryAt_eq h.inv hp hdir hname (fun d j a i he => (h.names d j a i he).1) hfirst
  have hused : ∀ i < 256, inodeUsed m i = true → inodeUsed m' i = true := by
    intro i hi hu
    rw [hc.bits i hi, hu, Bool.or_true]
  refine ⟨hinv,fun x hx hu => ?_,fun d j a i he => ?_,fun d hd hdird j hj hl j' hj' => ?_,fun i hi hu => ?_,
    fun i hfile => ?_,fun d hd hdird => ?_,fun i hu => ?_⟩
  · have hlt := hx.2
    rw [hc.marks x (by omega), Bool.or_eq_false_iff, decide_eq_false_iff_not] at hu
    rw [hc.blocks x hx hu.1, h.zero x hx hu.2]
  · rw [hentry] at he
    split_ifs at he
    · cases he
      exact ⟨hname.2,by rw [hc.bits c hc.inodeLt, decide_eq_true rfl]; rfl⟩
    · obtain ⟨ha,hu⟩ := h.names d j a i he
      exact ⟨ha,hused i (entryAt_lt he) hu⟩
  · by_cases hdp : p = d
    · subst hdp
      rw [hc.parent, Inode.live_withEntry _ hc.slot hj, Bool.or_eq_true, decide_eq_true_eq] at hl
      rw [hc.parent, Inode.live_withEntry _ hc.slot (by omega)]
      rcases hl with hl | rfl
      · rw [h.packed p hp hdir j hj hl j' hj', Bool.true_or]
      · rw [hc.packed j' hj', Bool.true_or]
    · by_cases hdc : c = d
      · subst hdc
        rw [hc.child, live_childInode type c hj] at hl
        cases hl
      · rw [hc.others d hd hdp hdc] at hdird hl ⊢
        exact h.packed d hd hdird j hj hl j' hj'
  · by_cases hip : p = i
    · exact Or.inl (hip ▸ hdir')
    · by_cases hic : c = i
      · rw [← hic, hc.child, childInode]
        dsimp only
        split_ifs
        · exact Or.inr rfl
        · exact Or.inl rfl
      · rw [hc.bits i hi, decide_eq_false hic, Bool.false_or] at hu
        rw [hc.others i hi hip hic]
        exact h.kind i hi hu
  · by_cases hip : p = i.val
    · exact absurd (hip ▸ hdir') hfile
    · by_cases hic : c = i.val
      · have hempty : content i = [] := h.free i (hic ▸ hc.inodeFree)
        rw [← hic, hc.child, hempty]
        exact stores_of_none rfl (nodePtr_childInode type c)
      · have hrec := hc.others i i.isLt hip hic
        rw [hrec] at hfile
        exact (hc.sameInode h.inv hp i.isLt hip hic).stores hfile (h.file i hfile)
  · by_cases hdp : p = d
    · rw [← hdp, hc.parent]
      exact h.empty p hp hdir
    · by_cases hdc : c = d
      · rw [← hdc, hc.child]
        rfl
      · rw [hc.others d hd hdp hdc] at hdird ⊢
        exact h.empty d hd hdird
  · rw [hc.bits i i.isLt, Bool.or_eq_false_iff] at hu
    exact h.free i hu.2

end Create

section Write
variable {s s' : F19FS} {content : Contents} {fd : ℤ} {src : Mem} {nbyte : UInt64} {r sum : ℕ} {m' : Mem} {x' : Inode}

theorem position_eq (d : FileDescriptor) : d.locateOrder.toNat * 1024 + d.locateOffset.toNat = d.position := rfl

theorem AppendImage.ready (h : AppendImage s.image content) (hfile : (s.inode (s.fileOf fd)).fileType ≠ typeDirectory)
    (hoff : (s.descriptor fd.toNat).locateOffset.toNat < 1024) (nbyte : UInt64) :
    WriteSafe s fd nbyte ∧ Ready s.image (tableOf s.image) (s.fileOf fd) (s.descriptor fd.toNat).locateOrder.toNat
      (s.descriptor fd.toNat).locateOffset.toNat nbyte.toNat :=
  ⟨fun _ _ _ => ⟨hfile,h.zero.clean h.inv.sound.sys _ _⟩,h.inv.sound,hfile,UInt16.toNat_lt _,hoff.le,UInt64.toNat_lt _,
    h.zero.clean h.inv.sound.sys _ _⟩

/-- A write at the end of its file adds its bytes. -/
theorem AppendImage.stores_written (h : AppendImage s.image content)
    (hfile : (s.inode (s.fileOf fd)).fileType ≠ typeDirectory) (hoff : (s.descriptor fd.toNat).locateOffset.toNat < 1024)
    (hn : 0 < nbyte.toNat) (hpos : (s.descriptor fd.toNat).position = (s.inode (s.fileOf fd)).fileSize.toNat)
    (hd : WriteDone s fd src nbyte nbyte.toNat sum m' x' s') :
    Stores s'.image (s'.inode (s.fileOf fd)) (content (s.fileOf fd) ++ (List.range nbyte.toNat).map src) := by
  have hst : Stores s.image (s.inode (s.fileOf fd)) (content (s.fileOf fd)) := h.file _ hfile
  have hlen := hst.size
  rw [← hpos] at hlen
  have hsum : sum = nbyte.toNat := le_antisymm hd.effect.sumLe hd.count_le
  have hb := hd.end_bound hoff.le
  have hplace := position_eq (s.descriptor fd.toNat)
  have hal : Aligned s.image (s.inode (s.fileOf fd)) (s.descriptor fd.toNat).locateOrder.toNat
      (s.descriptor fd.toNat).locateOffset.toNat := by
    by_cases h0 : (s.descriptor fd.toNat).locateOffset.toNat = 0
    · exact Or.inl h0
    · exact Or.inr (Or.inl (hst.block (by omega)))
  refine ⟨?_,fun k hk => ?_,fun l hl => ?_⟩
  · rw [hd.inode_eq (s.fileOf fd).isLt, if_pos rfl, UInt64.toNat_add, UInt64.toNat_ofNat', List.length_append,
      List.length_map, List.length_range, hst.size]
    omega
  · rw [hd.fileByte_eq hfile]
    by_cases hold : k < (content (s.fileOf fd)).length
    · rw [List.getElem_append_left hold]
      exact hd.effect.outside k _ (hst.byte k hold) (by omega)
    · rw [List.length_append, List.length_map, List.length_range] at hk
      rw [List.getElem_append_right (by omega), List.getElem_map, List.getElem_range,
        ← hd.effect.inside hal (k - (content (s.fileOf fd)).length) (by omega)]
      exact congrArg (fileByte m' x') (by omega)
  · rw [hd.nodePtr_eq hfile] at hl
    rw [List.length_append, List.length_map, List.length_range]
    by_cases hold : nodePtr s.image (s.inode (s.fileOf fd)) l = 0
    · have ht := (hd.wrote.account (h.ready hfile hoff nbyte).2).2 l hold hl
      have hlt := Node.first_lt_of_touched hn ht
      omega
    · have hlt := hst.node l hold
      omega

theorem AppendImage.written (h : AppendImage s.image content) (hused : inodeUsed s.image (s.fileOf fd) = true)
    (hfile : (s.inode (s.fileOf fd)).fileType ≠ typeDirectory) (hoff : (s.descriptor fd.toNat).locateOffset.toNat < 1024)
    (hn : 0 < nbyte.toNat) (hpos : (s.descriptor fd.toNat).position = (s.inode (s.fileOf fd)).fileSize.toNat)
    (hd : WriteDone s fd src nbyte nbyte.toNat sum m' x' s') (hinv : ImageInv s'.image) :
    AppendImage s'.image (appended s content (.write fd (some src) nbyte)) := by
  have hext := hd.effect.ext
  have hacc := (hd.wrote.account (h.ready hfile hoff nbyte).2).1
  have hstore := h.stores_written hfile hoff hn hpos hd
  have hi := (s.fileOf fd).isLt
  have hrec : ∀ j < 256, inodeAt s'.image j = if (s.fileOf fd).val = j then
      { x' with fileSize := x'.fileSize + UInt64.ofNat nbyte.toNat } else inodeAt s.image j := by
    intro j hj
    rw [hd.image, inodeAt_putInode, hext.inodes j hj]
  have hbits : ∀ j < 256, inodeUsed s'.image j = inodeUsed s.image j := by
    intro j hj
    rw [hd.image, inodeUsed_putInode hj, hext.inodeBits j hj]
  have htype : (inodeAt s'.image (s.fileOf fd)).fileType = (inodeAt s.image (s.fileOf fd)).fileType := by
    rw [hrec _ hi, if_pos rfl]
    show x'.fileType = _
    exact attributes_fileType hext.attrs
  have hsame : ∀ j < 256, (s.fileOf fd).val ≠ j → SameInode s.image s'.image j := by
    intro j hj hne
    rw [hd.image]
    exact hext.sameInode h.inv hj hne _
  have hmap : ∀ d j, entryAt s'.image d j = entryAt s.image d j := by
    intro d j
    by_cases hdi : (s.fileOf fd).val = d
    · rw [← hdi, entryAt_of_file hfile, entryAt_of_file (by rw [htype]; exact hfile)]
    · by_cases hlt : d < 256
      · exact (hsame d hlt hdi).entryAt_eq h.inv j
      · rw [entryAt_eq_none.mpr (fun hc => hlt hc.1), entryAt_eq_none.mpr (fun hc => hlt hc.1)]
  refine ⟨hinv,fun b hb hu => ?_,fun d j a i he => ?_,fun d hlt hdir => ?_,fun i hlt hu => ?_,fun i hfi => ?_,
    fun d hlt hdir => ?_,fun i hu => ?_⟩
  · have hlt := hb.2
    rw [hd.image, used_putInode hi (by omega)] at hu
    rw [hd.image, blockAt_putInode hi hb, hacc.untouched b hb hu]
    refine h.zero b hb ?_
    by_contra hc
    rw [hext.mono b (by omega) (by simpa using hc)] at hu
    cases hu
  · rw [hmap] at he
    obtain ⟨ha,hu⟩ := h.names d j a i he
    exact ⟨ha,by rwa [hbits i (entryAt_lt he)]⟩
  · by_cases hdi : (s.fileOf fd).val = d
    · rw [← hdi, htype] at hdir
      exact absurd hdir hfile
    · rw [hrec d hlt, if_neg hdi] at hdir ⊢
      exact h.packed d hlt hdir
  · rw [hbits i hlt] at hu
    by_cases hij : (s.fileOf fd).val = i
    · rw [← hij, htype]
      exact h.kind _ hi hused
    · rw [hrec i hlt, if_neg hij]
      exact h.kind i hlt hu
  · by_cases hij : s.fileOf fd = i
    · subst hij
      rw [appended, Function.update_self]
      exact hstore
    · have hne : (s.fileOf fd).val ≠ i.val := fun he => hij (Fin.ext he)
      rw [hrec i i.isLt, if_neg hne] at hfi
      rw [appended, Function.update_of_ne (Ne.symm hij)]
      exact (hsame i i.isLt hne).stores hfi (h.file i hfi)
  · by_cases hdi : (s.fileOf fd).val = d
    · rw [← hdi, htype] at hdir
      exact absurd hdir hfile
    · rw [hrec d hlt, if_neg hdi] at hdir ⊢
      exact h.empty d hlt hdir
  · rw [hbits i i.isLt] at hu
    have hij : i ≠ s.fileOf fd := by
      rintro rfl
      rw [hused] at hu
      cases hu
    rw [appended, Function.update_of_ne hij]
    exact h.free i hu

end Write

theorem AppendImage.size_lt {m : Mem} {content : Contents} (h : AppendImage m content) {i : ℕ} (hi : i < 256) :
    (inodeAt m i).fileSize.toNat < 2 ^ 31 := by
  by_cases hd : (inodeAt m i).fileType = typeDirectory
  · rw [h.empty i hi hd]
    decide
  · have hst : Stores m (tableOf m ⟨i,hi⟩) (content ⟨i,hi⟩) := h.file ⟨i,hi⟩ hd
    have hle := hst.length_le h.inv.sound hd
    rw [← hst.size] at hle
    have he : (tableOf m ⟨i,hi⟩).fileSize = (inodeAt m i).fileSize := rfl
    rw [he] at hle
    omega

/-- The cursor stays inside its block, and the slot on an inode in use. -/
theorem SlotStep.append {s s' : F19FS} {content : Contents} {ret : ℤ} {k : ℕ} (hs : SlotStep s ret k s')
    (h : AppendInv (s,content)) (hk : k < 256) (hused : ∀ i < 256, inodeUsed s.image i = true → inodeUsed s'.image i = true) :
    (s'.descriptor k).locateOffset.toNat < 1024 ∧ inodeUsed s'.image (s'.descriptor k).inodeNum.toNat = true := by
  have hoff := h.offset k hk
  have hnum := hused _ (UInt8.toNat_lt _) (h.named k hk)
  cases hs with
  | same hd _ => rw [hd]; exact ⟨hoff,hnum⟩
  | closed hd _ => rw [hd]; exact ⟨hoff,hnum⟩
  | leaked _ hd => rw [hd]; exact ⟨hoff,hnum⟩
  | cleared hd _ =>
    rw [hd]
    exact ⟨by decide,hused 0 (by omega) ((h.image.inv.record 0 (by omega)).marked h.image.inv.root)⟩
  | opened tokens _ _ _ _ hd =>
    rw [hd]
    have hlt := walk_lt s.image tokens
    refine ⟨show (0 : UInt16).toNat < 1024 by decide,?_⟩
    simp only
    rw [UInt8.toNat_ofNat', Nat.mod_eq_of_lt hlt]
    refine hused _ hlt (walk_induct h.image.inv ?_ (fun d j a i _ he => (h.image.names d j a i he).2) tokens)
    exact (h.image.inv.record 0 (by omega)).marked h.image.inv.root
  | advanced n _ _ hd _ =>
    rw [hd, updateFD_inodeNum]
    exact ⟨updateFD_offset hoff.le n,hnum⟩
  | sought target _ hd _ =>
    -- the file is too short for its size to be read as a negative `int`
    obtain ⟨v,_,hv⟩ := cutBoundary_of_small (h.image.size_lt (UInt8.toNat_lt _)) target
    rw [hd, F19FS.inode, hv, updateFD_inodeNum]
    exact ⟨updateFD_offset (Nat.zero_le _) v,hnum⟩

theorem CreateChecked.fits {m : Mem} {path : Option PathArg} {q name : CStr} {tokens : List CStr} {d : ℕ}
    (h : CreateChecked m q tokens d name) (hq : pathOf path = some q) : FitsSlot name := by
  obtain ⟨a,_,rfl⟩ := mem_pathOf hq
  have hlen := isValidFileName_length (List.all_eq_true.mp h.valid _ h.mem)
  exact ⟨splitPath_nulFree h.split a.nulFree h.mem,by omega⟩

theorem append_step {q q' : F19FS × Contents} {c : Call} (h : AppendInv q) (hg : AppendOnly q.1 c)
    (hs : ghost step appended q c = some q') : AppendInv q' := by
  obtain ⟨s,content⟩ := q
  obtain ⟨s',content'⟩ := q'
  obtain ⟨hstep,hcontent⟩ := of_ghost hs
  obtain ⟨ret,hc⟩ := step_call hstep
  simp only at hstep hcontent hc hg
  have hslots : AppendImage s'.image content' →
      (∀ i < 256, inodeUsed s.image i = true → inodeUsed s'.image i = true) → AppendInv (s',content') :=
    fun hi hu => ⟨hi,fun k hk => ((call_slot hk hc).append h hk hu).1,fun k hk => ((call_slot hk hc).append h hk hu).2⟩
  have hsame : s'.image = s.image → content' = content → AppendInv (s',content') := by
    intro he hcc
    refine hslots ?_ (fun i _ hu => by rwa [he])
    rw [he, hcc]
    exact h.image
  cases c with
  | create path type =>
    have hinv := (fsCreate_inv h.image.inv hc).1
    rcases (fsCreate_effect h.image.inv hc).2 with ⟨_,he⟩ | ⟨q,tokens,d,name,hq,_,hch,⟨_,ht⟩ | ⟨_,k,b,c,hcr⟩⟩
    · exact hsame he hcontent
    · refine hslots ?_ (fun i hi hu => by rwa [ht.image, inodeUsed_setUsed hi])
      rw [ht.image, hcontent]
      exact h.image.setUsed _
    · refine hslots ?_ (fun i hi hu => by rw [hcr.bits i hi, hu, Bool.or_true])
      rw [hcontent]
      exact h.image.created hch.lt hch.directory (hch.fits hq) hcr hinv
  | openFile path => exact hsame (fsOpen_image hc) hcontent
  | close fd => exact hsame (by rw [← fsClose_image s fd, Option.some.inj hc]) hcontent
  | read fd dstNull nbyte =>
    obtain ⟨⟨_,bytes,_⟩,hr,he⟩ := Option.map_eq_some_iff.mp hc
    cases he
    exact hsame (fsRead_image hr) hcontent
  | seek fd offset whence => exact hsame (fsSeek_image hc) hcontent
  | write fd src nbyte =>
    obtain ⟨hreg,hn,hpos,s₁,hw⟩ := hg
    have hpos0 : 0 < nbyte.toNat := by
      apply Nat.pos_of_ne_zero
      intro h0
      exact hn (UInt64.toNat_inj.mp h0)
    cases (hc : fsWrite s fd src nbyte = _).symm.trans hw
    have hfile : (s.inode (s.fileOf fd)).fileType ≠ typeDirectory := by
      rw [hreg]
      decide
    cases src with
    | none =>
      cases hw
    | some src =>
      have ho : s.Opened fd := by
        by_contra hno
        obtain ⟨r,hr,he⟩ := fsWrite_closed hno (some src) nbyte
        cases he.symm.trans hw
        omega
      have hoff := h.offset fd.toNat ho.lt
      have hsafe := (h.image.ready hfile hoff nbyte).1
      rcases fsWrite_done h.image.inv hsafe hoff.le hw with ⟨hneg,_⟩ | ⟨r,sum,m',x',hr,hd⟩
      · omega
      obtain rfl : nbyte.toNat = r := by exact_mod_cast hr
      have hinv := (fsWrite_inv h.image.inv hsafe hw).1
      refine hslots ?_ (fun i hi hu => ?_)
      · rw [hcontent]
        exact h.image.written (h.named fd.toNat ho.lt) hfile hoff hpos0 hpos hd hinv
      · rw [hd.image, inodeUsed_putInode hi, hd.effect.ext.inodeBits i hi]
        exact hu
  | remove _ => exact hg.elim
  | move _ _ _ => exact hg.elim
  | link _ _ => exact hg.elim
  | remount => exact hg.elim

end LiteOSFS
