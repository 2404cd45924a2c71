import LiteOSFS.FileSystem.ReadRefinement
import LiteOSFS.FileSystem.FileCalls

/-! # The law of fs_read

The count asked for is cut with the position that `getPreviosOffset` rebuilds,
which lies a block too low inside a block other than the first; the bytes are
those from the position of the cursor on.
-/
namespace LiteOSFS
open Memory CString Transition Ownership

/-- `fs_read` stores the bytes of the file from the position on, up to its end, and moves the position past
them; nothing else changes. -/
def ReadExact (s : F19FS) (fd : ℤ) (nbyte : UInt64) : Prop :=
  ∃ (bytes : List UInt8) (s' : F19FS), fsRead s fd false nbyte = some ((bytes.length : ℤ),bytes,s') ∧
    bytes.length = min nbyte.toNat ((s.inode (s.fileOf fd)).fileSize.toNat - (s.descriptor fd.toNat).position) ∧
    (∀ k (hk : k < bytes.length),
      fileByte s.image (s.inode (s.fileOf fd)) ((s.descriptor fd.toNat).position + k) = some bytes[k]) ∧
    (s'.descriptor fd.toNat).position = (s.descriptor fd.toNat).position + bytes.length ∧ s'.fileOf fd = s.fileOf fd ∧
    s'.image = s.image ∧ (∀ k, s'.isOpen k = s.isOpen k) ∧
    ∀ k ≠ fd.toNat, s'.descriptor k = s.descriptor k

/-- The count is cut as it should be. -/
def CountCut (d : FileDescriptor) (size nbyte : ℕ) : Prop :=
  nbyte ≤ size - d.position ∨
    ((d.locateOrder = 0 ∨ d.locateOffset = 0) ∧ d.position + nbyte < 2 ^ 64)

/-- The file ends with its last block, and the next one is not there. -/
def EndsAtHole (m : Mem) (x : Inode) : Prop :=
  x.fileSize.toNat % 1024 = 0 ∧ nodePtr m x (.data (x.fileSize.toNat / 1024)) = 0

def ReadGuard (s : F19FS) (fd : ℤ) (nbyte : UInt64) : Prop :=
  nbyte = 0 ∨
  ((s.descriptor fd.toNat).locateOffset.toNat ≤ 1024 ∧
    (s.descriptor fd.toNat).position + min nbyte.toNat
      ((s.inode (s.fileOf fd)).fileSize.toNat - (s.descriptor fd.toNat).position) < 65536 * 1024 ∧
    (CountCut (s.descriptor fd.toNat) (s.inode (s.fileOf fd)).fileSize.toNat nbyte.toNat ∨
      EndsAtHole s.image (s.inode (s.fileOf fd)))) ∨
  (1024 < (s.descriptor fd.toNat).locateOffset.toNat ∧ (s.descriptor fd.toNat).locateOrder = 0 ∧
    (s.descriptor fd.toNat).position = (s.inode (s.fileOf fd)).fileSize.toNat ∧
    (s.descriptor fd.toNat).position + nbyte.toNat < 2 ^ 64)

section Count
variable {d : FileDescriptor} {size nbyte : ℕ}

theorem getPreviosOffset_cases (d : FileDescriptor) :
    ((d.locateOrder = 0 ∨ d.locateOffset = 0) ∧ getPreviosOffset d = d.position) ∨
    ((d.locateOrder ≠ 0 ∧ d.locateOffset ≠ 0) ∧ getPreviosOffset d + 1024 = d.position) := by
  have horder : d.locateOrder.toNat = 0 ↔ d.locateOrder = 0 := UInt16.toNat_inj (b := 0)
  have hoffset : d.locateOffset.toNat = 0 ↔ d.locateOffset = 0 := UInt16.toNat_inj (b := 0)
  unfold getPreviosOffset FileDescriptor.position
  simp only
  split_ifs with h0 h1
  · exact Or.inl ⟨Or.inl (horder.mp h0),by omega⟩
  · exact Or.inr ⟨⟨fun h => h0 (horder.mpr h),fun h => h1 (hoffset.mpr h)⟩,by omega⟩
  · exact Or.inl ⟨Or.inr (hoffset.mp (by omega)),by omega⟩

theorem readCount_lt (hn : nbyte < 2 ^ 64) : readCount d size nbyte < 2 ^ 64 := by
  unfold readCount
  simp only
  split_ifs
  · exact Nat.mod_lt _ (by omega)
  · exact hn

/-- The count is right when it is cut as it should be, and too large otherwise. -/
theorem readCount_eq (hp : d.position ≤ size) (hn : nbyte < 2 ^ 64)
    (h : CountCut d size nbyte) : readCount d size nbyte = min nbyte (size - d.position) := by
  unfold readCount CountCut at *
  simp only
  rcases getPreviosOffset_cases d with ⟨hz,he⟩ | ⟨hz,he⟩
  · simp only [hz, true_and] at h
    rw [he]
    split_ifs <;> omega
  · have hno : ¬ (d.locateOrder = 0 ∨ d.locateOffset = 0) := fun ho => ho.elim hz.1 hz.2
    simp only [hno, false_and, or_false] at h
    split_ifs <;> omega

theorem lt_readCount (hp : d.position ≤ size) (hn : nbyte < 2 ^ 64)
    (h : ¬ CountCut d size nbyte) : size - d.position < nbyte ∧ size - d.position < readCount d size nbyte := by
  unfold readCount CountCut at *
  simp only
  rcases getPreviosOffset_cases d with ⟨hz,he⟩ | ⟨hz,he⟩
  · simp only [hz, true_and] at h
    rw [he]
    split_ifs <;> omega
  · have hno : ¬ (d.locateOrder = 0 ∨ d.locateOffset = 0) := fun ho => ho.elim hz.1 hz.2
    simp only [hno, false_and, or_false] at h
    split_ifs <;> omega

end Count

section Past
variable {m : Mem} {x : Inode} {b off n : ℕ}

theorem memcpyFrom_past {block : Mem} {len : ℕ} (ho : 1024 ≤ off) (hl : 0 < len) : memcpyFrom block off len = none :=
  if_neg (by omega)

theorem readIndirectBlock_past {p : Node} {base id fuel : ℕ} (hid : ∀ n, nodePtr m x n ≤ 65528)
    (hat : AtIndex m x p base id) (hlo : base ≤ b) (hhi : b < base + 512) (hd : nodePtr m x (.data b) ≠ 0)
    (ho : 1024 < off) (ho' : off < 65536) :
    readIndirectBlock m x (fuel + 1) b off n id = if n = 0 then some [] else none := by
  have halign := hat.align
  have hslot := hat.slot (j := b - base) (by omega)
  rw [show base + (b - base) = b by omega] at hslot
  have hz : pointersOf (blockAt m id) (b - base) ≠ 0 := by
    intro he
    rw [he] at hslot
    exact hd hslot.symm
  have hidp : id ≤ 65528 := hat.ptr ▸ hid p
  rw [readIndirectBlock, if_neg hat.nonzero, blockStoreRead_data hidp]
  simp only [indirectIndex_eq hlo hhi (by omega) halign]
  by_cases hn : n = 0
  · subst hn
    rw [readIndirectLoop, if_neg (by simp)]
    rfl
  · rw [readIndirectLoop, if_pos ⟨by simp only; omega,by simp only; omega⟩]
    have hpos : 0 < min n (2 ^ 64 + 1024 - off) := lt_min (by omega) (by omega)
    simp only [hz, if_false, hslot, blockStoreRead_data (hid _), Option.bind_some, blankSpace_past ho ho',
      memcpyFrom_past ho.le hpos, if_neg hn]

/-- A cursor past its block: only nothing can be read. -/
theorem readFrom_past (hid : ∀ n, nodePtr m x n ≤ 65528) (hb : b < 65536) (hd : nodePtr m x (.data b) ≠ 0)
    (ho : 1024 < off) (ho' : off < 65536) : readFrom m x b off n = if n = 0 then some [] else none := by
  rw [readFrom]
  by_cases h6 : b < 6
  · have hptr : nodePtr m x (.data b) = (x.directPointer ⟨b,h6⟩).toNat := by
      rw [nodePtr, if_pos h6, Inode.top, dif_pos h6]
    rw [if_pos h6, readDirectBlock, dif_pos h6]
    simp only [← hptr, if_neg hd, blockStoreRead_data (hid _), Option.bind_some, blankSpace_past ho ho']
    by_cases hn : n = 0
    · subst hn
      rfl
    · rw [memcpyFrom_past ho.le (lt_min (by omega) (by omega)), if_neg hn]
  rw [if_neg h6]
  by_cases h518 : b < 518
  · have hp : (Node.data b).parent = some (.ind,b - 6) := by rw [Node.parent, if_neg h6, if_pos h518]
    rw [if_pos h518]
    exact readIndirectBlock_past hid (atIndex_ind (parent_ptr_ne_zero hp hd)) (by omega) (by omega) hd ho ho'
  · have hp : (Node.data b).parent = some (.sec ((b - 518) / 512),(b - 518) % 512) := by
      rw [Node.parent, if_neg h6, if_neg h518]
    have hs := parent_ptr_ne_zero hp hd
    have hdbl : nodePtr m x .dbl ≠ 0 := parent_ptr_ne_zero rfl hs
    rw [if_neg h518, readDoubleDirectBlock_sec hid (by omega) hb hdbl hs]
    exact readIndirectBlock_past hid (atIndex_sec (by omega) hdbl hs) (by omega) (by omega) hd ho ho'

end Past

/-- The answer of the readers to a request that the code has cut. -/
def ReadersExact (m : Mem) (x : Inode) (d : FileDescriptor) (nbyte : ℕ) : Prop :=
  ∃ bytes, readFrom m x d.locateOrder.toNat d.locateOffset.toNat (readCount d x.fileSize.toNat nbyte) = some bytes ∧
    bytes.length = min nbyte (x.fileSize.toNat - d.position) ∧
    (∀ k (hk : k < bytes.length), fileByte m x (d.position + k) = some bytes[k]) ∧
    (updateFD d bytes.length).position = d.position + bytes.length

section Readers
variable {m : Mem} {x : Inode} {d : FileDescriptor} {nbyte : ℕ}

theorem updateFD_past (h : 1024 < d.locateOffset.toNat) : updateFD d ((0 : ℕ) : ℤ) = d := by
  have hz : (d.locateOffset.toNat : ℤ) + ((0 : ℕ) : ℤ) = (d.locateOffset.toNat : ℤ) := by simp
  have hne : d.locateOffset ≠ 1024 := by
    intro he
    rw [he] at h
    exact absurd h (by decide)
  have hpos : (((65536 + 1024 - d.locateOffset.toNat) % 65536 : ℕ) : ℤ) ≥ ((0 : ℕ) : ℤ) := by omega
  rw [updateFD]
  simp only [hz, ofInt_natCast, UInt16.ofNat_toNat, if_pos hpos, if_neg hne]

/-- A cursor past its block can read nothing. -/
theorem readersExact_past (hid : ∀ n, nodePtr m x n ≤ 65528) (hp : d.position ≤ x.fileSize.toNat)
    (hall : ∀ c, c * 1024 < x.fileSize.toNat → nodePtr m x (.data c) ≠ 0) (hn : nbyte < 2 ^ 64) (hpos : 0 < nbyte)
    (hoff : 1024 < d.locateOffset.toNat) :
    ReadersExact m x d nbyte ↔ d.locateOrder = 0 ∧ d.position = x.fileSize.toNat ∧ d.position + nbyte < 2 ^ 64 := by
  have hposition : d.position = d.locateOrder.toNat * 1024 + d.locateOffset.toNat := rfl
  have hsize := x.fileSize.toNat_lt
  have hread := fun n => readFrom_past (n := n) hid (UInt16.toNat_lt d.locateOrder) (hall _ (by omega)) hoff
    (UInt16.toNat_lt d.locateOffset)
  have hcount : readCount d x.fileSize.toNat nbyte = 0 ↔
      d.locateOrder = 0 ∧ d.position = x.fileSize.toNat ∧ d.position + nbyte < 2 ^ 64 := by
    unfold readCount
    simp only
    rcases getPreviosOffset_cases d with ⟨hz,he⟩ | ⟨hz,he⟩
    · have h0 : d.locateOrder = 0 := by
        rcases hz with h0 | h0
        · exact h0
        · rw [h0] at hoff
          exact absurd hoff (by decide)
      simp only [h0, true_and]
      rw [he]
      split_ifs <;> omega
    · simp only [hz.1, false_and, iff_false]
      split_ifs <;> omega
  rw [← hcount, ReadersExact]
  simp only [hread]
  constructor
  · rintro ⟨bytes,hr,_⟩
    by_contra hne
    rw [if_neg hne] at hr
    cases hr
  · intro h0
    obtain ⟨_,hend,_⟩ := hcount.mp h0
    refine ⟨[],if_pos h0,?_,fun k hk => absurd hk (Nat.not_lt_zero k),?_⟩
    · rw [hend, Nat.sub_self, Nat.min_zero]
      rfl
    · exact (congrArg FileDescriptor.position (updateFD_past hoff)).trans (Nat.add_zero _).symm

theorem readersExact_iff (hid : ∀ n, nodePtr m x n ≤ 65528) (hp : d.position ≤ x.fileSize.toNat)
    (hall : ∀ c, c * 1024 < x.fileSize.toNat → nodePtr m x (.data c) ≠ 0) (hn : nbyte < 2 ^ 64)
    (hoff : d.locateOffset.toNat ≤ 1024) :
    ReadersExact m x d nbyte ↔ d.position + min nbyte (x.fileSize.toNat - d.position) < 65536 * 1024 ∧
      (CountCut d x.fileSize.toNat nbyte ∨ EndsAtHole m x) := by
  have hposition : d.position = d.locateOrder.toNat * 1024 + d.locateOffset.toNat := rfl
  have hsize := x.fileSize.toNat_lt
  have hb := UInt16.toNat_lt d.locateOrder
  have hout := readFrom_outcome hid hb hoff (n := readCount d x.fileSize.toNat nbyte) (readCount_lt hn)
  constructor
  · rintro ⟨bytes,hr,hlen,_,hmove⟩
    rw [updateFD_position hoff] at hmove
    rw [hr] at hout
    cases hout with
    | read hreads =>
      refine ⟨by rw [← hlen]; omega,?_⟩
      by_contra hno
      have hcut : ¬ CountCut d x.fileSize.toNat nbyte := fun h => hno (Or.inl h)
      obtain ⟨hlong,hmore⟩ := lt_readCount hp hn hcut
      obtain ⟨c,hz,hc⟩ := hreads.stop hoff (by omega)
      -- the read stopped where the file ends
      have hend : x.fileSize.toNat = c * 1024 := by
        have hge : ¬ c * 1024 < x.fileSize.toNat := fun hlt => hall c hlt hz
        omega
      refine hno (Or.inr ⟨?_,?_⟩)
      · rw [hend, Nat.mul_mod_left]
      · rwa [hend, Nat.mul_div_cancel c (by omega)]
  · rintro ⟨hfit,hguard⟩
    have hstop : CountCut d x.fileSize.toNat nbyte ∨ ∃ c, x.fileSize.toNat = c * 1024 ∧ nodePtr m x (.data c) = 0 ∧
        x.fileSize.toNat - d.position < nbyte ∧
        x.fileSize.toNat - d.position < readCount d x.fileSize.toNat nbyte := by
      by_cases hcut : CountCut d x.fileSize.toNat nbyte
      · exact Or.inl hcut
      · obtain ⟨hmod,hz⟩ := hguard.resolve_left hcut
        exact Or.inr ⟨_,by omega,hz,lt_readCount hp hn hcut⟩
    generalize hcount : readCount d x.fileSize.toNat nbyte = count at hout hstop
    cases hr : readFrom m x d.locateOrder.toNat d.locateOffset.toNat count with
    | none =>
      rw [hr] at hout
      cases hout with
      | overrun hover =>
        rcases hstop with hcut | ⟨c,hend,hz,hlong,_⟩
        · have hpast := hover.past
          rw [← hcount, readCount_eq hp hn hcut] at hpast
          omega
        · exact absurd hz (hover.present c (by omega) (by omega))
    | some bytes =>
      rw [hr] at hout
      have hreads : Reads m x d.locateOrder.toNat d.locateOffset.toNat count bytes := by
        cases hout with
        | read hreads => exact hreads
      have hlen : bytes.length = min nbyte (x.fileSize.toNat - d.position) := by
        rcases hstop with hcut | ⟨c,hend,hz,hlong,hmore⟩
        · rw [readCount_eq hp hn hcut] at hcount
          rw [hcount]
          exact hreads.full hoff (fun c _ hc => hall c (by omega))
        · have hle := hreads.length_le_of_hole hoff (c := c) (by omega) hz
          obtain ⟨c',hz',hc'⟩ := hreads.stop hoff (by omega)
          have hge : ¬ c' * 1024 < x.fileSize.toNat := fun hlt => hall c' hlt hz'
          omega
      refine ⟨bytes,hcount ▸ hr,hlen,fun k hk => ?_,?_⟩
      · rw [hposition]
        exact hreads.byte hoff hk
      · rw [updateFD_position hoff, Nat.mod_eq_of_lt (by rw [hlen]; exact hfit)]

end Readers

section Law
variable {s : F19FS} {fd : ℤ} {nbyte : UInt64}

theorem readExact_iff (ho : s.Opened fd) (hn : nbyte ≠ 0) : ReadExact s fd nbyte ↔
    ReadersExact s.image (s.inode (s.fileOf fd)) (s.descriptor fd.toNat) nbyte.toNat := by
  have hstore : ∀ d, (s.storeDescriptor fd.toNat d).descriptor fd.toNat = d := by
    intro d
    rw [storeDescriptor_eq ho.lt, descriptor_putDescriptor, if_pos rfl]
  unfold ReadExact
  rw [fsRead_opened ho hn]
  constructor
  · rintro ⟨bytes,s',hr,hlen,hbytes,hpos,_⟩
    obtain ⟨bs,hb,he⟩ := Option.map_eq_some_iff.mp hr
    simp only [Prod.mk.injEq] at he
    obtain ⟨_,rfl,rfl⟩ := he
    rw [hstore] at hpos
    exact ⟨bs,hb,hlen,hbytes,hpos⟩
  · rintro ⟨bytes,hb,hlen,hbytes,hpos⟩
    refine ⟨bytes,_,Option.map_eq_some_iff.mpr ⟨bytes,hb,rfl⟩,hlen,hbytes,?_,?_,rfl,fun k => ?_,fun k hk => ?_⟩
    · rw [hstore]
      exact hpos
    · have hd : (updateFD (s.descriptor fd.toNat) bytes.length).inodeNum = (s.descriptor fd.toNat).inodeNum := by
        unfold updateFD
        simp only
        split_ifs <;> rfl
      apply Fin.ext
      simp only [F19FS.fileOf, hstore, hd]
    · rw [storeDescriptor_eq ho.lt]
      exact isOpen_putDescriptor s.image ho.lt
    · rw [storeDescriptor_eq ho.lt, descriptor_putDescriptor, if_neg (Ne.symm hk)]

/-- `fs_read` is exact under `ReadGuard` and in no other case. -/
theorem read_law (ho : s.Opened fd) (hid : ∀ n, nodePtr s.image (s.inode (s.fileOf fd)) n ≤ 65528)
    (hp : (s.descriptor fd.toNat).position ≤ (s.inode (s.fileOf fd)).fileSize.toNat)
    (hall : ∀ c, c * 1024 < (s.inode (s.fileOf fd)).fileSize.toNat →
      nodePtr s.image (s.inode (s.fileOf fd)) (.data c) ≠ 0) :
    ReadExact s fd nbyte ↔ ReadGuard s fd nbyte := by
  by_cases hn : nbyte = 0
  · subst hn
    refine ⟨fun _ => Or.inl rfl,fun _ => ⟨[],s,fsRead_nothing ho,?_,fun k hk => absurd hk (Nat.not_lt_zero k),
      (Nat.add_zero _).symm,rfl,rfl,fun _ => rfl,fun _ _ => rfl⟩⟩
    exact (Nat.zero_min _).symm
  have hnpos : 0 < nbyte.toNat := Nat.pos_of_ne_zero (fun he => hn (UInt64.toNat_inj.mp he))
  rw [readExact_iff ho hn, ReadGuard, or_iff_right hn]
  by_cases hoff : (s.descriptor fd.toNat).locateOffset.toNat ≤ 1024
  · rw [readersExact_iff hid hp hall nbyte.toNat_lt hoff]
    exact ⟨fun h => Or.inl ⟨hoff,h⟩,fun h => h.elim And.right (fun h => absurd h.1 (Nat.not_lt_of_le hoff))⟩
  · rw [readersExact_past hid hp hall nbyte.toNat_lt hnpos (Nat.lt_of_not_le hoff)]
    exact ⟨fun h => Or.inr ⟨Nat.lt_of_not_le hoff,h⟩,fun h => h.elim (fun h => absurd h.1 hoff) And.right⟩

end Law

/-- The cursor of a file of 1500 bytes stands at `p`. -/
def sizedRun (p : Int64) : List Call := [.create (pathArg ['/','a']) .regular,.openFile (pathArg ['/','a']),
  .write 0 (some zeros) 1500,.seek 0 p .set]

/-- What the run leads to, as far as reading is concerned. -/
def SizedAt (s : F19FS) (order offset : UInt16) : Prop :=
  (s.isOpen 0 = true ∧ (s.descriptor 0).inodeNum = 1) ∧
    ((s.descriptor 0).locateOrder = order ∧ (s.descriptor 0).locateOffset = offset) ∧
    ((s.inode 1).fileSize = 1500 ∧ (s.inode 1).fileType = typeRegular) ∧
    nodePtr s.image (s.inode 1) (.data 0) = 18 ∧ nodePtr s.image (s.inode 1) (.data 1) = 19

instance (s : F19FS) (order offset : UInt16) : Decidable (SizedAt s order offset) := inferInstanceAs (Decidable (_ ∧ _))

section Sized
variable {s : F19FS} {order offset : UInt16}

theorem SizedAt.opened (h : SizedAt s order offset) : s.Opened 0 := ⟨le_rfl,by decide,h.1.1⟩

theorem SizedAt.inode (h : SizedAt s order offset) : s.inode (s.fileOf 0) = s.inode 1 :=
  congrArg s.inode (congrArg UInt8.toNat h.1.2)

theorem SizedAt.position (h : SizedAt s order offset) : (s.descriptor (0 : ℤ).toNat).position = order.toNat * 1024 + offset.toNat := by
  rw [FileDescriptor.position, show (0 : ℤ).toNat = 0 from rfl, h.2.1.1, h.2.1.2]

theorem SizedAt.size (h : SizedAt s order offset) : (s.inode (s.fileOf 0)).fileSize.toNat = 1500 := by
  rw [h.inode, h.2.2.1.1]
  rfl

theorem SizedAt.blocks (h : SizedAt s order offset) {c : ℕ} (hc : c * 1024 < (s.inode (s.fileOf 0)).fileSize.toNat) :
    nodePtr s.image (s.inode (s.fileOf 0)) (.data c) ≠ 0 := by
  rw [h.size] at hc
  rw [h.inode]
  obtain rfl | rfl : c = 0 ∨ c = 1 := by omega
  · rw [h.2.2.2.1]
    decide
  · rw [h.2.2.2.2]
    decide

end Sized

theorem read_law_sized : ∃ s, run step fsFormat (sizedRun 1024) = some s ∧ ReadExact s 0 1000 := by
  have hrun : (run (checked plain step) fsFormat (sizedRun 1024)).map (fun s => decide (SizedAt s 1 0)) = some true := by
    decide +kernel
  obtain ⟨s,hs,hf⟩ := Option.map_eq_some_iff.mp hrun
  have hat : SizedAt s 1 0 := of_decide_eq_true hf
  have hr := reachable_of_plain hs
  have hfile : (tableOf s.image (s.fileOf 0)).fileType ≠ typeDirectory := by
    have hreg : (s.inode (s.fileOf 0)).fileType = typeRegular := by rw [hat.inode, hat.2.2.1.2]
    rw [show tableOf s.image (s.fileOf 0) = s.inode (s.fileOf 0) from rfl, hreg]
    decide
  have hl : ReadExact s 0 1000 ↔ ReadGuard s 0 1000 := read_law hat.opened (hr.inv.sound.nodePtr_le hfile)
    (by rw [hat.position, hat.size]; decide) (fun _ => hat.blocks)
  refine ⟨s,run_of_checked hs,hl.mpr (Or.inr (Or.inl ⟨?_,?_,Or.inl (Or.inr ⟨Or.inr hat.2.1.2,?_⟩)⟩))⟩
  · rw [show (0 : ℤ).toNat = 0 from rfl, hat.2.1.2]
    decide
  · rw [hat.position, hat.size]
    decide
  · rw [hat.position]
    decide

/-- At position 1100 a read of 1000 bytes returns 948, up to the end of the last block, where 400 are left. -/
theorem read_not_exact : ¬ ∀ s, Reach step (fun _ _ => True) fsFormat s → ∀ fd nbyte, s.Opened fd →
    (s.inode (s.fileOf fd)).fileType = typeRegular →
    (s.descriptor fd.toNat).position ≤ (s.inode (s.fileOf fd)).fileSize.toNat →
    (∀ c, c * 1024 < (s.inode (s.fileOf fd)).fileSize.toNat →
      nodePtr s.image (s.inode (s.fileOf fd)) (.data c) ≠ 0) → ReadExact s fd nbyte := by
  have hrun : (run step fsFormat (sizedRun 1100)).map (fun s => decide (SizedAt s 1 76) &&
      decide ((fsRead s 0 false 1000).map Prod.fst = some 948)) = some true := by decide +kernel
  intro h
  obtain ⟨s,hs,hf⟩ := Option.map_eq_some_iff.mp hrun
  simp only [Bool.and_eq_true, decide_eq_true_eq] at hf
  obtain ⟨hat,hread⟩ := hf
  obtain ⟨bytes,s',hr,hlen,_⟩ := h s (reach_of_run hs) 0 1000 hat.opened (by rw [hat.inode, hat.2.2.1.2])
    (by rw [hat.position, hat.size]; decide) (fun _ => hat.blocks)
  rw [hat.position, hat.size] at hlen
  have hcount : (bytes.length : ℤ) = 948 := by
    rw [hr] at hread
    exact Option.some.inj hread
  rw [hlen] at hcount
  exact absurd hcount (by decide)

end LiteOSFS
