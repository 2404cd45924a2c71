import LiteOSFS.Properties.BlockMap
import LiteOSFS.Properties.Isolation
import LiteOSFS.Properties.Reading
import LiteOSFS.Properties.ShortWrite

/-! # The indices of the readers and writers

Every slot that a reader or a writer looks up is one of its array, whatever the image. The
locator has 16 bits: a transfer that comes past block 65535 wraps it, and goes on to an index
below the double-indirect block.
-/
namespace LiteOSFS
open Memory CString Transition Ownership

/-- The arrays have the slot. -/
def PtrSlot.InRange : PtrSlot → Prop
  | .direct c => c < 6
  | .index level j => j < 512 ∧ ∀ k ∈ level, k < 512

/-- `fd_locator` when `moved` bytes were moved, if it had more bits: it goes up behind every block. -/
def locatorEnd (locator off moved : ℕ) : ℕ := if moved = 0 then locator else locator + (off + moved - 1) / 1024 + 1

section Slots

def SlotsInRange (cs : List Consult) : Prop := ∀ c ∈ cs, c.slot.InRange

theorem slotsInRange_nil : SlotsInRange [] := fun _ hc => nomatch hc

theorem SlotsInRange.cons {c : Consult} {cs : List Consult} (hc : c.slot.InRange) (h : SlotsInRange cs) :
    SlotsInRange (c :: cs) :=
  List.forall_mem_cons.mpr ⟨hc,h⟩

theorem SlotsInRange.append {cs cs' : List Consult} (h : SlotsInRange cs) (h' : SlotsInRange cs') :
    SlotsInRange (cs ++ cs') :=
  List.forall_mem_append.mpr ⟨h,h'⟩

theorem slotsInRange_consult {as : List Access} {level : Option ℕ} {id : ℕ} {m : Mem} {x : Inode}
    {left : Option (Mem × Inode)} (h : ∀ a ∈ as, a.slot < 512) (hlevel : ∀ k ∈ level, k < 512) :
    SlotsInRange (as.map (Access.consult level id m x left)) := by
  intro c hc
  obtain ⟨a,ha,rfl⟩ := List.mem_map.mp hc
  exact ⟨h a ha,hlevel⟩

theorem writeLoop_slots (fuel : ℕ) (st : IndirectWrite) : ∀ a ∈ (writeIndirectLoopTraced fuel st).2, a.slot < 512 := by
  induction fuel generalizing st with
  | zero => exact fun _ ha => absurd ha List.not_mem_nil
  | succ fuel ih =>
    have ha := slotTargetTraced_spec st
    rw [writeIndirectLoopTraced]
    split_ifs with hgo
    · refine List.forall_mem_cons.mpr ⟨ha.slot ▸ hgo.1,?_⟩
      cases (slotTargetTraced st).1 with
      | none => exact fun _ ha => absurd ha List.not_mem_nil
      | some r =>
        dsimp only
        cases memcpyInto ((blockStoreRead r.2.1 wholeStore r.1).getD zeros) st.fdOffset st.src
            (blankSpace st.fdOffset st.nbyte) with
        | none => exact fun _ ha => absurd ha List.not_mem_nil
        | some block => exact ih _
    · exact fun _ ha => absurd ha List.not_mem_nil

theorem readLoop_slots (m : Mem) (ptrs : ℕ → UInt16) (fuel : ℕ) (st : IndirectRead) :
    ∀ a ∈ (readIndirectLoopTraced m ptrs fuel st).2, a.slot < 512 := by
  induction fuel generalizing st with
  | zero => exact fun _ ha => absurd ha List.not_mem_nil
  | succ fuel ih =>
    rw [readIndirectLoopTraced]
    by_cases hgo : st.indirectPtrID < 512 ∧ st.nbyte > 0
    · rw [if_pos hgo]
      dsimp only [fetch]
      by_cases hz : ptrs st.indirectPtrID = 0
      · rw [if_pos hz]
        exact List.forall_mem_singleton.mpr hgo.1
      · rw [if_neg hz]
        refine List.forall_mem_cons.mpr ⟨hgo.1,?_⟩
        cases (blockStoreRead m wholeStore (ptrs st.indirectPtrID).toNat).bind
            (fun block => memcpyFrom block st.fdOffset (blankSpace st.fdOffset st.nbyte)) with
        | none => exact fun _ ha => absurd ha List.not_mem_nil
        | some bytes => exact ih _
    · rw [if_neg hgo]
      exact fun _ ha => absurd ha List.not_mem_nil

/-- A writer or a reader below an index block keeps to the slots there are, when the index block is one there is. -/
def TracedWriter.Ranged (w : TracedWriter) : Prop := ∀ level m x a off src n id, (∀ k ∈ level, k < 512) →
  SlotsInRange (w level m x a off src n id).2

def TracedReader.Ranged (r : TracedReader) : Prop := ∀ level a off n id, (∀ k ∈ level, k < 512) →
  SlotsInRange (r level a off n id).2

theorem level_lt {index : ℤ} (h : ¬ (index < 0 ∨ index ≥ 512)) : ∀ k ∈ some index.toNat, k < 512 := by
  rintro k ⟨⟩
  omega

theorem writeDouble_slots {w : TracedWriter} (hw : w.Ranged) (m : Mem) (x : Inode) (a off : ℕ) (src : Mem) (n : ℕ) :
    SlotsInRange (writeDoubleDirectTraced (fun k => w (some k)) m x a off src n).2 := by
  rw [writeDoubleDirectTraced]
  cases doubleTarget m x with
  | none => exact slotsInRange_nil
  | some r =>
    obtain ⟨doubleID,m',x'⟩ := r
    dsimp only
    cases blockStoreRead m' wholeStore doubleID with
    | none => exact slotsInRange_nil
    | some buffer =>
      dsimp only
      split_ifs with hout hz hfull
      · exact slotsInRange_nil
      · exact slotsInRange_nil
      · exact hw _ _ _ _ _ _ _ _ (level_lt hout)
      · exact hw _ _ _ _ _ _ _ _ (level_lt hout)

theorem writeIndirect_slots (fuel : ℕ) : TracedWriter.Ranged (writeIndirectTraced fuel) := by
  induction fuel with
  | zero => exact fun _ _ _ _ _ _ _ _ _ => slotsInRange_nil
  | succ fuel ih =>
    intro level m x a off src n id hlevel
    rw [writeIndirectTraced]
    cases blockStoreRead m wholeStore id with
    | none => exact slotsInRange_nil
    | some buffer =>
      dsimp only
      have hloop := writeLoop_slots 512 ⟨m,pointersOf buffer,indirectIndex a,a,off,src,n,0⟩
      cases (writeIndirectLoopTraced 512 ⟨m,pointersOf buffer,indirectIndex a,a,off,src,n,0⟩).1 with
      | none => exact slotsInRange_consult hloop hlevel
      | some r =>
        dsimp only
        split_ifs
        · exact slotsInRange_consult hloop hlevel
        · exact (slotsInRange_consult hloop hlevel).append (writeDouble_slots ih _ _ _ _ _ _)

theorem writeDirect_slots (fuel : ℕ) {a : ℕ} (ha : a < 6) (m : Mem) (x : Inode) (off : ℕ) (src : Mem) (n : ℕ) :
    SlotsInRange (writeDirectTraced fuel m x a off src n).2 := by
  induction fuel generalizing a m x off src n with
  | zero => exact slotsInRange_nil
  | succ fuel ih =>
    obtain ⟨hslot,_⟩ := directTargetTraced_spec (m := m) (x := x) ⟨a,ha⟩ off src (blankSpace off n)
    have hrange : (directTargetTraced m x ⟨a,ha⟩ off src (blankSpace off n)).2.slot < 6 := hslot ▸ ha
    rw [writeDirectTraced, dif_pos ha]
    dsimp only
    cases (directTargetTraced m x ⟨a,ha⟩ off src (blankSpace off n)).1 with
    | none => exact slotsInRange_nil.cons hrange
    | some r =>
      cases r with
      | none => exact slotsInRange_nil.cons hrange
      | some r =>
        obtain ⟨blockID,block,m',x'⟩ := r
        dsimp only
        refine SlotsInRange.cons hrange ?_
        split_ifs with h0 hnext
        · exact slotsInRange_nil
        · exact ih hnext _ _ _ _ _
        · cases indirectTarget (blockStoreWrite m' wholeStore blockID block).2 x' with
          | none => exact slotsInRange_nil
          | some r => exact writeIndirect_slots indexRounds none _ _ _ _ _ _ _ (fun _ hk => by cases hk)

theorem writeFrom_slots (m : Mem) (x : Inode) (a off : ℕ) (src : Mem) (n : ℕ) :
    SlotsInRange (writeFromTraced m x a off src n).2 := by
  rw [writeFromTraced]
  split_ifs with h6
  · exact writeDirect_slots 6 h6 m x off src n
  · cases indirectTarget m x with
    | none => exact slotsInRange_nil
    | some r => exact writeIndirect_slots indexRounds none _ _ _ _ _ _ _ (fun _ hk => by cases hk)
  · exact writeDouble_slots (writeIndirect_slots indexRounds) m x a off src n

theorem readDouble_slots {r : TracedReader} (hr : r.Ranged) (m : Mem) (x : Inode) (a off n : ℕ) :
    SlotsInRange (readDoubleDirectTraced (fun k => r (some k)) m x a off n).2 := by
  rw [readDoubleDirectTraced]
  split_ifs
  · exact slotsInRange_nil
  · cases blockStoreRead m wholeStore x.doubleIndirectPointer.toNat with
    | none => exact slotsInRange_nil
    | some buffer =>
      dsimp only
      split_ifs with hout hz
      · exact slotsInRange_nil
      · exact slotsInRange_nil
      · exact hr _ _ _ _ _ (level_lt hout)

theorem readIndirect_slots (m : Mem) (x : Inode) (fuel : ℕ) : TracedReader.Ranged (readIndirectTraced m x fuel) := by
  induction fuel with
  | zero => exact fun _ _ _ _ _ _ => slotsInRange_nil
  | succ fuel ih =>
    intro level a off n id hlevel
    rw [readIndirectTraced]
    by_cases hzero : id = 0
    · rw [if_pos hzero]
      exact slotsInRange_nil
    · rw [if_neg hzero]
      cases blockStoreRead m wholeStore id with
      | none => exact slotsInRange_nil
      | some buffer =>
        dsimp only
        have hloop := readLoop_slots m (pointersOf buffer) 512 ⟨indirectIndex a,a,off,n,[]⟩
        cases (readIndirectLoopTraced m (pointersOf buffer) 512 ⟨indirectIndex a,a,off,n,[]⟩).1 with
        | none => exact slotsInRange_consult hloop hlevel
        | some r =>
          dsimp only
          split_ifs
          · exact slotsInRange_consult hloop hlevel
          · exact (slotsInRange_consult hloop hlevel).append (readDouble_slots ih m x _ _ _)

theorem readDirect_slots (m : Mem) (x : Inode) (fuel : ℕ) {a : ℕ} (ha : a < 6) (off n : ℕ) :
    SlotsInRange (readDirectTraced m x fuel a off n).2 := by
  induction fuel generalizing a off n with
  | zero => exact slotsInRange_nil
  | succ fuel ih =>
    rw [readDirectTraced, if_pos ha]
    simp only [fetch, dif_pos ha]
    by_cases hz : (x.directPointer ⟨a,ha⟩).toNat = 0
    · rw [if_pos hz]
      exact slotsInRange_nil.cons ha
    · rw [if_neg hz]
      refine SlotsInRange.cons ha ?_
      cases (blockStoreRead m wholeStore (x.directPointer ⟨a,ha⟩).toNat).bind
          (fun block => memcpyFrom block off (blankSpace off n)) with
      | none => exact slotsInRange_nil
      | some bytes =>
        dsimp only
        split_ifs with h0 hnext
        · exact slotsInRange_nil
        · exact ih hnext _ _
        · exact readIndirect_slots m x indexRounds none _ _ _ _ (fun _ hk => by cases hk)

theorem readFrom_slots (m : Mem) (x : Inode) (a off n : ℕ) : SlotsInRange (readFromTraced m x a off n).2 := by
  rw [readFromTraced]
  split_ifs with h6
  · exact readDirect_slots m x 6 h6 off n
  · exact readIndirect_slots m x indexRounds none _ _ _ _ (fun _ hk => by cases hk)
  · exact readDouble_slots (readIndirect_slots m x indexRounds) m x a off n

end Slots

section Locator
variable {locator off moved : ℕ}

/-- A block on the way, and the rest of the transfer. -/
theorem locatorEnd_add {k rest : ℕ} (hk : 0 < k) (hle : off + k ≤ 1024) (hrest : rest = 0 ∨ off + k = 1024) :
    locatorEnd locator off (k + rest) = locatorEnd (locator + 1) 0 rest := by
  unfold locatorEnd
  split_ifs <;> omega

theorem locatorEnd_cut : locatorEnd (locator % 65536) off moved % 65536 = locatorEnd locator off moved % 65536 := by
  unfold locatorEnd
  split_ifs <;> omega

theorem locatorEnd_mono {moved' : ℕ} (h : moved ≤ moved') : locatorEnd locator off moved ≤ locatorEnd locator off moved' := by
  unfold locatorEnd
  split_ifs <;> omega

theorem locatorEnd_lt (hoff : off < 1024) (h : locatorEnd locator off moved < 65536) :
    locator * 1024 + off + moved < 65536 * 1024 := by
  unfold locatorEnd at h
  split_ifs at h <;> omega

/-- The variable `fd_locator` of the loops has the low 16 bits of `locatorEnd`. -/
theorem writeLoop_locator {fuel : ℕ} {done : Bool} {st st' : IndirectWrite} (h : writeIndirectLoop fuel st = some (done,st'))
    (hoff : st.fdOffset < 1024) (hfd : st.fdLocator < 65536) (hn : st.nbyte < 2 ^ 64) : ∃ moved ≤ st.nbyte,
      st'.sum = st.sum + moved ∧ st'.fdLocator = locatorEnd st.fdLocator st.fdOffset moved % 65536 := by
  induction fuel generalizing st with
  | zero =>
    cases h
    exact ⟨0,Nat.zero_le _,rfl,(Nat.mod_eq_of_lt hfd).symm⟩
  | succ fuel ih =>
    rw [writeIndirectLoop] at h
    split_ifs at h with hgo
    · cases htarget : slotTarget st with
      | none =>
        rw [htarget] at h
        cases h
        exact ⟨0,Nat.zero_le _,rfl,(Nat.mod_eq_of_lt hfd).symm⟩
      | some r =>
        simp only [htarget] at h
        cases hblock : memcpyInto ((blockStoreRead r.2.1 wholeStore r.1).getD zeros) st.fdOffset st.src
            (blankSpace st.fdOffset st.nbyte) with
        | none =>
          rw [hblock] at h
          cases h
        | some block =>
          rw [hblock] at h
          obtain ⟨rest,hrest,hsum,hloc⟩ := ih h (Nat.zero_lt_succ _) (Nat.mod_lt _ (by decide)) ((Nat.sub_le _ _).trans_lt hn)
          dsimp only at hrest hsum hloc
          rw [blankSpace_eq hoff.le hn] at hrest hsum
          have hpos := hgo.2
          refine ⟨min (1024 - st.fdOffset) st.nbyte + rest,by omega,by omega,?_⟩
          rw [hloc, locatorEnd_cut, locatorEnd_add (by omega) (by omega) (by omega)]
    · cases h
      exact ⟨0,Nat.zero_le _,rfl,(Nat.mod_eq_of_lt hfd).symm⟩

theorem readLoop_locator {m : Mem} {ptrs : ℕ → UInt16} {fuel : ℕ} {done : Bool} {st st' : IndirectRead}
    (h : readIndirectLoop m ptrs fuel st = some (done,st')) (hoff : st.fdOffset < 1024) (hfd : st.fdLocator < 65536)
    (hn : st.nbyte < 2 ^ 64) : ∃ moved ≤ st.nbyte, st'.bytes.length = st.bytes.length + moved ∧
      st'.fdLocator = locatorEnd st.fdLocator st.fdOffset moved % 65536 := by
  induction fuel generalizing st with
  | zero =>
    cases h
    exact ⟨0,Nat.zero_le _,rfl,(Nat.mod_eq_of_lt hfd).symm⟩
  | succ fuel ih =>
    rw [readIndirectLoop] at h
    by_cases hgo : st.indirectPtrID < 512 ∧ st.nbyte > 0
    swap
    · rw [if_neg hgo] at h
      cases h
      exact ⟨0,Nat.zero_le _,rfl,(Nat.mod_eq_of_lt hfd).symm⟩
    rw [if_pos hgo] at h
    by_cases hz : ptrs st.indirectPtrID = 0
    · rw [if_pos hz] at h
      cases h
      exact ⟨0,Nat.zero_le _,rfl,(Nat.mod_eq_of_lt hfd).symm⟩
    rw [if_neg hz] at h
    dsimp only at h
    cases hblock : (blockStoreRead m wholeStore (ptrs st.indirectPtrID).toNat).bind
        (fun block => memcpyFrom block st.fdOffset (blankSpace st.fdOffset st.nbyte)) with
    | none =>
      rw [hblock] at h
      cases h
    | some bytes =>
      rw [hblock] at h
      have hlen : bytes.length = blankSpace st.fdOffset st.nbyte := by
        obtain ⟨block,_,hcopy⟩ := Option.bind_eq_some_iff.mp hblock
        unfold memcpyFrom at hcopy
        split_ifs at hcopy
        cases hcopy
        rw [List.length_map, List.length_range]
      obtain ⟨rest,hrest,hsum,hloc⟩ := ih h (Nat.zero_lt_succ _) (Nat.mod_lt _ (by decide)) ((Nat.sub_le _ _).trans_lt hn)
      dsimp only at hrest hsum hloc
      rw [List.length_append, hlen] at hsum
      rw [blankSpace_eq hoff.le hn] at hrest hsum
      have hpos := hgo.2
      refine ⟨min (1024 - st.fdOffset) st.nbyte + rest,by omega,by omega,?_⟩
      rw [hloc, locatorEnd_cut, locatorEnd_add (by omega) (by omega) (by omega)]

end Locator

/-- A write that comes back with every index inside its array, `fd_locator` not wrapped, and the cursor moved by what
it counts. A call with an index outside the double-indirect block does not come back. -/
def WriteIndexed (s : F19FS) (fd : ℤ) (src : Mem) (nbyte : UInt64) : Prop :=
  SlotsInRange (writeFromTraced s.image (s.inode (s.fileOf fd)) (s.descriptor fd.toNat).locateOrder.toNat
    (s.descriptor fd.toNat).locateOffset.toNat src nbyte.toNat).2 ∧
  ∃ (r : ℕ) (s' : F19FS), fsWrite s fd (some src) nbyte = some ((r : ℤ),s') ∧
    locatorEnd (s.descriptor fd.toNat).locateOrder.toNat (s.descriptor fd.toNat).locateOffset.toNat r < 65536 ∧
    (s'.descriptor fd.toNat).position = (s.descriptor fd.toNat).position + r

def ReadIndexed (s : F19FS) (fd : ℤ) (nbyte : UInt64) : Prop :=
  SlotsInRange (readFromTraced s.image (s.inode (s.fileOf fd)) (s.descriptor fd.toNat).locateOrder.toNat
    (s.descriptor fd.toNat).locateOffset.toNat (readCount (s.descriptor fd.toNat)
      (s.inode (s.fileOf fd)).fileSize.toNat nbyte.toNat)).2 ∧
  ∃ (bytes : List UInt8) (s' : F19FS), fsRead s fd false nbyte = some ((bytes.length : ℤ),bytes,s') ∧
    locatorEnd (s.descriptor fd.toNat).locateOrder.toNat (s.descriptor fd.toNat).locateOffset.toNat bytes.length < 65536 ∧
    (s'.descriptor fd.toNat).position = (s.descriptor fd.toNat).position + bytes.length

/-- No count that the free blocks pay for comes past block 65535. -/
def WriteStops (s : F19FS) (fd : ℤ) (nbyte : UInt64) : Prop :=
  ∀ r ∈ affordableCounts s fd nbyte, locatorEnd (s.descriptor fd.toNat).locateOrder.toNat
    (s.descriptor fd.toNat).locateOffset.toNat r < 65536

/-- Nothing is read, what is asked for does not come past block 65535, or a block on the way is not there. -/
def ReadStops (s : F19FS) (fd : ℤ) (nbyte : UInt64) : Prop :=
  nbyte = 0 ∨ locatorEnd (s.descriptor fd.toNat).locateOrder.toNat (s.descriptor fd.toNat).locateOffset.toNat
      (readCount (s.descriptor fd.toNat) (s.inode (s.fileOf fd)).fileSize.toNat nbyte.toNat) < 65536 ∨
    ∃ c ≤ 65535, (s.descriptor fd.toNat).locateOrder.toNat ≤ c ∧ nodePtr s.image (s.inode (s.fileOf fd)) (.data c) = 0

section Law
variable {s : F19FS} {fd : ℤ} {src : Mem} {nbyte : UInt64}

theorem writeIndexed_iff (hi : ImageInv s.image) (ho : s.Opened fd) (hsafe : WriteSafe s fd nbyte)
    (hoff : (s.descriptor fd.toNat).locateOffset.toNat < 1024) : WriteIndexed s fd src nbyte ↔ WriteStops s fd nbyte := by
  have hdone : ∀ (r : ℕ) (s' : F19FS), fsWrite s fd (some src) nbyte = some ((r : ℤ),s') →
      ∃ sum m' x', WriteDone s fd src nbyte r sum m' x' s' := by
    intro r s' hw
    rcases fsWrite_done hi hsafe hoff.le hw with ⟨hneg,_⟩ | ⟨r',sum,m',x',he,hd⟩
    · omega
    · obtain rfl : r = r' := by exact_mod_cast he
      exact ⟨sum,m',x',hd⟩
  constructor
  · rintro ⟨_,r,s',hw,hlast,_⟩ k hk
    obtain ⟨sum,m',x',hd⟩ := hdone r s' hw
    refine (locatorEnd_mono ((hd.greatest hi hsafe hoff).1.2 hk)).trans_lt ?_
    rcases hd.counted with rfl | ⟨⟨hb,_⟩,hsum,_⟩
    · exact hlast
    · -- the dropped block is the last direct one
      rw [hsum, FileDescriptor.position, locatorEnd]
      split_ifs <;> omega
  · intro hstop
    have hpos : (s.descriptor fd.toNat).position = (s.descriptor fd.toNat).locateOrder.toNat * 1024 +
      (s.descriptor fd.toNat).locateOffset.toNat := rfl
    obtain ⟨r,s',hw⟩ := fsWrite_isSome src hi ho hsafe hoff (fun k hk => by
      rw [hpos]
      exact locatorEnd_lt hoff (hstop k hk))
    obtain ⟨sum,m',x',hd⟩ := hdone r s' hw
    have hlast := (locatorEnd_mono hd.count_le).trans_lt (hstop sum (hd.greatest hi hsafe hoff).1.1)
    refine ⟨writeFrom_slots _ _ _ _ _ _,r,s',hw,hlast,?_⟩
    rw [hd.position_eq hoff, Nat.mod_eq_of_lt (by rw [hpos]; exact locatorEnd_lt hoff hlast)]

/-- A reader comes back without passing block 65535. -/
theorem readFrom_stops {m : Mem} {x : Inode} {b off n : ℕ} (hid : ∀ n, nodePtr m x n ≤ 65528) (hb : b < 65536)
    (hoff : off < 1024) (hn : n < 2 ^ 64) :
    (∃ bytes, readFrom m x b off n = some bytes ∧ locatorEnd b off bytes.length < 65536) ↔
      locatorEnd b off n < 65536 ∨ ∃ c ≤ 65535, b ≤ c ∧ nodePtr m x (.data c) = 0 := by
  have hout := readFrom_outcome hid hb hoff.le hn
  constructor
  · rintro ⟨bytes,hr,hlast⟩
    rw [hr] at hout
    cases hout with
    | read hreads =>
      rcases hreads.length_le.lt_or_eq with hlt | heq
      · obtain ⟨c,hz,hc⟩ := hreads.stop hoff.le hlt
        refine Or.inr ⟨c,?_,by omega,hz⟩
        unfold locatorEnd at hlast
        split_ifs at hlast <;> omega
      · rw [heq] at hlast
        exact Or.inl hlast
  · intro hstop
    cases hr : readFrom m x b off n with
    | none =>
      rw [hr] at hout
      cases hout with
      | overrun hover =>
        rcases hstop with hlast | ⟨c,hc,hle,hz⟩
        · have hpast := hover.past
          have hlt := locatorEnd_lt hoff hlast
          omega
        · exact absurd hz (hover.present c hle (by omega))
    | some bytes =>
      rw [hr] at hout
      cases hout with
      | read hreads =>
        refine ⟨bytes,rfl,?_⟩
        rcases hstop with hlast | ⟨c,hc,hle,hz⟩
        · exact (locatorEnd_mono hreads.length_le).trans_lt hlast
        · have hlen := hreads.length_le_of_hole hoff.le hle hz
          unfold locatorEnd
          split_ifs <;> omega

theorem readIndexed_iff (hi : ImageInv s.image) (ho : s.Opened fd) (hfile : (s.inode (s.fileOf fd)).fileType ≠ typeDirectory)
    (hoff : (s.descriptor fd.toNat).locateOffset.toNat < 1024) : ReadIndexed s fd nbyte ↔ ReadStops s fd nbyte := by
  have horder := UInt16.toNat_lt (s.descriptor fd.toNat).locateOrder
  by_cases hn : nbyte = 0
  · subst hn
    refine iff_of_true ⟨readFrom_slots _ _ _ _ _,[],s,fsRead_nothing ho,?_,(Nat.add_zero _).symm⟩ (Or.inl rfl)
    exact (if_pos rfl : locatorEnd _ _ 0 = _).trans_lt horder
  have hid : ∀ n, nodePtr s.image (s.inode (s.fileOf fd)) n ≤ 65528 := hi.sound.nodePtr_le (i := s.fileOf fd) hfile
  have hstops := readFrom_stops (n := readCount (s.descriptor fd.toNat) (s.inode (s.fileOf fd)).fileSize.toNat nbyte.toNat)
    hid horder hoff (readCount_lt (UInt64.toNat_lt nbyte))
  have hmoved : ∀ bytes : List UInt8, ((s.storeDescriptor fd.toNat (updateFD (s.descriptor fd.toNat) bytes.length)).descriptor
      fd.toNat).position = ((s.descriptor fd.toNat).position + bytes.length) % (65536 * 1024) := by
    intro bytes
    rw [storeDescriptor_eq ho.lt, descriptor_putDescriptor, if_pos rfl, updateFD_position hoff.le]
  unfold ReadIndexed ReadStops
  rw [or_iff_right hn, fsRead_opened ho hn, ← hstops]
  constructor
  · rintro ⟨_,bytes,s',hr,hlast,_⟩
    obtain ⟨bs,hb,he⟩ := Option.map_eq_some_iff.mp hr
    cases (Prod.mk.inj (Prod.mk.inj he).2).1
    exact ⟨bytes,hb,hlast⟩
  · rintro ⟨bytes,hb,hlast⟩
    refine ⟨readFrom_slots _ _ _ _ _,bytes,_,congrArg (Option.map _) hb,hlast,?_⟩
    exact (hmoved bytes).trans (Nat.mod_eq_of_lt (locatorEnd_lt hoff hlast))

end Law

/-- In a state reached by safe calls, on a descriptor whose cursor is inside its block: a safe write and a read of a
file keep to their arrays and to 16 bits of `fd_locator` if and only if they do not come past block 65535. -/
theorem index_safety {s : F19FS} {fd : ℤ} (h : Reachable s) (ho : s.Opened fd)
    (hoff : (s.descriptor fd.toNat).locateOffset.toNat < 1024) :
    (∀ src nbyte, WriteSafe s fd nbyte → (WriteIndexed s fd src nbyte ↔ WriteStops s fd nbyte)) ∧
    (∀ nbyte, (s.inode (s.fileOf fd)).fileType ≠ typeDirectory → (ReadIndexed s fd nbyte ↔ ReadStops s fd nbyte)) ∧
    (∀ fuel done (st st' : IndirectWrite), writeIndirectLoop fuel st = some (done,st') → st.fdOffset < 1024 →
      st.fdLocator < 65536 → st.nbyte < 2 ^ 64 → ∃ moved ≤ st.nbyte, st'.sum = st.sum + moved ∧
        st'.fdLocator = locatorEnd st.fdLocator st.fdOffset moved % 65536) ∧
    ∀ m ptrs fuel done (st st' : IndirectRead), readIndirectLoop m ptrs fuel st = some (done,st') → st.fdOffset < 1024 →
      st.fdLocator < 65536 → st.nbyte < 2 ^ 64 → ∃ moved ≤ st.nbyte, st'.bytes.length = st.bytes.length + moved ∧
        st'.fdLocator = locatorEnd st.fdLocator st.fdOffset moved % 65536 :=
  ⟨fun _ _ hsafe => writeIndexed_iff h.inv ho hsafe hoff,fun _ hfile => readIndexed_iff h.inv ho hfile hoff,
    fun _ _ _ _ hl => writeLoop_locator hl,fun _ _ _ _ _ _ hl => readLoop_locator hl⟩

theorem index_safety_first : ∃ s, run step fsFormat [.create (pathArg ['/','a']) .regular,
    .openFile (pathArg ['/','a'])] = some s ∧ WriteIndexed s 0 zeros 1500 ∧ ReadIndexed s 0 1500 := by
  have hs : (run step fsFormat [.create (pathArg ['/','a']) .regular,.openFile (pathArg ['/','a'])]).map
      (fun s : F19FS => s.isOpen 0 && decide ((s.descriptor 0).locateOrder = 0 ∧ (s.descriptor 0).locateOffset = 0) &&
        decide ((s.inode (s.descriptor 0).inodeNum.toNat).fileType = typeRegular) &&
        decide (nodePtr s.image (s.inode (s.descriptor 0).inodeNum.toNat) (.data 0) = 0)) = some true := by
    decide +kernel
  obtain ⟨s,hs,hf⟩ := Option.map_eq_some_iff.mp hs
  simp only [Bool.and_eq_true, decide_eq_true_eq] at hf
  obtain ⟨⟨⟨hopen,horder,hoffset⟩,hreg⟩,hhole⟩ := hf
  have hr : Reachable s := reach_of_guarded_run (by simp [Safe]) hs
  have ho : (s.descriptor (0 : ℤ).toNat).locateOrder.toNat = 0 := congrArg UInt16.toNat horder
  have hz : (s.descriptor (0 : ℤ).toNat).locateOffset.toNat = 0 := congrArg UInt16.toNat hoffset
  have hfile : (s.inode (s.fileOf 0)).fileType ≠ typeDirectory := by
    have hreg : (s.inode (s.fileOf 0)).fileType = typeRegular := hreg
    rw [hreg]
    decide
  have hsafe : WriteSafe s 0 1500 := by
    refine writeSafe_of_low hfile (by rw [hz]; decide) ?_
    rw [ho, hz]
    decide
  obtain ⟨hwrite,hread,_⟩ := index_safety hr ⟨le_rfl,by decide,hopen⟩ (by rw [hz]; decide)
  refine ⟨s,hs,(hwrite zeros 1500 hsafe).mpr (fun r hr => ?_),(hread 1500 hfile).mpr ?_⟩
  · have hle : r ≤ 1500 := hr.1
    rw [ho, hz]
    exact (locatorEnd_mono hle).trans_lt (by decide)
  · exact Or.inr (Or.inr ⟨0,by decide,ho.le,hhole⟩)

/-- File `b` is written again until its size is past block 65535, and the cursor goes to the start of that block. -/
def wrapRun : List Call := dirtyRun ++ (List.replicate 65536 overwrite).flatten ++ [.seek 1 67107840 .set]

theorem wrapRun_eq : run step fsFormat wrapRun = (run step fsFormat dirtyRun).bind (fun s =>
    run step (sized s 67109888) [.seek 1 67107840 .set]) := by
  rw [wrapRun, run_append, dirtyRun_overwrites, Option.bind_map]
  rfl

/-- Eight blocks written from block 65535 on: behind slot 511 the index into the double-indirect block is -1. -/
theorem index_safety_fails : ¬ ∀ s, Reach step (fun _ _ => True) fsFormat s → ∀ fd src nbyte, s.Opened fd →
    WriteIndexed s fd src nbyte := by
  have hrun : (run step fsFormat wrapRun).map (fun s : F19FS => s.isOpen 1 && (fsWrite s 1 (some zeros) 8192).isNone) =
      some true := by
    rw [wrapRun_eq]
    decide +kernel
  intro hall
  obtain ⟨s,hs,hf⟩ := Option.map_eq_some_iff.mp hrun
  simp only [Bool.and_eq_true, Option.isNone_iff_eq_none] at hf
  obtain ⟨hopen,hnone⟩ := hf
  obtain ⟨_,r,s',hw,_⟩ := hall s (reach_of_run hs) 1 zeros 8192 ⟨by decide,by decide,hopen⟩
  rw [hnone] at hw
  cases hw

end LiteOSFS
