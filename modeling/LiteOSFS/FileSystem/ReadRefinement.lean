import LiteOSFS.FileSystem.WriteLevels
import LiteOSFS.FileSystem.Read
import Mathlib.Tactic.Linarith

/-! # Reading block by block

`Reads` describes a read without the three levels of the code: block after block
the bytes that the request covers are taken, up to its end or to a block that the
file does not have. Each of the readers is such a read, unless it has passed the
last block that a 16-bit locator reaches.
-/
namespace LiteOSFS
open Memory Ownership

/-- `len` bytes of block `b` from offset `off` on. -/
def blockBytes (m : Mem) (x : Inode) (b off len : ℕ) : List UInt8 :=
  (List.range len).map (fun i => blockAt m (nodePtr m x (.data b)) (off + i))

inductive Reads (m : Mem) (x : Inode) : (b off n : ℕ) → List UInt8 → Prop where
  | done {b off} : Reads m x b off 0 []
  | hole {b off n} (hb : b < 65542) (hn : 0 < n) (h : nodePtr m x (.data b) = 0) : Reads m x b off n []
  | step {b off n bs} (hb : b < 65542) (hn : 0 < n) (h : nodePtr m x (.data b) ≠ 0)
      (hr : Reads m x (b + 1) 0 (n - min (1024 - off) n) bs) :
      Reads m x b off n (blockBytes m x b off (min (1024 - off) n) ++ bs)

/-- The read would go on past block 65541, all blocks up to it being there. -/
structure ReadOverrun (m : Mem) (x : Inode) (b off n : ℕ) : Prop where
  present : ∀ c, b ≤ c → c < 65542 → nodePtr m x (.data c) ≠ 0
  past : 65542 * 1024 < b * 1024 + off + n

inductive ReadOutcome (m : Mem) (x : Inode) (b off n : ℕ) : ReadResult → Prop where
  | read {bs} (h : Reads m x b off n bs) : ReadOutcome m x b off n (some bs)
  | overrun (h : ReadOverrun m x b off n) : ReadOutcome m x b off n none

section Reads
variable {m : Mem} {x : Inode} {b off n : ℕ} {bs : List UInt8}

theorem blockBytes_length (len : ℕ) : (blockBytes m x b off len).length = len := by
  rw [blockBytes, List.length_map, List.length_range]

theorem Reads.length_le (h : Reads m x b off n bs) : bs.length ≤ n := by
  induction h with
  | done => exact le_rfl
  | hole => exact Nat.zero_le _
  | step _ _ _ _ ih =>
    rw [List.length_append, blockBytes_length]
    omega

/-- The bytes are those of the file. -/
theorem Reads.byte (h : Reads m x b off n bs) (hoff : off ≤ 1024) {k : ℕ} (hk : k < bs.length) :
    fileByte m x (b * 1024 + off + k) = some bs[k] := by
  induction h generalizing k with
  | done => cases hk
  | hole => cases hk
  | @step b off n bs hb _ hp hr ih =>
    clear hb
    rw [List.length_append, blockBytes_length] at hk
    by_cases hlt : k < min (1024 - off) n
    · have hdiv : (b * 1024 + off + k) / 1024 = b := by omega
      have hmod : (b * 1024 + off + k) % 1024 = off + k := by omega
      rw [List.getElem_append_left (by rwa [blockBytes_length]), fileByte, hdiv, hmod]
      simp only [hp, if_false, blockBytes, List.getElem_map, List.getElem_range]
    · have hnext := ih (Nat.zero_le _) (k := k - min (1024 - off) n) (by omega)
      rw [List.getElem_append_right (by rw [blockBytes_length]; omega)]
      simp only [blockBytes_length]
      have hle := hr.length_le
      rw [← hnext]
      exact congrArg (fileByte m x) (by omega)

/-- A read that ends early has come to the start of a block that is not there. -/
theorem Reads.stop (h : Reads m x b off n bs) (hoff : off ≤ 1024) (hlt : bs.length < n) :
    ∃ c, nodePtr m x (.data c) = 0 ∧
      (c = b ∧ bs.length = 0 ∨ b < c ∧ b * 1024 + off + bs.length = c * 1024) := by
  induction h with
  | done => cases hlt
  | @hole b off n _ _ h => exact ⟨b,h,Or.inl ⟨rfl,rfl⟩⟩
  | @step b off n bs hb _ _ hr ih =>
    clear hb
    have hle := hr.length_le
    rw [List.length_append, blockBytes_length] at hlt ⊢
    have hmin : min (1024 - off) n = 1024 - off := by omega
    rw [hmin] at hlt ih ⊢
    obtain ⟨c,hz,⟨rfl,h0⟩ | ⟨hlt',he⟩⟩ := ih (Nat.zero_le _) (by omega)
    · exact ⟨_,hz,Or.inr ⟨by omega,by omega⟩⟩
    · have hsplit : off + (1024 - off + bs.length) = 1024 + bs.length := by omega
      exact ⟨c,hz,Or.inr ⟨by omega,by linarith⟩⟩

/-- All blocks on the way being there, the read is complete. -/
theorem Reads.full (h : Reads m x b off n bs) (hoff : off ≤ 1024)
    (hall : ∀ c, b ≤ c → c * 1024 < b * 1024 + off + n → nodePtr m x (.data c) ≠ 0) : bs.length = n := by
  by_contra hne
  have hle := h.length_le
  obtain ⟨c,hz,hc⟩ := h.stop hoff (by omega)
  exact hall c (by omega) (by omega) hz

/-- A read does not pass a block that is not there. -/
theorem Reads.length_le_of_hole (h : Reads m x b off n bs) (hoff : off ≤ 1024) {c : ℕ} (hc : b ≤ c)
    (hz : nodePtr m x (.data c) = 0) : bs.length ≤ c * 1024 - (b * 1024 + off) := by
  induction h with
  | done => exact Nat.zero_le _
  | hole => exact Nat.zero_le _
  | @step b off n bs hb _ hp hr ih =>
    clear hb
    have hne : b ≠ c := by
      rintro rfl
      exact hp hz
    have hle := ih (Nat.zero_le _) (by omega)
    rw [List.length_append, blockBytes_length]
    omega

theorem Reads.of_hole (hb : b < 65542) (h : nodePtr m x (.data b) = 0) : Reads m x b off n [] := by
  by_cases hn : n = 0
  · rw [hn]
    exact Reads.done
  · exact Reads.hole hb (by omega) h

/-- What was read before a reader was called belongs to its outcome. -/
theorem ReadOutcome.after {b' off' n' : ℕ} {r : ReadResult} (h : ReadOutcome m x b' off' n' r)
    (hb : ∀ rest, Reads m x b' off' n' rest → Reads m x b off n (bs ++ rest))
    (hpassed : ∀ c, b ≤ c → c < b' → nodePtr m x (.data c) ≠ 0)
    (hcursor : b' * 1024 + off' + n' = b * 1024 + off + n) : ReadOutcome m x b off n (addBytes bs r) := by
  cases h with
  | read h => exact ReadOutcome.read (hb _ h)
  | overrun h =>
    refine ReadOutcome.overrun ⟨fun c hc hlt => ?_,hcursor ▸ h.past⟩
    by_cases hcb : c < b'
    · exact hpassed c hc hcb
    · exact h.present c (Nat.le_of_not_lt hcb) hlt

theorem memcpyFrom_block {len : ℕ} (h : off + len ≤ 1024) :
    memcpyFrom (blockAt m (nodePtr m x (.data b))) off len = some (blockBytes m x b off len) := if_pos (Or.inr h)

end Reads

/-- The loop from `st` to `st'` over the slots of an index block. -/
structure ReadLoopSpec (m : Mem) (x : Inode) (base : ℕ) (st st' : IndirectRead) : Prop where
  read : ∃ bs, st'.bytes = st.bytes ++ bs ∧ ∀ rest, Reads m x (base + st'.indirectPtrID) st'.fdOffset st'.nbyte rest →
    Reads m x (base + st.indirectPtrID) st.fdOffset st.nbyte (bs ++ rest)
  passed : ∀ j, st.indirectPtrID ≤ j → j < st'.indirectPtrID → nodePtr m x (.data (base + j)) ≠ 0
  cursor : 0 < st'.nbyte → st'.indirectPtrID * 1024 + st'.fdOffset + st'.nbyte =
    st.indirectPtrID * 1024 + st.fdOffset + st.nbyte
  locator : st'.fdLocator % 65536 = (st.fdLocator + (st'.indirectPtrID - st.indirectPtrID)) % 65536
  locatorLt : st.fdLocator < 65536 → st'.fdLocator < 65536
  slotLe : st.indirectPtrID ≤ st'.indirectPtrID ∧ st'.indirectPtrID ≤ 512
  offLe : st'.fdOffset ≤ 1024
  nbyteLe : st'.nbyte ≤ st.nbyte

section Levels
variable {m : Mem} {x : Inode} {b off n : ℕ}

theorem ReadLoopSpec.refl {base : ℕ} {st : IndirectRead} (hslot : st.indirectPtrID ≤ 512) (hoff : st.fdOffset ≤ 1024) :
    ReadLoopSpec m x base st st :=
  ⟨⟨[],by simp,fun _ h => h⟩,fun j _ _ => by omega,fun _ => rfl,by simp,fun h => h,⟨le_rfl,hslot⟩,hoff,le_rfl⟩

theorem ReadLoopSpec.trans {base : ℕ} {st st₁ st' : IndirectRead} (h : ReadLoopSpec m x base st st₁)
    (h' : ReadLoopSpec m x base st₁ st') : ReadLoopSpec m x base st st' := by
  obtain ⟨bs,hbs,hread⟩ := h.read
  obtain ⟨bs',hbs',hread'⟩ := h'.read
  have hsl := h.slotLe
  have hsl' := h'.slotLe
  have hl := h.locator
  have hl' := h'.locator
  have hn := h.nbyteLe
  have hn' := h'.nbyteLe
  refine ⟨⟨bs ++ bs',by rw [hbs', hbs, List.append_assoc],fun rest hr => ?_⟩,fun j hj hlt => ?_,fun hpos => ?_,by omega,
    fun hlt => h'.locatorLt (h.locatorLt hlt),by omega,h'.offLe,by omega⟩
  · rw [List.append_assoc]
    exact hread _ (hread' _ hr)
  · by_cases hj₁ : j < st₁.indirectPtrID
    · exact h.passed j hj hj₁
    · exact h'.passed j (by omega) hlt
  · exact (h'.cursor hpos).trans (h.cursor (by omega))

/-- The slots of an index block are the pointers of its data blocks. -/
theorem AtIndex.slot {p : Node} {base id j : ℕ} (hat : AtIndex m x p base id) (hj : j < 512) :
    (pointersOf (blockAt m id) j).toNat = nodePtr m x (.data (base + j)) := by
  rw [nodePtr_slot (hat.child j hj), hat.ptr, slotAt, if_neg hat.nonzero]

theorem readSlot_spec {p : Node} {base id : ℕ} {st st₁ : IndirectRead} (hat : AtIndex m x p base id)
    (hj : st.indirectPtrID < 512) (hoff : st.fdOffset ≤ 1024) (hpos : 0 < st.nbyte)
    (hp : nodePtr m x (.data (base + st.indirectPtrID)) ≠ 0)
    (hst : st₁ = { indirectPtrID := st.indirectPtrID + 1, fdLocator := (st.fdLocator + 1) % 65536, fdOffset := 0,
                   nbyte := st.nbyte - min (1024 - st.fdOffset) st.nbyte,
                   bytes := st.bytes ++ blockBytes m x (base + st.indirectPtrID) st.fdOffset
                     (min (1024 - st.fdOffset) st.nbyte) }) : ReadLoopSpec m x base st st₁ := by
  have hbound := hat.bound
  subst hst
  refine ⟨⟨_,rfl,fun rest hr => Reads.step (by omega) hpos hp hr⟩,fun j hlo hhi => ?_,fun hlt => ?_,by simp,
    fun _ => Nat.mod_lt _ (by omega),by simp only; omega,by simp,by simp⟩
  · simp only at hhi
    rwa [show j = st.indirectPtrID by omega]
  · simp only at hlt ⊢
    omega

theorem readIndirectLoop_spec {p : Node} {base id fuel : ℕ} {st : IndirectRead} (hid : ∀ n, nodePtr m x n ≤ 65528)
    (hat : AtIndex m x p base id) (hfuel : 512 ≤ fuel + st.indirectPtrID) (hslot : st.indirectPtrID ≤ 512)
    (hoff : st.fdOffset ≤ 1024) (hn : st.nbyte < 2 ^ 64) :
    ∃ done st', readIndirectLoop m (pointersOf (blockAt m id)) fuel st = some (done,st') ∧
      ReadLoopSpec m x base st st' ∧
      (done = false → st'.indirectPtrID < 512 ∧ nodePtr m x (.data (base + st'.indirectPtrID)) = 0) ∧
      (done = true → st'.nbyte = 0 ∨ st'.indirectPtrID = 512) := by
  induction fuel generalizing st with
  | zero => exact ⟨true,st,rfl,ReadLoopSpec.refl hslot hoff,by simp,fun _ => Or.inr (by omega)⟩
  | succ fuel ih =>
    rw [readIndirectLoop]
    by_cases hcond : st.indirectPtrID < 512 ∧ st.nbyte > 0
    · rw [if_pos hcond]
      obtain ⟨hj,hpos⟩ := hcond
      have hptr := hat.slot hj
      by_cases hz : pointersOf (blockAt m id) st.indirectPtrID = 0
      · rw [if_pos hz]
        rw [hz] at hptr
        exact ⟨false,st,rfl,ReadLoopSpec.refl hslot hoff,fun _ => ⟨hj,hptr.symm⟩,by simp⟩
      · have hp : nodePtr m x (.data (base + st.indirectPtrID)) ≠ 0 := by
          rw [← hptr]
          exact fun he => hz (UInt16.toNat_inj.mp he)
        simp only [hz, if_false, blankSpace_eq hoff hn, hptr, blockStoreRead_data (hid _), Option.bind_some]
        rw [memcpyFrom_block (by omega)]
        obtain ⟨st₁,hst₁⟩ : ∃ st₁ : IndirectRead, st₁ = ⟨st.indirectPtrID + 1,(st.fdLocator + 1) % 65536,0,
          st.nbyte - min (1024 - st.fdOffset) st.nbyte,st.bytes ++ blockBytes m x (base + st.indirectPtrID) st.fdOffset
            (min (1024 - st.fdOffset) st.nbyte)⟩ := ⟨_,rfl⟩
        have hstep := readSlot_spec hat hj hoff hpos hp hst₁
        have hslot₁ : st₁.indirectPtrID = st.indirectPtrID + 1 := by rw [hst₁]
        have hle := hstep.nbyteLe
        obtain ⟨done,st',hl,hspec,hrest⟩ := @ih st₁ (by omega) (by omega) hstep.offLe (by omega)
        rw [hst₁] at hl
        exact ⟨done,st',hl,hstep.trans hspec,hrest⟩
    · rw [if_neg hcond]
      exact ⟨true,st,rfl,ReadLoopSpec.refl hslot hoff,by simp,fun _ => by omega⟩

theorem readDouble_wrapped {r : ℕ → ℕ → ℕ → ℕ → ReadResult} (h : nodePtr m x .dbl ≠ 0)
    (hid : nodePtr m x .dbl ≤ 65528) : readDoubleDirectBlock r m x 6 off n = none := by
  have hz : x.doubleIndirectPointer ≠ 0 := by
    intro he
    rw [nodePtr, Inode.top, he] at h
    exact h rfl
  have hread : blockStoreRead m wholeStore x.doubleIndirectPointer.toNat =
      some (blockAt m x.doubleIndirectPointer.toNat) := blockStoreRead_data hid
  simp only [readDoubleDirectBlock, hz, if_false, hread]
  exact if_pos (Or.inl (by decide))

/-- The reader goes on with the second-level index block that covers the locator. -/
theorem readDoubleDirectBlock_sec {r : ℕ → ℕ → ℕ → ℕ → ReadResult} (hid : ∀ n, nodePtr m x n ≤ 65528) (h518 : 518 ≤ b)
    (hb : b < 65536) (hd : nodePtr m x .dbl ≠ 0) (hs : nodePtr m x (.sec ((b - 518) / 512)) ≠ 0) :
    readDoubleDirectBlock r m x b off n = r b off n (nodePtr m x (.sec ((b - 518) / 512))) := by
  have hz : x.doubleIndirectPointer ≠ 0 := fun he => hd (congrArg UInt16.toNat he)
  have hread : blockStoreRead m wholeStore x.doubleIndirectPointer.toNat =
      some (blockAt m (nodePtr m x .dbl)) := blockStoreRead_data (hid .dbl)
  have hsec : nodePtr m x (.sec ((b - 518) / 512)) =
      (pointersOf (blockAt m (nodePtr m x .dbl)) ((b - 518) / 512)).toNat := by
    rw [nodePtr_slot rfl, slotAt, if_neg hd]
  have hidx : ¬ (((b - 518) / 512 : ℕ) < (0 : ℤ) ∨ ((b - 518) / 512 : ℕ) ≥ (512 : ℤ)) := by omega
  have hp : pointersOf (blockAt m (nodePtr m x .dbl)) ((b - 518) / 512) ≠ 0 := by
    intro he
    rw [hsec, he] at hs
    exact hs rfl
  simp only [readDoubleDirectBlock, if_neg hz, hread, doubleIndex_eq h518, if_neg hidx, Int.toNat_natCast, if_neg hp,
    ← hsec]

/-- It stops when there is none. -/
theorem readDoubleDirectBlock_none {r : ℕ → ℕ → ℕ → ℕ → ReadResult} (hid : ∀ n, nodePtr m x n ≤ 65528) (h518 : 518 ≤ b)
    (hb : b < 65536) (hs : nodePtr m x (.sec ((b - 518) / 512)) = 0) :
    readDoubleDirectBlock r m x b off n = some [] := by
  unfold readDoubleDirectBlock
  by_cases hz : x.doubleIndirectPointer = 0
  · rw [if_pos hz]
  · have hd : nodePtr m x .dbl ≠ 0 := fun he => hz (UInt16.toNat_inj.mp he)
    have hread : blockStoreRead m wholeStore x.doubleIndirectPointer.toNat =
        some (blockAt m (nodePtr m x .dbl)) := blockStoreRead_data (hid .dbl)
    have hidx : ¬ (((b - 518) / 512 : ℕ) < (0 : ℤ) ∨ ((b - 518) / 512 : ℕ) ≥ (512 : ℤ)) := by omega
    rw [nodePtr_slot rfl, slotAt, if_neg hd] at hs
    simp only [if_neg hz, hread, doubleIndex_eq h518, if_neg hidx, Int.toNat_natCast]
    exact if_pos (UInt16.toNat_inj.mp hs)

/-- A reader over one index block reads as it should from every block of it. -/
def IndexReads (r : ℕ → ℕ → ℕ → ℕ → ReadResult) (m : Mem) (x : Inode) (lowest : ℕ) : Prop :=
  ∀ {p : Node} {b off n base id : ℕ}, AtIndex m x p base id → lowest ≤ base → base ≤ b → b < base + 512 →
    b < 65536 → off ≤ 1024 → n < 2 ^ 64 → ReadOutcome m x b off n (r b off n id)

theorem readDoubleDirectBlock_outcome {r : ℕ → ℕ → ℕ → ℕ → ReadResult} {lowest : ℕ} (hid : ∀ n, nodePtr m x n ≤ 65528)
    (hr : IndexReads r m x lowest) (h518 : 518 ≤ b) (hb : b < 65536) (hlow : lowest ≤ 518 + 512 * ((b - 518) / 512))
    (hoff : off ≤ 1024) (hn : n < 2 ^ 64) : ReadOutcome m x b off n (readDoubleDirectBlock r m x b off n) := by
  have hp : (Node.data b).parent = some (.sec ((b - 518) / 512),(b - 518) % 512) := by
    rw [Node.parent, if_neg (by omega), if_neg (by omega)]
  by_cases hs : nodePtr m x (.sec ((b - 518) / 512)) = 0
  · rw [readDoubleDirectBlock_none hid h518 hb hs]
    refine ReadOutcome.read (Reads.of_hole (by omega) ?_)
    by_contra hd
    exact parent_ptr_ne_zero hp hd hs
  · have hd : nodePtr m x .dbl ≠ 0 := parent_ptr_ne_zero rfl hs
    rw [readDoubleDirectBlock_sec hid h518 hb hd hs]
    exact hr (atIndex_sec (by omega) hd hs) hlow (by omega) (by omega) hb hoff hn

theorem readIndirectBlock_outcome (hid : ∀ n, nodePtr m x n ≤ 65528) (fuel : ℕ) :
    IndexReads (readIndirectBlock m x fuel) m x (65542 - 512 * fuel) := by
  induction fuel with
  | zero =>
    intro p b off n base id hat hlow _ _ _ _ _
    have hbound := hat.bound
    omega
  | succ fuel ih =>
    intro p b off n base id hat hlow hlo hhi hb hoff hn
    have hbound := hat.bound
    have halign := hat.align
    have hidp : id ≤ 65528 := hat.ptr ▸ hid p
    rw [readIndirectBlock, if_neg hat.nonzero, blockStoreRead_data hidp]
    simp only [indirectIndex_eq hlo hhi (by omega) halign]
    obtain ⟨st,hst⟩ : ∃ st : IndirectRead, st = ⟨b - base,b,off,n,[]⟩ := ⟨_,rfl⟩
    have hslot : base + st.indirectPtrID = b := by
      rw [hst]
      simp only
      omega
    obtain ⟨hloc₀,hoff₀,hn₀,hbytes₀⟩ : st.fdLocator = b ∧ st.fdOffset = off ∧ st.nbyte = n ∧ st.bytes = [] := by
      rw [hst]
      exact ⟨rfl,rfl,rfl,rfl⟩
    rw [← hst]
    obtain ⟨done,st',hl,hspec,hstop,hfin⟩ := readIndirectLoop_spec hid hat (show 512 ≤ 512 + st.indirectPtrID by omega)
      (by omega) (by rw [hoff₀]; exact hoff) (by rw [hn₀]; exact hn)
    obtain ⟨bs,hbs,hread⟩ := hspec.read
    rw [hslot, hoff₀, hn₀] at hread
    rw [hbytes₀, List.nil_append] at hbs
    have hend : ∀ rest, Reads m x (base + st'.indirectPtrID) st'.fdOffset st'.nbyte rest →
        Reads m x b off n (st'.bytes ++ rest) := by
      rw [hbs]
      exact hread
    simp only [hl]
    cases done with
    | false =>
      obtain ⟨hj,hz⟩ := hstop rfl
      have hr := hend _ (Reads.of_hole (by omega) hz)
      rw [List.append_nil] at hr
      exact ReadOutcome.read hr
    | true =>
      by_cases hz : st'.nbyte = 0
      · have hr := hend [] (by rw [hz]; exact Reads.done)
        rw [List.append_nil] at hr
        simp only [hz, decide_true, Bool.or_true, if_true]
        exact ReadOutcome.read hr
      · have hlast : st'.indirectPtrID = 512 := (hfin rfl).resolve_left hz
        have hloc := hspec.locator
        have hlt := hspec.locatorLt (by omega)
        have hle := hspec.nbyteLe
        have hcur := hspec.cursor (by omega)
        have hpassed : ∀ c, b ≤ c → c < base + 512 → nodePtr m x (.data c) ≠ 0 := by
          intro c hc hc'
          have hp := hspec.passed (c - base) (by omega) (by omega)
          rwa [show base + (c - base) = c by omega] at hp
        rw [hloc₀, hlast] at hloc
        rw [hlast] at hend hcur
        rw [hoff₀, hn₀] at hcur
        simp only [hz, decide_false, Bool.not_true, Bool.or_false, Bool.false_eq_true, if_false]
        by_cases hwrap : base + 512 < 65536
        · rw [show st'.fdLocator = base + 512 by omega]
          refine ReadOutcome.after ?_ hend hpassed (by rw [← hslot]; linarith)
          exact readDoubleDirectBlock_outcome hid ih (by omega) (by omega) (by omega) hspec.offLe (by omega)
        · -- the locator has passed block 65535 and starts again
          have hdbl : nodePtr m x .dbl ≠ 0 := by
            obtain ⟨up,he,hup⟩ := hat.path 0 (by omega)
            apply hup
            rw [pathTo, if_neg (by omega), if_neg (by omega)] at he
            have he' := congrArg List.dropLast he
            rw [List.dropLast_concat] at he'
            rw [← he']
            simp
          rw [show st'.fdLocator = 6 by omega, readDouble_wrapped hdbl (hid .dbl)]
          refine ReadOutcome.overrun ⟨fun c hc hc' => hpassed c hc (by omega),?_⟩
          omega

theorem enterIndirect_outcome (hid : ∀ n, nodePtr m x n ≤ 65528) (h6 : 6 ≤ b) (h518 : b < 518) (hoff : off ≤ 1024)
    (hn : n < 2 ^ 64) :
    ReadOutcome m x b off n (readIndirectBlock m x indexRounds b off n x.indirectPointer.toNat) := by
  by_cases hi : nodePtr m x .ind = 0
  · have he : x.indirectPointer.toNat = 0 := hi
    rw [he, indexRounds, readIndirectBlock, if_pos rfl]
    refine ReadOutcome.read (Reads.of_hole (by omega) ?_)
    by_contra hd
    exact parent_ptr_ne_zero (by rw [Node.parent, if_neg (by omega), if_pos h518]) hd hi
  · exact readIndirectBlock_outcome hid indexRounds (atIndex_ind hi) (by rw [indexRounds]; omega) h6
      (by omega) (by omega) hoff hn

theorem readDirectBlock_outcome (hid : ∀ n, nodePtr m x n ≤ 65528) {fuel : ℕ} (hfuel : 6 ≤ b + fuel) (hb : b < 6)
    (hoff : off ≤ 1024) (hn : n < 2 ^ 64) : ReadOutcome m x b off n (readDirectBlock m x fuel b off n) := by
  induction fuel generalizing b off n with
  | zero => omega
  | succ fuel ih =>
    have hptr : nodePtr m x (.data b) = (x.directPointer ⟨b,hb⟩).toNat := by
      rw [nodePtr, if_pos hb, Inode.top, dif_pos hb]
    rw [readDirectBlock, dif_pos hb]
    simp only [← hptr]
    by_cases hz : nodePtr m x (.data b) = 0
    · rw [if_pos hz]
      exact ReadOutcome.read (Reads.of_hole (by omega) hz)
    · simp only [if_neg hz, blankSpace_eq hoff hn, blockStoreRead_data (hid _), Option.bind_some]
      rw [memcpyFrom_block (by omega)]
      have hstep : ∀ rest, Reads m x (b + 1) 0 (n - min (1024 - off) n) rest → 0 < n →
          Reads m x b off n (blockBytes m x b off (min (1024 - off) n) ++ rest) :=
        fun rest hr hpos => Reads.step (by omega) hpos hz hr
      have hpassed : ∀ c, b ≤ c → c < b + 1 → nodePtr m x (.data c) ≠ 0 := by
        intro c hc hc'
        rwa [show c = b by omega]
      by_cases hrest : n - min (1024 - off) n = 0
      · simp only [hrest, if_true]
        refine ReadOutcome.read ?_
        by_cases hn0 : n = 0
        · rw [hn0, Nat.min_zero]
          exact Reads.done
        · have hr := hstep [] (by rw [hrest]; exact Reads.done) (by omega)
          rwa [List.append_nil] at hr
      · simp only [hrest, if_false]
        by_cases h6 : b + 1 < 6
        · rw [if_pos h6]
          exact (ih (by omega) h6 (Nat.zero_le _) (by omega)).after (fun rest hr => hstep rest hr (by omega)) hpassed
            (by omega)
        · rw [if_neg h6]
          refine ReadOutcome.after ?_ (fun rest hr => hstep rest hr (by omega)) hpassed (by omega)
          exact enterIndirect_outcome hid (by omega) (by omega) (Nat.zero_le _) (by omega)

/-- `fs_read` reads block by block, whatever the level that the cursor stands in. -/
theorem readFrom_outcome (hid : ∀ n, nodePtr m x n ≤ 65528) (hb : b < 65536) (hoff : off ≤ 1024) (hn : n < 2 ^ 64) :
    ReadOutcome m x b off n (readFrom m x b off n) := by
  unfold readFrom
  split_ifs with h6 h518
  · exact readDirectBlock_outcome hid (by omega) h6 hoff hn
  · exact enterIndirect_outcome hid (by omega) h518 hoff hn
  · exact readDoubleDirectBlock_outcome hid (readIndirectBlock_outcome hid indexRounds) (by omega) (by omega)
      (by rw [indexRounds]; omega) hoff hn

end Levels

end LiteOSFS
