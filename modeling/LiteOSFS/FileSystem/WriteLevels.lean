import LiteOSFS.FileSystem.WriteRefinement

/-! # The writers of the three levels refine `Wrote`

Each call of a writer is a `Wrote` of the same bytes, through the spill from the
direct blocks into the indirect block and on into the second-level index blocks.
-/
namespace LiteOSFS
open Memory Ownership

theorem pathTo_concat (b : ℕ) : pathTo b = (pathTo b).dropLast ++ [.data b] := by
  unfold pathTo
  split_ifs <;> rfl

/-- The index blocks on the way were grown before. -/
theorem Wrote.of_up {m m₁ m' : Mem} {x x₁ x' : Inode} {b off n sum : ℕ} {src : Mem} (hb : 6 ≤ b) (hlt : b < 65542)
    (h : growPath m x (pathTo b).dropLast = (true,m₁,x₁))
    (hup : ∀ l ∈ (pathTo b).dropLast, nodePtr m₁ x₁ l ≠ 0) (hw : Wrote m₁ x₁ b off src n sum m' x') :
    WriteCall m x b off src n sum m' x' := by
  have hpath : growPath m x (pathTo b) = growPath m₁ x₁ (pathTo b) := by
    rw [pathTo_concat b, growPath_concat h, growPath_append hup]
  cases hw with
  | done => exact WriteCall.index hlt rfl rfl h
  | full _ hn hf => exact WriteCall.wrote (Wrote.full hlt hn (hpath.trans hf))
  | step _ hn hg hr =>
    refine WriteCall.wrote (Wrote.step hlt hn (hpath.trans hg) ?_)
    rw [piece, if_neg (by omega)] at hr ⊢
    exact hr

theorem flushed_start {m : Mem} {id a b c d n : ℕ} {src : Mem} :
    IndirectWrite.flushed ⟨m,pointersOf (blockAt m id),a,b,c,src,d,n⟩ id = m := by
  rw [IndirectWrite.flushed]
  simp only
  rw [pointerBytes_pointersOf, putBlock_blockAt]

theorem indirectIndex_eq {b base : ℕ} (hlo : base ≤ b) (hhi : b < base + 512) (h6 : 6 ≤ base)
    (ha : base % 512 = 6) : indirectIndex b = b - base := by
  have ht : ((b : ℤ) - 6).tmod 512 = ((b - 6) % 512 : ℕ) := by
    rw [show (b : ℤ) - 6 = ((b - 6 : ℕ) : ℤ) by omega]
    rfl
  rw [indirectIndex, ht]
  omega

theorem doubleIndex_eq {b : ℕ} (hb : 518 ≤ b) : doubleIndex b = ((b - 518) / 512 : ℕ) := by
  rw [doubleIndex, show (b : ℤ) - 518 = ((b - 518 : ℕ) : ℤ) by omega]
  rfl

/-- The locator has wrapped: the buffer of the double-indirect block is read before its start. -/
theorem writeDouble_wrapped {w : Mem → Inode → ℕ → ℕ → Mem → ℕ → ℕ → WriteResult} {m : Mem} {x : Inode}
    {off n : ℕ} {src : Mem} (h : nodePtr m x .dbl ≠ 0) (hid : DataId (nodePtr m x .dbl)) :
    writeDoubleDirectBlock w m x 6 off src n = none := by
  have hz : x.doubleIndirectPointer ≠ 0 := by
    intro he
    rw [nodePtr, Inode.top, he] at h
    exact h rfl
  have hread : blockStoreRead m wholeStore x.doubleIndirectPointer.toNat =
      some (blockAt m x.doubleIndirectPointer.toNat) := blockStoreRead_data hid.2.le
  simp only [writeDoubleDirectBlock, doubleTarget, hz, if_false, hread]
  exact if_pos (Or.inl (by decide))

theorem allocateIndirectPtrBlock_eq {m : Mem} (hs : SysUsed m) (hf : firstFree m ≠ sizeMax) :
    allocateIndirectPtrBlock m = (firstFree m,putBlock (setUsed m (firstFree m)) (firstFree m) zeros) := by
  have hid := (firstFree_spec hs hf).1
  simp only [allocateIndirectPtrBlock, blockStoreAllocate_whole, hf, if_false]
  rw [blockStoreWrite_data hid.2.le]

theorem allocateIndirectPtrBlock_full {m : Mem} (hf : firstFree m = sizeMax) :
    (allocateIndirectPtrBlock m).1 = sizeMax := by
  simp only [allocateIndirectPtrBlock, blockStoreAllocate_whole, hf, if_true]

theorem doubleTarget_eq {m : Mem} {x : Inode} (hs : SysUsed m) :
    doubleTarget m x = (grow m x .dbl).map (fun r => (nodePtr r.1 r.2 .dbl,r.1,r.2)) := by
  by_cases hz : x.doubleIndirectPointer = 0
  · have hn : nodePtr m x .dbl = 0 := by
      rw [nodePtr, Inode.top, hz]
      rfl
    by_cases hf : firstFree m = sizeMax
    · rw [grow_full hn hf]
      simp only [doubleTarget, hz, allocateIndirectPtrBlock_full hf, if_true, Option.map_none]
    · have hlt := (firstFree_spec hs hf).1.2
      have hv : (UInt16.ofNat (firstFree m)).toNat = firstFree m := by
        rw [UInt16.toNat_ofNat', Nat.mod_eq_of_lt (by omega)]
      rw [grow_fresh hn hf]
      simp only [doubleTarget, hz, allocateIndirectPtrBlock_eq hs hf, hf, if_true, if_false,
        Option.map_some, Node.isCleared, assign, Node.parent, Inode.setTop, nodePtr, Inode.top, hv]
  · have hn : nodePtr m x .dbl ≠ 0 := fun he => hz (UInt16.toNat_inj.mp he)
    rw [grow_present hn, doubleTarget, if_neg hz]
    rfl

theorem indirectTarget_eq {m : Mem} {x : Inode} (hs : SysUsed m) :
    indirectTarget m x = (grow m x .ind).map (fun r => (nodePtr r.1 r.2 .ind,r.1,r.2)) := by
  by_cases hz : x.indirectPointer = 0
  · have hn : nodePtr m x .ind = 0 := by
      rw [nodePtr, Inode.top, hz]
      rfl
    by_cases hf : firstFree m = sizeMax
    · rw [grow_full hn hf]
      simp only [indirectTarget, hz, allocateIndirectPtrBlock_full hf, if_true, Option.map_none]
    · have hlt := (firstFree_spec hs hf).1.2
      have hv : (UInt16.ofNat (firstFree m)).toNat = firstFree m := by
        rw [UInt16.toNat_ofNat', Nat.mod_eq_of_lt (by omega)]
      rw [grow_fresh hn hf]
      simp only [indirectTarget, hz, allocateIndirectPtrBlock_eq hs hf, hf, if_true, if_false,
        Option.map_some, Node.isCleared, assign, Node.parent, Inode.setTop, nodePtr, Inode.top, hv]
  · have hn : nodePtr m x .ind ≠ 0 := fun he => hz (UInt16.toNat_inj.mp he)
    rw [grow_present hn, indirectTarget, if_neg hz]
    rfl

/-- Where a call of `write_indirect_block` may start. -/
structure Ready (m : Mem) (t : Table) (i : Fin 256) (b off n : ℕ) : Prop where
  sound : Sound m t
  file : (t i).fileType ≠ typeDirectory
  bLt : b < 65536
  offLt : off ≤ 1024
  nLt : n < 2 ^ 64
  clean : Clean m (t i) (touchedNodes b off n)

theorem atIndex_ind {m : Mem} {x : Inode} (h : nodePtr m x .ind ≠ 0) :
    AtIndex m x .ind 6 (nodePtr m x .ind) := by
  refine ⟨rfl,h,by omega,rfl,fun j hj => ?_,fun j hj => ⟨[.ind],?_,by simpa using h⟩⟩
  · rw [Node.parent, if_neg (by omega), if_pos (by omega), Nat.add_sub_cancel_left]
  · rw [pathTo, if_neg (by omega), if_pos (by omega)]
    rfl

theorem atIndex_sec {m : Mem} {x : Inode} {k : ℕ} (hk : k < 127) (hd : nodePtr m x .dbl ≠ 0)
    (h : nodePtr m x (.sec k) ≠ 0) : AtIndex m x (.sec k) (518 + 512 * k) (nodePtr m x (.sec k)) := by
  have hdiv : ∀ j < 512, (518 + 512 * k + j - 518) / 512 = k ∧ (518 + 512 * k + j - 518) % 512 = j :=
    fun j hj => by omega
  refine ⟨rfl,h,by omega,by omega,fun j hj => ?_,fun j hj => ⟨[.dbl,.sec k],?_,by simpa using ⟨hd,h⟩⟩⟩
  · rw [Node.parent, if_neg (by omega), if_neg (by omega), (hdiv j hj).1, (hdiv j hj).2]
  · rw [pathTo, if_neg (by omega), if_neg (by omega), (hdiv j hj).1]
    rfl

/-- The blocks of an index block, for the writer that starts in it. -/
abbrev IndexWriter := Mem → Inode → ℕ → ℕ → Mem → ℕ → ℕ → WriteResult

def IndexWriter.Refines (w : IndexWriter) (i : Fin 256) : Prop :=
  ∀ {m : Mem} {t : Table} {b off n base id r : ℕ} {p : Node} {src m' : Mem} {x' : Inode}, Ready m t i b off n →
    AtIndex m (t i) p base id → base ≤ b → b < base + 512 →
    w m (t i) b off src n id = some (r,m',x') → Wrote m (t i) b off src n r m' x'

section Levels
variable {i : Fin 256} {t : Table} {m m' : Mem} {x' : Inode} {b off n r : ℕ} {src : Mem}

/-- The index blocks of a path are grown; what is left to visit stays clean. -/
theorem Ready.grow_up {m₁ : Mem} {x₁ : Inode} (hr : Ready m t i b off n)
    (hg : growPath m (t i) (pathTo b).dropLast = (true,m₁,x₁)) :
    Ready m₁ (Function.update t i x₁) i b off n ∧ (∀ l ∈ (pathTo b).dropLast, nodePtr m₁ x₁ l ≠ 0) := by
  have hb := hr.bLt
  obtain ⟨rest,htouch,_⟩ := touchedNodes_step (b := b) (n := n) hr.offLt
  have hc := hr.clean
  have hroot' := rooted_dropLast (rooted_pathTo (b := b) (by omega))
  rw [htouch, pathTo_concat b, List.append_assoc] at hc
  obtain ⟨hgr,hok,_⟩ := growPath_spec hr.sound hr.file hroot' (by simp) hc hg
  obtain ⟨hup,hclean⟩ := hok rfl
  have hclean' : Clean m₁ x₁ (touchedNodes b off n) := by
    rw [htouch, pathTo_concat b, List.append_assoc]
    generalize (pathTo b).dropLast = up at hup
    clear hg hgr hok hroot'
    induction up with
    | nil => exact hclean
    | cons l up ih =>
      exact (ih (fun l' hl' => hup l' (List.mem_cons_of_mem _ hl'))).unskip (hup l List.mem_cons_self)
  refine ⟨⟨hgr.sound,?_,hr.bLt,hr.offLt,hr.nLt,?_⟩,hup⟩
  · rw [Function.update_self, attributes_fileType hgr.attrs]
    exact hr.file
  · rwa [Function.update_self]

/-- `write_double_direct_block` grows the index blocks above block `b` and goes on in the second-level one. -/
theorem writeDouble_cases (w : IndexWriter) (src : Mem) (hr : Ready m t i b off n) (hb : 518 ≤ b) :
    (∃ m₁ x₁, growPath m (t i) (pathTo b) = (false,m₁,x₁) ∧ growPath m (t i) (pathTo b).dropLast = (false,m₁,x₁) ∧
      writeDoubleDirectBlock w m (t i) b off src n = some (0,m₁,x₁)) ∨
    ∃ m₁ x₁, growPath m (t i) (pathTo b).dropLast = (true,m₁,x₁) ∧
      writeDoubleDirectBlock w m (t i) b off src n = w m₁ x₁ b off src n (nodePtr m₁ x₁ (.sec ((b - 518) / 512))) := by
  have hblt := hr.bLt
  have hpath : pathTo b = [.dbl,.sec ((b - 518) / 512),.data b] := by
    rw [pathTo, if_neg (by omega), if_neg (by omega)]
  have hup : (pathTo b).dropLast = [.dbl,.sec ((b - 518) / 512)] := by
    rw [hpath]
    rfl
  rw [writeDoubleDirectBlock, doubleTarget_eq hr.sound.sys]
  cases hg : grow m (t i) .dbl with
  | none =>
    exact Or.inl ⟨m,t i,by rw [hpath, growPath_none hg],by rw [hup, growPath_none hg],rfl⟩
  | some d =>
    obtain ⟨m₁,x₁⟩ := d
    obtain ⟨rest,htouch,_⟩ := touchedNodes_step (b := b) (n := n) hr.offLt
    have hc := hr.clean
    rw [htouch, hpath] at hc
    obtain ⟨hgr,hok,_⟩ := growPath_spec hr.sound hr.file
      (show Rooted [] [.dbl] from ⟨by simp [Node.parent],trivial⟩) (by simp) hc (growPath_some hg)
    have hdbl : nodePtr m₁ x₁ .dbl ≠ 0 := (hok rfl).1 _ (by simp)
    have hupd : (Function.update t i x₁) i = x₁ := Function.update_self ..
    have hfile₁ : (Function.update t i x₁ i).fileType ≠ typeDirectory := by
      rw [hupd, attributes_fileType hgr.attrs]
      exact hr.file
    have hid : DataId (nodePtr m₁ x₁ .dbl) := by
      have hd := dataId_of_node (n := .dbl) hgr.sound hfile₁ (by rwa [hupd])
      rw [hupd] at hd
      exact hd.1
    have hsec : nodePtr m₁ x₁ (.sec ((b - 518) / 512)) =
        (pointersOf (blockAt m₁ (nodePtr m₁ x₁ .dbl)) ((b - 518) / 512)).toNat := by
      rw [nodePtr_slot (n := .sec ((b - 518) / 512)) rfl, slotAt, if_neg hdbl]
    simp only [Option.map_some, blockStoreRead_data hid.2.le, doubleIndex_eq hb, Int.toNat_natCast]
    rw [if_neg (by omega)]
    by_cases hz : pointersOf (blockAt m₁ (nodePtr m₁ x₁ .dbl)) ((b - 518) / 512) = 0
    · have hn : nodePtr m₁ x₁ (.sec ((b - 518) / 512)) = 0 := by
        rw [hsec, hz]
        rfl
      by_cases hf : firstFree m₁ = sizeMax
      · refine Or.inl ⟨m₁,x₁,?_,?_,?_⟩
        · rw [hpath, growPath_some hg, growPath_none (grow_full hn hf)]
        · rw [hup, growPath_some hg, growPath_none (grow_full hn hf)]
        · simp only [hz, if_true, blockStoreAllocate_whole, hf]
      · right
        have hid₂ := (firstFree_spec hgr.sound.sys hf).1
        simp only [hz, if_true, blockStoreAllocate_whole, hf, if_false, blockStoreWrite_data hid.2.le]
        have hk : (b - 518) / 512 < 512 := by omega
        have hlt := hid₂.2
        have hg₂ : grow m₁ x₁ (.sec ((b - 518) / 512)) =
            some (setSlot (setUsed m₁ (firstFree m₁)) (nodePtr m₁ x₁ .dbl) ((b - 518) / 512) (firstFree m₁),x₁) :=
          grow_fresh hn hf
        generalize firstFree m₁ = id at *
        generalize hk' : (b - 518) / 512 = k at *
        have hslot : putBlock (setUsed m₁ id) (nodePtr m₁ x₁ .dbl) (pointerBytes (Function.update
            (pointersOf (blockAt m₁ (nodePtr m₁ x₁ .dbl))) k (UInt16.ofNat id))) =
            setSlot (setUsed m₁ id) (nodePtr m₁ x₁ .dbl) k id := by rw [setSlot, blockAt_setUsed hid]
        have hptr : nodePtr (setSlot (setUsed m₁ id) (nodePtr m₁ x₁ .dbl) k id) x₁ (.sec k) = id :=
          (slotAt_setSlot hid.ne_zero hk (by omega)).trans (if_pos rfl)
        refine ⟨setSlot (setUsed m₁ id) (nodePtr m₁ x₁ .dbl) k id,x₁,?_,?_⟩
        · rw [hup, growPath_some hg, growPath_some hg₂, growPath_nil]
        · rw [hslot, hptr]
    · right
      have hn : nodePtr m₁ x₁ (.sec ((b - 518) / 512)) ≠ 0 := by
        rw [hsec]
        exact fun he => hz (UInt16.toNat_inj.mp he)
      refine ⟨m₁,x₁,?_,?_⟩
      · rw [hup, growPath_some hg, growPath_some (grow_present hn), growPath_nil]
      · rw [if_neg hz, hsec]

/-- The second-level index block of block `b`, after the index blocks were grown. -/
theorem Ready.atIndex_sec {m₁ : Mem} {x₁ : Inode} (hr : Ready m t i b off n) (hb : 518 ≤ b)
    (hg : growPath m (t i) (pathTo b).dropLast = (true,m₁,x₁)) :
    AtIndex m₁ x₁ (.sec ((b - 518) / 512)) (518 + 512 * ((b - 518) / 512)) (nodePtr m₁ x₁ (.sec ((b - 518) / 512))) := by
  have hblt := hr.bLt
  have hup := (hr.grow_up hg).2
  rw [pathTo, if_neg (by omega), if_neg (by omega)] at hup
  exact LiteOSFS.atIndex_sec (by omega) (hup .dbl (by simp)) (hup (.sec _) (by simp))

theorem writeDouble_wrote {w : IndexWriter} (hw : w.Refines i) (hr : Ready m t i b off n) (hb : 518 ≤ b)
    (h : writeDoubleDirectBlock w m (t i) b off src n = some (r,m',x')) :
    WriteCall m (t i) b off src n r m' x' := by
  have hblt := hr.bLt
  rcases writeDouble_cases w src hr hb with ⟨m₁,x₁,hfull,hup,he⟩ | ⟨m₁,x₁,hg,he⟩
  · rw [he] at h
    cases h
    by_cases hn : n = 0
    · exact WriteCall.index (by omega) hn rfl hup
    · exact WriteCall.wrote (Wrote.full (by omega) (by omega) hfull)
  · rw [he] at h
    obtain ⟨hr₁,hup₁⟩ := hr.grow_up hg
    have hupd : (Function.update t i x₁) i = x₁ := Function.update_self ..
    have hat := hr.atIndex_sec hb hg
    have hres := hw hr₁ (by rw [hupd]; exact hat) (by omega) (by omega) (by rw [hupd]; exact h)
    rw [hupd] at hres
    exact Wrote.of_up (by omega) (by omega) hg hup₁ hres

/-- The loop of `write_indirect_block` in the index block `id`, and what follows it. -/
theorem writeIndirectBlock_loop {base id : ℕ} {p : Node} (fuel : ℕ) (src : Mem) (hr : Ready m t i b off n)
    (hat : AtIndex m (t i) p base id) (hlo : base ≤ b) (hhi : b < base + 512) :
    ∃ st done st', st = ⟨m,pointersOf (blockAt m id),b - base,b,off,src,n,0⟩ ∧ st.flushed id = m ∧
      writeIndirectLoop 512 st = some (done,st') ∧ LoopSpec t i p base id st st' ∧
      (done = false → st'.indirectPtrID < 512 ∧
        growPath (st'.flushed id) (t i) (pathTo (base + st'.indirectPtrID)) = (false,st'.flushed id,t i)) ∧
      (done = true → st'.nbyte = 0 ∨ st'.indirectPtrID = 512) ∧
      writeIndirectBlock (fuel + 1) m (t i) b off src n id =
        if !done || st'.nbyte = 0 then some (st'.sum,st'.flushed id,t i)
        else addSum st'.sum (writeDoubleDirectBlock (writeIndirectBlock fuel) (st'.flushed id) (t i) st'.fdLocator
          st'.fdOffset st'.src st'.nbyte) := by
  have halign := hat.align
  have hid : DataId id := by
    have hd := (dataId_of_node (n := p) hr.sound hr.file (by rw [hat.ptr]; exact hat.nonzero)).1
    rwa [hat.ptr] at hd
  obtain ⟨st,hst⟩ : ∃ st : IndirectWrite, st = ⟨m,pointersOf (blockAt m id),b - base,b,off,src,n,0⟩ := ⟨_,rfl⟩
  have hflush : st.flushed id = m := by
    rw [hst]
    exact flushed_start
  have hslot : base + st.indirectPtrID = b := by
    rw [hst]
    simp only
    omega
  have hb₀ : st.fdOffset = off ∧ st.nbyte = n := by
    rw [hst]
    exact ⟨rfl,rfl⟩
  obtain ⟨hoff₀,hn₀⟩ := hb₀
  obtain ⟨done,st',hl⟩ : ∃ done st', writeIndirectLoop 512 st = some (done,st') :=
    writeIndirectLoop_isSome (hoff₀ ▸ hr.offLt) (hn₀ ▸ hr.nLt)
  obtain ⟨hspec,hfull,hfin⟩ := writeIndirectLoop_spec (by omega) (by omega) (hflush.symm ▸ hr.sound) hr.file
    (hflush.symm ▸ hat) (hoff₀ ▸ hr.offLt) (hn₀ ▸ hr.nLt) (fun _ => by rw [hflush, hslot, hoff₀, hn₀]; exact hr.clean) hl
  refine ⟨st,done,st',hst,hflush,hl,hspec,hfull,hfin,?_⟩
  rw [writeIndirectBlock, blockStoreRead_data hid.2.le]
  simp only [indirectIndex_eq hlo hhi (by omega) halign]
  rw [← hst]
  simp only [hl, blockStoreWrite_data hid.2.le]
  rfl

/-- The index block is full: what is left starts at the next one, if a 16-bit locator reaches it. -/
theorem LoopSpec.next {p : Node} {base id : ℕ} {st st' : IndirectWrite} (h : LoopSpec t i p base id st st')
    (hfile : (t i).fileType ≠ typeDirectory) (hend : st'.indirectPtrID = 512) (hpos : 0 < st'.nbyte)
    (hn : st.nbyte < 2 ^ 64) (hlt : base + 512 < 65536) :
    Ready (st'.flushed id) t i (base + 512) st'.fdOffset st'.nbyte := by
  have hs := h.ext.sound
  rw [Function.update_eq_self] at hs
  have hclean := h.clean hpos
  rw [hend] at hclean
  exact ⟨hs,hfile,hlt,h.offLt,h.nbyteLe.trans_lt hn,hclean⟩

theorem writeIndirectBlock_wrote (fuel : ℕ) : IndexWriter.Refines (writeIndirectBlock fuel) i := by
  induction fuel with
  | zero =>
    intro m t b off n base id r p src m' x' _ _ _ _ h
    cases h
  | succ fuel ih =>
    intro m t b off n base id r p src m' x' hr hat hlo hhi h
    have hblt := hr.bLt
    have halign := hat.align
    obtain ⟨st,done,st',hst,hflush,_,hspec,hfull,hfin,he⟩ := writeIndirectBlock_loop fuel src hr hat hlo hhi
    rw [he] at h
    have hslot : base + st.indirectPtrID = b := by
      rw [hst]
      simp only
      omega
    have hb₀ : st.fdLocator = b ∧ st.fdOffset = off ∧ st.src = src ∧ st.nbyte = n ∧ st.sum = 0 := by
      rw [hst]
      exact ⟨rfl,rfl,rfl,rfl,rfl⟩
    obtain ⟨hloc₀,hoff₀,hsrc₀,hn₀,hsum₀⟩ := hb₀
    have hwrote : ∀ (sum : ℕ) (m' : Mem) (x' : Inode), Wrote (st'.flushed id) (t i) (base + st'.indirectPtrID)
        st'.fdOffset st'.src st'.nbyte sum m' x' → Wrote m (t i) b off src n (st'.sum + sum) m' x' := by
      intro sum m' x' hw
      have hw' := hspec.wrote sum m' x' hw
      rwa [hflush, hslot, hoff₀, hsrc₀, hn₀, hsum₀, Nat.sub_zero] at hw'
    cases hdone : done with
    | false =>
      rw [hdone] at h
      cases h
      obtain ⟨hj,hpath⟩ := hfull hdone
      by_cases hz : st'.nbyte = 0
      · exact hwrote 0 _ _ (by rw [hz]; exact Wrote.done)
      · exact hwrote 0 _ _ (Wrote.full (by omega) (by omega) hpath)
    | true =>
      by_cases hz : st'.nbyte = 0
      · rw [hdone, hz] at h
        cases h
        have hd := hwrote 0 (st'.flushed id) (t i) (by rw [hz]; exact Wrote.done)
        exact hd
      · have hend : st'.indirectPtrID = 512 := (hfin hdone).resolve_left hz
        have hloc := hspec.locator
        have hlt := hspec.locatorLt (by omega)
        rw [hloc₀, hend] at hloc
        rw [hdone] at h
        simp only [Bool.not_true, Bool.false_or, decide_eq_true_eq, hz, if_false] at h
        by_cases hwrap : base + 512 < 65536
        · have hb' : st'.fdLocator = base + 512 := by omega
          cases hdd : writeDoubleDirectBlock (writeIndirectBlock fuel) (st'.flushed id) (t i) st'.fdLocator
              st'.fdOffset st'.src st'.nbyte with
          | none =>
            rw [hdd] at h
            cases h
          | some res =>
            obtain ⟨r',m'',x''⟩ := res
            rw [hdd] at h
            cases h
            rw [hb'] at hdd
            apply hwrote
            rw [hend]
            have hnext := hspec.next hr.file hend (by omega) (hn₀ ▸ hr.nLt) hwrap
            exact (writeDouble_wrote ih hnext (by omega) hdd).wrote_of_pos (by omega)
        · -- past the last block that a 16-bit locator reaches
          have hb' : st'.fdLocator = 6 := by omega
          have hs₁ : Sound (st'.flushed id) t := by
            have hs₁ := hspec.ext.sound
            rwa [Function.update_eq_self] at hs₁
          have hdbl : nodePtr (st'.flushed id) (t i) .dbl ≠ 0 := by
            obtain ⟨up,he,hup⟩ := hspec.index.path 0 (by omega)
            apply hup
            rw [pathTo, if_neg (by omega), if_neg (by omega)] at he
            have he' := congrArg List.dropLast he
            rw [List.dropLast_concat] at he'
            rw [← he']
            simp
          rw [hb', writeDouble_wrapped hdbl (dataId_of_node hs₁ hr.file hdbl).1] at h
          cases h

end Levels

end LiteOSFS
