import LiteOSFS.FileSystem.WriteSpec

/-! # The three writers write block by block

The writers of the code keep the pointers of the current index block in a buffer
that is stored at the end. On the image in which the buffer is already stored
they perform the steps of `Wrote`.
-/
namespace LiteOSFS
open Memory Ownership

theorem blankSpace_eq {off n : ℕ} (hoff : off ≤ 1024) (hn : n < 2 ^ 64) :
    blankSpace off n = min (1024 - off) n := by
  unfold blankSpace
  simp only
  split_ifs <;> omega

theorem memcpyInto_eq {c s : Mem} {off len : ℕ} (h : off + len ≤ 1024) :
    memcpyInto c off s len = some (copyIn c off len s) := if_pos (Or.inr h)

theorem growPath_append {m : Mem} {x : Inode} {up ns : List Node} (h : ∀ n ∈ up, nodePtr m x n ≠ 0) :
    growPath m x (up ++ ns) = growPath m x ns := by
  induction up with
  | nil => rfl
  | cons n up ih =>
    rw [List.cons_append, growPath, grow_present (h n List.mem_cons_self)]
    exact ih (fun l hl => h l (List.mem_cons_of_mem _ hl))

theorem growPath_concat {m m₁ : Mem} {x x₁ : Inode} {up ns : List Node} (h : growPath m x up = (true,m₁,x₁)) :
    growPath m x (up ++ ns) = growPath m₁ x₁ ns := by
  induction up generalizing m x with
  | nil =>
    cases h
    rfl
  | cons n up ih =>
    rw [List.cons_append, growPath]
    rw [growPath] at h
    cases hg : grow m x n with
    | none =>
      rw [hg] at h
      cases h
    | some r =>
      rw [hg] at h
      exact ih h

theorem growPath_present {m : Mem} {x : Inode} {up : List Node} (h : ∀ n ∈ up, nodePtr m x n ≠ 0) :
    growPath m x up = (true,m,x) := by
  rw [← List.append_nil up, growPath_append h]
  rfl

/-- The image with the buffer of index block `id` stored. -/
def IndirectWrite.flushed (st : IndirectWrite) (id : ℕ) : Mem := putBlock st.image id (pointerBytes st.ptrs)

/-- The blocks from `base` on are the 512 whose numbers stand in the index block `p`, which is present. -/
structure AtIndex (m : Mem) (x : Inode) (p : Node) (base id : ℕ) : Prop where
  ptr : nodePtr m x p = id
  nonzero : id ≠ 0
  bound : base + 512 ≤ 65542
  align : base % 512 = 6
  child : ∀ j < 512, (Node.data (base + j)).parent = some (p,j)
  path : ∀ j < 512, ∃ up, pathTo (base + j) = up ++ [.data (base + j)] ∧ ∀ n ∈ up, nodePtr m x n ≠ 0

theorem AtIndex.mono {m m' : Mem} {x x' : Inode} {p : Node} {base id : ℕ} (h : AtIndex m x p base id)
    (hk : ∀ n, nodePtr m x n ≠ 0 → nodePtr m' x' n = nodePtr m x n) : AtIndex m' x' p base id := by
  refine ⟨?_,h.nonzero,h.bound,h.align,h.child,fun j hj => ?_⟩
  · rw [hk p (h.ptr ▸ h.nonzero), h.ptr]
  · obtain ⟨up,he,hup⟩ := h.path j hj
    refine ⟨up,he,fun n hn => ?_⟩
    rw [hk n (hup n hn)]
    exact hup n hn

theorem Extends.nodePtr_eq {m m' : Mem} {t : Table} {i : Fin 256} {x' : Inode} (h : Extends m t i m' x')
    (hfile : (t i).fileType ≠ typeDirectory) {n : Node} (hn : nodePtr m (t i) n ≠ 0) :
    nodePtr m' x' n = nodePtr m (t i) n := by
  have htype : x'.fileType ≠ typeDirectory := by rwa [attributes_fileType h.attrs]
  have hk := h.keeps (i,n) (by rwa [held, owns_of_file hfile])
  rwa [held_update_same, owns_of_file htype, held, owns_of_file hfile] at hk

theorem pointersOf_blockAt_flushed {st : IndirectWrite} {id j : ℕ} (hj : j < 512) :
    pointersOf (blockAt (st.flushed id) id) j = st.ptrs j := by
  rw [IndirectWrite.flushed, blockAt_putBlock, if_pos rfl, ← pointersOf_pointerBytes st.ptrs j]
  apply pointersOf_congr
  · rw [window_apply_lt (by omega), Nat.zero_add]
  · rw [window_apply_lt (by omega), Nat.zero_add]

section Slot
variable {t : Table} {i : Fin 256} {p : Node} {base id : ℕ} {st : IndirectWrite}

theorem nodePtr_flushed (hat : AtIndex (st.flushed id) (t i) p base id) {j : ℕ} (hj : j < 512) :
    nodePtr (st.flushed id) (t i) (.data (base + j)) = (st.ptrs j).toNat := by
  rw [nodePtr_slot (hat.child j hj), hat.ptr, slotAt, if_neg hat.nonzero, pointersOf_blockAt_flushed hj]

theorem pathTo_flushed (hat : AtIndex (st.flushed id) (t i) p base id) {j : ℕ} (hj : j < 512) :
    growPath (st.flushed id) (t i) (pathTo (base + j)) =
      growPath (st.flushed id) (t i) [.data (base + j)] := by
  obtain ⟨up,he,hup⟩ := hat.path j hj
  rw [he, growPath_append hup]

/-- The block of the current slot is the one that growing the path gives. -/
theorem slotTarget_spec (hs : Sound (st.flushed id) t) (hfile : (t i).fileType ≠ typeDirectory)
    (hat : AtIndex (st.flushed id) (t i) p base id) (hj : st.indirectPtrID < 512) :
    (slotTarget st = none ∧
      growPath (st.flushed id) (t i) (pathTo (base + st.indirectPtrID)) = (false,st.flushed id,t i)) ∨
    ∃ blk image ptrs, slotTarget st = some (blk,image,ptrs) ∧
      growPath (st.flushed id) (t i) (pathTo (base + st.indirectPtrID)) =
        (true,putBlock image id (pointerBytes ptrs),t i) ∧
      nodePtr (putBlock image id (pointerBytes ptrs)) (t i) (.data (base + st.indirectPtrID)) = blk := by
  rw [pathTo_flushed hat hj]
  have hptr := nodePtr_flushed hat hj
  by_cases hz : st.ptrs st.indirectPtrID = 0
  · have hn : nodePtr (st.flushed id) (t i) (.data (base + st.indirectPtrID)) = 0 := by rw [hptr, hz]; rfl
    have hid : DataId id := by
      have hp := hat.ptr ▸ hat.nonzero
      have hd := (dataId_of_node hs hfile hp).1
      rwa [hat.ptr] at hd
    have hfree : firstFree (st.flushed id) = firstFree st.image :=
      firstFree_congr (fun b hb => used_putBlock hid (by omega))
    by_cases hf : firstFree st.image = sizeMax
    · left
      refine ⟨?_,?_⟩
      · simp only [slotTarget, hz, blockStoreAllocate_whole, hf, if_true]
      · rw [growPath, grow_full hn (by rw [hfree, hf])]
    · right
      have hg : grow (st.flushed id) (t i) (.data (base + st.indirectPtrID)) =
          some (assign (setUsed (st.flushed id) (firstFree st.image)) (t i)
            (.data (base + st.indirectPtrID)) (firstFree st.image)) := by
        rw [grow_fresh hn (by rwa [hfree]), hfree]
        rfl
      have himg : (assign (setUsed (st.flushed id) (firstFree st.image)) (t i)
            (.data (base + st.indirectPtrID)) (firstFree st.image)) =
          (putBlock (setUsed st.image (firstFree st.image)) id
            (pointerBytes (Function.update st.ptrs st.indirectPtrID (UInt16.ofNat (firstFree st.image)))),t i) := by
        have hpp : nodePtr (setUsed (st.flushed id) (firstFree st.image)) (t i) p = id := by
          have hh : held (setUsed (st.flushed id) (firstFree st.image)) t (i,p) = held (st.flushed id) t (i,p) :=
            held_setUsed hs.own (i,p)
          rw [held, held, owns_of_file hfile, owns_of_file hfile] at hh
          rw [hh, hat.ptr]
        simp only [assign, hat.child _ hj, hpp, setSlot, blockAt_setUsed hid]
        rw [IndirectWrite.flushed, setUsed_putBlock hid, putBlock_putBlock]
        refine congrArg (·,t i) (putBlock_congr (fun k hk => ?_))
        simp only [pointerBytes, Function.update_apply]
        rw [← IndirectWrite.flushed, pointersOf_blockAt_flushed (by omega)]
      rw [himg] at hg
      have g := grow_missing hs hfile hn (fun p' j' hp' => by
        rw [hat.child _ hj] at hp'
        cases hp'
        exact ⟨by rw [hat.ptr]; exact hat.nonzero,hj⟩) (fun k hk => by cases hk) hg
      refine ⟨firstFree st.image,setUsed st.image (firstFree st.image),
        Function.update st.ptrs st.indirectPtrID (UInt16.ofNat (firstFree st.image)),?_,?_,?_⟩
      · simp only [slotTarget, hz, blockStoreAllocate_whole, hf, if_true, if_false]
      · simp only [growPath, hg]
      · have hh := g.holds (i,.data (base + st.indirectPtrID))
        simp only [Function.update_eq_self, held, owns_of_file hfile, hfree, if_true] at hh
        exact hh
  · right
    have hn : nodePtr (st.flushed id) (t i) (.data (base + st.indirectPtrID)) ≠ 0 := by
      rw [hptr]
      exact fun he => hz (UInt16.toNat_inj.mp he)
    refine ⟨(st.ptrs st.indirectPtrID).toNat,st.image,st.ptrs,if_neg hz,?_,hptr⟩
    exact growPath_present (by simpa using hn)

end Slot

/-- The loop from `st` to `st'`, on flushed images. -/
structure LoopSpec (t : Table) (i : Fin 256) (p : Node) (base id : ℕ) (st st' : IndirectWrite) : Prop where
  ext : Extends (st.flushed id) t i (st'.flushed id) (t i)
  index : AtIndex (st'.flushed id) (t i) p base id
  wrote : ∀ sum m' x', Wrote (st'.flushed id) (t i) (base + st'.indirectPtrID) st'.fdOffset st'.src st'.nbyte
      sum m' x' → Wrote (st.flushed id) (t i) (base + st.indirectPtrID) st.fdOffset st.src st.nbyte
      (st'.sum - st.sum + sum) m' x'
  sumLe : st.sum ≤ st'.sum
  locator : st'.fdLocator % 65536 = (st.fdLocator + (st'.indirectPtrID - st.indirectPtrID)) % 65536
  locatorLt : st.fdLocator < 65536 → st'.fdLocator < 65536
  slotLe : st.indirectPtrID ≤ st'.indirectPtrID ∧ st'.indirectPtrID ≤ 512
  clean : 0 < st'.nbyte → Clean (st'.flushed id) (t i)
    (touchedNodes (base + st'.indirectPtrID) st'.fdOffset st'.nbyte)
  offLt : st'.fdOffset ≤ 1024
  nbyteLe : st'.nbyte ≤ st.nbyte

section Loop
variable {t : Table} {i : Fin 256} {p : Node} {base id : ℕ} {st st₁ st' : IndirectWrite}

theorem LoopSpec.trans (h : LoopSpec t i p base id st st₁) (h' : LoopSpec t i p base id st₁ st') :
    LoopSpec t i p base id st st' := by
  have hle := h.sumLe
  have hle' := h'.sumLe
  have hsl := h.slotLe
  have hsl' := h'.slotLe
  have hl := h.locator
  have hl' := h'.locator
  have hn := h.nbyteLe
  have hn' := h'.nbyteLe
  refine ⟨h.ext.trans (by rw [Function.update_eq_self]; exact h'.ext),h'.index,fun sum m' x' hw => ?_,by omega,
    by omega,fun hlt => h'.locatorLt (h.locatorLt hlt),by omega,h'.clean,h'.offLt,by omega⟩
  have hw' := h.wrote _ _ _ (h'.wrote _ _ _ hw)
  rwa [show st₁.sum - st.sum + (st'.sum - st₁.sum + sum) = st'.sum - st.sum + sum by omega] at hw'

/-- One slot of the loop stores one block of the file. -/
theorem slotStep_touch {blk : ℕ} {image block : Mem} {ptrs : ℕ → UInt16} (hs : Sound (st.flushed id) t)
    (hfile : (t i).fileType ≠ typeDirectory) (hat : AtIndex (st.flushed id) (t i) p base id)
    (hj : st.indirectPtrID < 512) (hoff : st.fdOffset ≤ 1024) (hn : st.nbyte < 2 ^ 64)
    (hc : Clean (st.flushed id) (t i) (touchedNodes (base + st.indirectPtrID) st.fdOffset st.nbyte))
    (htarget : slotTarget st = some (blk,image,ptrs))
    (hblock : memcpyInto ((blockStoreRead image wholeStore blk).getD zeros) st.fdOffset st.src
      (blankSpace st.fdOffset st.nbyte) = some block)
    (hst : st₁ = { image := (blockStoreWrite image wholeStore blk block).2, ptrs := ptrs,
                   indirectPtrID := st.indirectPtrID + 1, fdLocator := (st.fdLocator + 1) % 65536,
                   fdOffset := 0, src := shift st.src (blankSpace st.fdOffset st.nbyte),
                   nbyte := st.nbyte - blankSpace st.fdOffset st.nbyte,
                   sum := st.sum + blankSpace st.fdOffset st.nbyte }) :
    ∃ m₁, growPath (st.flushed id) (t i) (pathTo (base + st.indirectPtrID)) = (true,m₁,t i) ∧
      st₁.flushed id = storeAt m₁ (t i) (base + st.indirectPtrID) (piece (st.flushed id) (t i) m₁ (t i)
        (base + st.indirectPtrID) st.fdOffset st.src (min (1024 - st.fdOffset) st.nbyte)) := by
  have hbound := hat.bound
  rw [blankSpace_eq hoff hn] at hblock hst
  obtain ⟨hnone,_⟩ | ⟨blk',image',ptrs',he,hgrow,hblk⟩ := slotTarget_spec hs hfile hat hj
  · rw [hnone] at htarget
    cases htarget
  rw [htarget] at he
  cases he
  obtain ⟨rest,htouch,_⟩ := touchedNodes_step (b := base + st.indirectPtrID) (n := st.nbyte) hoff
  rw [htouch] at hc
  obtain ⟨hg,_,hdata,_,_,_⟩ := touch_spec hs hfile (by omega) hc hgrow zeros
  have hs₁ : Sound (putBlock image id (pointerBytes ptrs)) t := by
    have hs₁ := hg.sound
    rwa [Function.update_eq_self] at hs₁
  have hat₁ : AtIndex (putBlock image id (pointerBytes ptrs)) (t i) p base id :=
    hat.mono (fun n hne => hg.nodePtr_eq hfile hne)
  have hid := (dataId_of_node hs₁ hfile hdata).1
  rw [hblk] at hid
  have hne : blk ≠ id := by
    have hne := node_ne hs₁ hfile hdata (Node.parent_ne_data (hat.child _ hj)).symm
    rwa [hblk, hat₁.ptr] at hne
  rw [blockStoreRead_data hid.2.le, Option.getD_some, memcpyInto_eq (by omega)] at hblock
  rw [blockStoreWrite_data hid.2.le] at hst
  have h6 : ¬ base + st.indirectPtrID < 6 := by
    have hch := hat.child _ hj
    intro h6
    rw [Node.parent, if_pos h6] at hch
    cases hch
  have hpiece : piece (st.flushed id) (t i) (putBlock image id (pointerBytes ptrs)) (t i)
      (base + st.indirectPtrID) st.fdOffset st.src (min (1024 - st.fdOffset) st.nbyte) = block := by
    rw [piece, if_neg (fun h => h6 h.1), hblk, blockAt_putBlock, if_neg (Ne.symm hne)]
    exact Option.some.inj hblock
  refine ⟨_,hgrow,?_⟩
  rw [hpiece, hst, storeAt, hblk]
  exact putBlock_comm hne

/-- One slot. -/
theorem slotStep_spec {blk : ℕ} {image block : Mem} {ptrs : ℕ → UInt16} (hs : Sound (st.flushed id) t)
    (hfile : (t i).fileType ≠ typeDirectory) (hat : AtIndex (st.flushed id) (t i) p base id)
    (hj : st.indirectPtrID < 512) (hoff : st.fdOffset ≤ 1024) (hpos : 0 < st.nbyte) (hn : st.nbyte < 2 ^ 64)
    (hc : Clean (st.flushed id) (t i) (touchedNodes (base + st.indirectPtrID) st.fdOffset st.nbyte))
    (htarget : slotTarget st = some (blk,image,ptrs))
    (hblock : memcpyInto ((blockStoreRead image wholeStore blk).getD zeros) st.fdOffset st.src
      (blankSpace st.fdOffset st.nbyte) = some block)
    (hst : st₁ = { image := (blockStoreWrite image wholeStore blk block).2, ptrs := ptrs,
                   indirectPtrID := st.indirectPtrID + 1, fdLocator := (st.fdLocator + 1) % 65536,
                   fdOffset := 0, src := shift st.src (blankSpace st.fdOffset st.nbyte),
                   nbyte := st.nbyte - blankSpace st.fdOffset st.nbyte,
                   sum := st.sum + blankSpace st.fdOffset st.nbyte }) :
    LoopSpec t i p base id st st₁ := by
  have hbound := hat.bound
  obtain ⟨m₁,hgrow,hflush⟩ := slotStep_touch hs hfile hat hj hoff hn hc htarget hblock hst
  obtain ⟨rest,htouch,hrest⟩ := touchedNodes_step (b := base + st.indirectPtrID) (n := st.nbyte) hoff
  rw [htouch] at hc
  obtain ⟨hg,_,_,hext,hclean,hkeep⟩ := touch_spec hs hfile (by omega) hc hgrow
    (piece (st.flushed id) (t i) m₁ (t i) (base + st.indirectPtrID) st.fdOffset st.src
      (min (1024 - st.fdOffset) st.nbyte))
  have hat₁ : AtIndex m₁ (t i) p base id := hat.mono (fun n hne => hg.nodePtr_eq hfile hne)
  have hwrote : ∀ sum m' x', Wrote (storeAt m₁ (t i) (base + st.indirectPtrID) (piece (st.flushed id) (t i) m₁ (t i)
      (base + st.indirectPtrID) st.fdOffset st.src (min (1024 - st.fdOffset) st.nbyte))) (t i)
      (base + st.indirectPtrID + 1) 0 (shift st.src (min (1024 - st.fdOffset) st.nbyte))
      (st.nbyte - min (1024 - st.fdOffset) st.nbyte) sum m' x' → Wrote (st.flushed id) (t i) (base + st.indirectPtrID)
      st.fdOffset st.src st.nbyte (min (1024 - st.fdOffset) st.nbyte + sum) m' x' :=
    fun _ _ _ hw => Wrote.step (by omega) hpos hgrow hw
  rw [← hflush] at hext hclean hkeep hwrote
  rw [blankSpace_eq hoff hn] at hst
  subst hst
  refine ⟨hg.toExtends.trans hext,hat₁.mono (fun n _ => hkeep n),fun sum m' x' hw => ?_,by simp,by simp,
    fun _ => Nat.mod_lt _ (by omega),by simp only; omega,fun hpos => ?_,by simp,by simp⟩
  · simp only [Nat.add_sub_cancel_left]
    exact hwrote sum m' x' hw
  · rw [hrest hpos] at hclean
    exact hclean

/-- A cursor inside its block never overruns a buffer. -/
theorem writeIndirectLoop_isSome {fuel : ℕ} (hoff : st.fdOffset ≤ 1024) (hn : st.nbyte < 2 ^ 64) :
    ∃ done st', writeIndirectLoop fuel st = some (done,st') := by
  induction fuel generalizing st with
  | zero => exact ⟨_,_,rfl⟩
  | succ fuel ih =>
    rw [writeIndirectLoop]
    split_ifs with hcond
    · cases htarget : slotTarget st with
      | none => exact ⟨_,_,rfl⟩
      | some r =>
        simp only [blankSpace_eq hoff hn]
        rw [memcpyInto_eq (by omega)]
        exact ih (Nat.zero_le _) (by simp only; omega)
    · exact ⟨_,_,rfl⟩

theorem writeIndirectLoop_spec {fuel : ℕ} {done : Bool} (hfuel : 512 ≤ fuel + st.indirectPtrID)
    (hslot : st.indirectPtrID ≤ 512)
    (hs : Sound (st.flushed id) t) (hfile : (t i).fileType ≠ typeDirectory)
    (hat : AtIndex (st.flushed id) (t i) p base id) (hoff : st.fdOffset ≤ 1024) (hn : st.nbyte < 2 ^ 64)
    (hc : 0 < st.nbyte →
      Clean (st.flushed id) (t i) (touchedNodes (base + st.indirectPtrID) st.fdOffset st.nbyte))
    (h : writeIndirectLoop fuel st = some (done,st')) :
    LoopSpec t i p base id st st' ∧
      (done = false → st'.indirectPtrID < 512 ∧
        growPath (st'.flushed id) (t i) (pathTo (base + st'.indirectPtrID)) = (false,st'.flushed id,t i)) ∧
      (done = true → st'.nbyte = 0 ∨ st'.indirectPtrID = 512) := by
  have hrefl : st.indirectPtrID ≤ 512 → LoopSpec t i p base id st st := fun hle =>
    ⟨Extends.refl hs,hat,fun _ _ _ hw => by simpa using hw,le_rfl,by simp,fun hlt => hlt,⟨le_rfl,hle⟩,hc,hoff,
      le_rfl⟩
  induction fuel generalizing st with
  | zero =>
    cases h
    exact ⟨hrefl (by omega),by simp,fun _ => Or.inr (by omega)⟩
  | succ fuel ih =>
    rw [writeIndirectLoop] at h
    by_cases hcond : st.indirectPtrID < 512 ∧ st.nbyte > 0
    · rw [if_pos hcond] at h
      obtain ⟨hj,hpos⟩ := hcond
      cases htarget : slotTarget st with
      | none =>
        rw [htarget] at h
        cases h
        refine ⟨hrefl hj.le,fun _ => ?_,by simp⟩
        obtain ⟨_,hg⟩ | ⟨_,_,_,he,_⟩ := slotTarget_spec hs hfile hat hj
        · exact ⟨hj,hg⟩
        · rw [htarget] at he
          cases he
      | some r =>
        obtain ⟨blk,image,ptrs⟩ := r
        simp only [htarget] at h
        cases hblock : memcpyInto ((blockStoreRead image wholeStore blk).getD zeros) st.fdOffset st.src
            (blankSpace st.fdOffset st.nbyte) with
        | none =>
          rw [hblock] at h
          cases h
        | some block =>
          rw [hblock] at h
          obtain ⟨st₁,hst₁⟩ : ∃ st₁ : IndirectWrite, st₁ = ⟨(blockStoreWrite image wholeStore blk block).2,ptrs,
            st.indirectPtrID + 1,(st.fdLocator + 1) % 65536,0,shift st.src (blankSpace st.fdOffset st.nbyte),
            st.nbyte - blankSpace st.fdOffset st.nbyte,st.sum + blankSpace st.fdOffset st.nbyte⟩ := ⟨_,rfl⟩
          have hstep := slotStep_spec hs hfile hat hj hoff hpos hn (hc hpos) htarget hblock hst₁
          have hs₁ : Sound (st₁.flushed id) t := by
            have hs₁ := hstep.ext.sound
            rwa [Function.update_eq_self] at hs₁
          have hslot₁ : st₁.indirectPtrID = st.indirectPtrID + 1 := by rw [hst₁]
          have hle := hstep.nbyteLe
          have hrest := ih (by omega) (by omega) hs₁ hstep.index hstep.offLt (by omega) hstep.clean
            (by rw [hst₁]; exact h) (fun hle => ⟨Extends.refl hs₁,hstep.index,fun _ _ _ hw => by simpa using hw,
              le_rfl,by simp,fun hlt => hlt,⟨le_rfl,hle⟩,hstep.clean,hstep.offLt,le_rfl⟩)
          exact ⟨hstep.trans hrest.1,hrest.2⟩
    · rw [if_neg hcond] at h
      cases h
      exact ⟨hrefl (by omega),by simp,fun _ => by omega⟩

end Loop

end LiteOSFS
