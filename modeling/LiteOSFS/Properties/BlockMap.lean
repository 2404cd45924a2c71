import LiteOSFS.FileSystem.SlotCover
import LiteOSFS.FileSystem.Invariant

/-! # Readers and writers use the same pointer slots

The `i`-th lookup of a reader or a writer that started at block `a` is at the slot
`slotOf (a + i)`, through all changes of level, and the block that it goes to is the one
that the slot has. Nothing is assumed of the image, not even that the blocks are apart.
-/
namespace LiteOSFS
open Memory

/-- The slot for a logical block. -/
def slotOf (b : ℕ) : PtrSlot :=
  if b < 6 then .direct b
  else if b < 518 then .index none (b - 6)
  else .index (some ((b - 518) / 512)) ((b - 518) % 512)

/-- The first logical block below an index block. -/
def levelBase : Option ℕ → ℕ
  | none => 6
  | some k => 518 + 512 * k

/-- A lookup for block `b`: at its slot, in the index block that the image and the inode have for it, and what is
fetched is the entry there. -/
structure Consult.Right (c : Consult) (b : ℕ) : Prop where
  slot : c.slot = slotOf b
  block : c.block = c.slot.holder c.image c.inode
  entry : c.access.pointer = c.slot.entry c.image c.inode c.block

/-- The block that the store gives out next. -/
def freshBlock (m : Mem) : Option ℕ :=
  if (blockStoreAllocate m wholeStore).1 = sizeMax then none else some (blockStoreAllocate m wholeStore).1

/-- A writer goes to the block that it finds, or to a fresh one where it finds none. -/
def Access.Fills (a : Access) : Prop := a.used = if a.pointer = 0 then freshBlock a.before else some a.pointer.toNat

/-- A reader goes to the block that it finds, or stops. -/
def Access.Reads (a : Access) : Prop := a.used = if a.pointer = 0 then none else some a.pointer.toNat

/-- The slot is left with the block that was written. -/
structure Consult.Written (c : Consult) : Prop where
  fills : c.access.Fills
  kept : ∀ m x, c.left = some (m,x) → ∀ id, c.access.used = some id → (c.slot.entry m x c.block).toNat = id

/-- A reader's image and inode are the ones that it was called with. -/
structure Consult.ReadOn (m : Mem) (x : Inode) (c : Consult) : Prop where
  image : c.image = m
  inode : c.inode = x
  reads : c.access.Reads

/-- The lookups for the blocks from `a` on, as far as locators go. -/
def InStep (P : Consult → Prop) (a : ℕ) (cs : List Consult) : Prop :=
  ∀ i c, cs[i]? = some c → a + i ≤ 65535 → c.Right (a + i) ∧ P c

section Steps
variable {P : Consult → Prop} {a j len id : ℕ} {c : Consult} {cs cs' : List Consult} {m : Mem} {x : Inode}
  {level : Option ℕ}

theorem slotOf_level (level : Option ℕ) {j : ℕ} (hj : j < 512) : slotOf (levelBase level + j) = .index level j := by
  cases level with
  | none =>
    rw [levelBase, slotOf, if_neg (by omega), if_pos (by omega), Nat.add_sub_cancel_left]
  | some k =>
    have hdiv : (518 + 512 * k + j - 518) / 512 = k := by omega
    have hmod : (518 + 512 * k + j - 518) % 512 = j := by omega
    rw [levelBase, slotOf, if_neg (by omega), if_neg (by omega), hdiv, hmod]

theorem inStep_nil : InStep P a [] := fun i c hc => by simp at hc

theorem InStep.cons (hc : c.Right a ∧ P c) (h : InStep P (a + 1) cs) : InStep P a (c :: cs) := by
  intro i d hd hi
  cases i with
  | zero =>
    cases hd
    exact hc
  | succ i =>
    have hr := h i d hd (by omega)
    rwa [Nat.add_assoc, Nat.add_comm 1 i] at hr

theorem InStep.append (h : InStep P a cs) (h' : a + cs.length ≤ 65535 → InStep P (a + cs.length) cs') :
    InStep P a (cs ++ cs') := by
  intro i c hc hi
  rcases Nat.lt_or_ge i cs.length with hlt | hge
  · rw [List.getElem?_append_left hlt] at hc
    exact h i c hc hi
  · rw [List.getElem?_append_right hge] at hc
    have hr := h' (by omega) (i - cs.length) c hc (by omega)
    rwa [Nat.add_assoc, Nat.add_sub_cancel' hge] at hr

/-- The accesses to one index block. -/
theorem inStep_accesses {as : List Access} {left : Option (Mem × Inode)} (hid : id = indexBlock m x level)
    (hlen : j + len ≤ 512) (hslots : as.map (fun a => a.slot) = List.range' j len)
    (hentry : ∀ a ∈ as, a.pointer = pointersOf (blockAt m id) a.slot)
    (hP : ∀ a ∈ as, P (a.consult level id m x left)) :
    InStep P (levelBase level + j) (as.map (Access.consult level id m x left)) := by
  intro i c hc hi
  rw [List.getElem?_map] at hc
  obtain ⟨u,hu,rfl⟩ := Option.map_eq_some_iff.mp hc
  have hmem := List.mem_of_getElem? hu
  have hslot : (List.range' j len)[i]? = some u.slot := by rw [← hslots, List.getElem?_map, hu, Option.map_some]
  obtain ⟨hlt,he⟩ := List.getElem?_eq_some_iff.mp hslot
  rw [List.length_range'] at hlt
  rw [List.getElem_range', Nat.one_mul] at he
  refine ⟨⟨?_,hid,hentry u hmem⟩,hP u hmem⟩
  rw [Nat.add_assoc, slotOf_level level (by omega), he]
  rfl

end Steps

section Writers
variable {m : Mem} {x : Inode}

theorem allocate_lt (h : (blockStoreAllocate m wholeStore).1 ≠ sizeMax) : (blockStoreAllocate m wholeStore).1 < 65536 := by
  rcases blockStoreAllocate_spec m wholeStore (by decide) with ⟨he,_⟩ | ⟨id,hlt,he,_⟩
  · exact absurd (congrArg Prod.fst he) h
  · have hn : id < 65528 := hlt
    rw [he]
    dsimp only
    omega

theorem toNat_allocated (h : (blockStoreAllocate m wholeStore).1 ≠ sizeMax) :
    (UInt16.ofNat (blockStoreAllocate m wholeStore).1).toNat = (blockStoreAllocate m wholeStore).1 := by
  rw [UInt16.toNat_ofNat', Nat.mod_eq_of_lt (allocate_lt h)]

theorem allocateIndirectPtrBlock_fst (m : Mem) :
    (allocateIndirectPtrBlock m).1 = (blockStoreAllocate m wholeStore).1 := by
  simp only [allocateIndirectPtrBlock]
  split_ifs <;> rfl

theorem indirectTarget_block {m' : Mem} {x' : Inode} {id : ℕ} (h : indirectTarget m x = some (id,m',x')) :
    id = indexBlock m' x' none := by
  rw [indirectTarget] at h
  dsimp only at h
  rw [allocateIndirectPtrBlock_fst] at h
  split_ifs at h with hz hfull
  · cases h
    exact (toNat_allocated hfull).symm
  · cases h
    rfl

theorem doubleTarget_block {m' : Mem} {x' : Inode} {id : ℕ} (h : doubleTarget m x = some (id,m',x')) :
    id = x'.doubleIndirectPointer.toNat := by
  rw [doubleTarget] at h
  dsimp only at h
  rw [allocateIndirectPtrBlock_fst] at h
  split_ifs at h with hz hfull
  · cases h
    exact (toNat_allocated hfull).symm
  · cases h
    rfl

theorem blockStoreRead_some {id : ℕ} {buffer : Mem} (h : blockStoreRead m wholeStore id = some buffer) :
    id ≤ 65528 ∧ buffer = blockAt m id := by
  by_cases hid : id ≤ 65528
  · rw [blockStoreRead_data hid] at h
    exact ⟨hid,(Option.some.inj h).symm⟩
  · rw [blockStoreRead, if_neg hid] at h
    cases h

/-- A slot that has just been stored in a block of pointers. -/
theorem pointer_stored {id k : ℕ} {ptrs : ℕ → UInt16} {v : UInt16} (hid : id ≤ 65528) (hk : k < 512) :
    pointersOf (blockAt (blockStoreWrite m wholeStore id (pointerBytes (Function.update ptrs k v))).2 id) k = v := by
  have hput : (blockStoreWrite m wholeStore id (pointerBytes (Function.update ptrs k v))).2 =
      IndirectWrite.flushed ⟨m,Function.update ptrs k v,0,0,0,zeros,0,0⟩ id := by
    rw [blockStoreWrite_data hid]
    rfl
  rw [hput, pointersOf_blockAt_flushed hk]
  exact Function.update_self ..

theorem freshBlock_of_full (h : (blockStoreAllocate m wholeStore).1 = sizeMax) : freshBlock m = none := if_pos h

theorem freshBlock_of_room (h : (blockStoreAllocate m wholeStore).1 ≠ sizeMax) :
    freshBlock m = some (blockStoreAllocate m wholeStore).1 := if_neg h

/-- What is logged for a slot, and that the pointers then have the block that is used. -/
structure SlotAccess (st : IndirectWrite) (target : Option (ℕ × Mem × (ℕ → UInt16))) (a : Access) : Prop where
  slot : a.slot = st.indirectPtrID
  pointer : a.pointer = st.ptrs st.indirectPtrID
  fills : a.Fills
  stored : ∀ id image ptrs, target = some (id,image,ptrs) → a.used = some id ∧ (ptrs st.indirectPtrID).toNat = id ∧
    ∀ j ≠ st.indirectPtrID, ptrs j = st.ptrs j
  stops : target = none → a.used = none

theorem slotTargetTraced_spec (st : IndirectWrite) : SlotAccess st (slotTargetTraced st).1 (slotTargetTraced st).2 := by
  rw [slotTargetTraced, fetch]
  by_cases hz : st.ptrs st.indirectPtrID = 0
  · rw [if_pos hz]
    dsimp only
    by_cases hfull : (blockStoreAllocate st.image wholeStore).1 = sizeMax
    · rw [if_pos hfull]
      exact ⟨rfl,rfl,((if_pos hz).trans (freshBlock_of_full hfull)).symm,fun _ _ _ he => (by cases he),fun _ => rfl⟩
    · rw [if_neg hfull]
      refine ⟨rfl,rfl,((if_pos hz).trans (freshBlock_of_room hfull)).symm,?_,fun he => by cases he⟩
      rintro id image ptrs he
      cases he
      exact ⟨rfl,by rw [Function.update_self, toNat_allocated hfull],fun j hj => Function.update_of_ne hj ..⟩
  · rw [if_neg hz]
    refine ⟨rfl,rfl,(if_neg hz).symm,?_,fun he => by cases he⟩
    rintro id image ptrs he
    cases he
    exact ⟨rfl,rfl,fun _ _ => rfl⟩

/-- The log of a loop that starts in `st`: one slot after another, each with the pointer that was there, and at the
end the pointers have the blocks that were used. -/
structure LoopLog (st : IndirectWrite) (r : Option (Bool × IndirectWrite) × List Access) (len : ℕ) : Prop where
  le : st.indirectPtrID + len ≤ 512
  slots : r.2.map (fun a => a.slot) = List.range' st.indirectPtrID len
  fetched : ∀ a ∈ r.2, a.pointer = st.ptrs a.slot ∧ a.Fills
  lower : ∀ d st', r.1 = some (d,st') → ∀ j < st.indirectPtrID, st'.ptrs j = st.ptrs j
  stored : ∀ d st', r.1 = some (d,st') → ∀ a ∈ r.2, ∀ id, a.used = some id → (st'.ptrs a.slot).toNat = id
  ends : ∀ st', r.1 = some (true,st') → st'.nbyte = 0 ∨
    st.indirectPtrID + len = 512 ∧ st'.fdLocator = (st.fdLocator + len) % 65536

theorem LoopLog.done {st : IndirectWrite} (hj : st.indirectPtrID ≤ 512)
    (hend : st.nbyte = 0 ∨ st.indirectPtrID = 512 ∧ st.fdLocator < 65536) : LoopLog st (some (true,st),[]) 0 := by
  refine ⟨hj,rfl,fun _ ha => absurd ha List.not_mem_nil,fun _ _ he _ _ => ?_,fun _ _ _ _ ha => absurd ha List.not_mem_nil,
    fun st' he => ?_⟩
  · cases he
    rfl
  cases he
  exact hend.imp_right (fun h => ⟨h.1,(Nat.mod_eq_of_lt h.2).symm⟩)

/-- A loop that goes no further than its first slot. -/
theorem LoopLog.one {st : IndirectWrite} {a : Access} {r : Option (Bool × IndirectWrite)}
    {target : Option (ℕ × Mem × (ℕ → UInt16))} (ha : SlotAccess st target a) (hj : st.indirectPtrID < 512)
    (hr : r = none ∨ r = some (false,st) ∧ target = none) : LoopLog st (r,[a]) 1 := by
  refine ⟨hj,by rw [List.map_singleton, ha.slot]; rfl,?_,?_,?_,?_⟩
  · rintro u hu
    obtain rfl := List.mem_singleton.mp hu
    exact ⟨by rw [ha.pointer, ha.slot],ha.fills⟩
  · rintro d st' he j _
    rcases hr with rfl | ⟨rfl,_⟩ <;> cases he
    rfl
  · rintro d st' he u hu id hid
    obtain rfl := List.mem_singleton.mp hu
    rcases hr with rfl | ⟨rfl,hnone⟩
    · cases he
    · rw [ha.stops hnone] at hid
      cases hid
  · rintro st' he
    rcases hr with rfl | ⟨rfl,_⟩ <;> cases he

theorem LoopLog.cons {st next : IndirectWrite} {a : Access} {id len : ℕ} {image : Mem} {ptrs : ℕ → UInt16}
    {r : Option (Bool × IndirectWrite) × List Access} (ha : SlotAccess st (some (id,image,ptrs)) a)
    (h : LoopLog next r len) (hnext : next.indirectPtrID = st.indirectPtrID + 1) (hptrs : next.ptrs = ptrs)
    (hloc : next.fdLocator = (st.fdLocator + 1) % 65536) : LoopLog st (before a r) (len + 1) := by
  obtain ⟨hused,hid,hother⟩ := ha.stored id image ptrs rfl
  have hle := h.le
  have habove : ∀ u ∈ r.2, st.indirectPtrID < u.slot := by
    intro u hu
    have hs : u.slot ∈ List.range' next.indirectPtrID len := h.slots ▸ List.mem_map_of_mem hu
    have hge := (List.mem_range'_1.mp hs).1
    omega
  refine ⟨by omega,?_,?_,fun d st' he j hj => ?_,?_,fun st' he => ?_⟩
  · show a.slot :: r.2.map (fun a => a.slot) = _
    rw [h.slots, ha.slot, hnext, List.range'_succ]
  · rintro u hu
    rcases List.mem_cons.mp hu with rfl | hu
    · exact ⟨by rw [ha.pointer, ha.slot],ha.fills⟩
    · obtain ⟨hp,hf⟩ := h.fetched u hu
      rw [hptrs, hother _ (habove u hu).ne'] at hp
      exact ⟨hp,hf⟩
  · rw [h.lower d st' he j (by omega), hptrs, hother j (by omega)]
  · rintro d st' he u hu id' hid'
    rcases List.mem_cons.mp hu with rfl | hu
    · rw [hused] at hid'
      obtain rfl := Option.some.inj hid'
      rw [ha.slot, h.lower d st' he _ (by omega), hptrs, hid]
    · exact h.stored d st' he u hu id' hid'
  · rcases h.ends st' he with h0 | ⟨hfull,hfd⟩
    · exact Or.inl h0
    · exact Or.inr ⟨by omega,by omega⟩

theorem writeLoop_log {fuel : ℕ} {st : IndirectWrite} (hfuel : 512 ≤ fuel + st.indirectPtrID)
    (hj : st.indirectPtrID ≤ 512) (hfd : st.fdLocator < 65536) : ∃ len, LoopLog st (writeIndirectLoopTraced fuel st) len := by
  induction fuel generalizing st with
  | zero => exact ⟨0,LoopLog.done hj (Or.inr ⟨by omega,hfd⟩)⟩
  | succ fuel ih =>
    rw [writeIndirectLoopTraced]
    split_ifs with hgo
    · have ha := slotTargetTraced_spec st
      dsimp only
      generalize (slotTargetTraced st).1 = target at ha ⊢
      cases target with
      | none => exact ⟨1,LoopLog.one ha hgo.1 (Or.inr ⟨rfl,rfl⟩)⟩
      | some r =>
        obtain ⟨blockID,image,ptrs⟩ := r
        dsimp only
        cases memcpyInto ((blockStoreRead image wholeStore blockID).getD zeros) st.fdOffset st.src
            (blankSpace st.fdOffset st.nbyte) with
        | none => exact ⟨1,LoopLog.one ha hgo.1 (Or.inl rfl)⟩
        | some block =>
          dsimp only
          set next : IndirectWrite := { image := (blockStoreWrite image wholeStore blockID block).2
                                        ptrs := ptrs
                                        indirectPtrID := st.indirectPtrID + 1
                                        fdLocator := (st.fdLocator + 1) % 65536
                                        fdOffset := 0
                                        src := shift st.src (blankSpace st.fdOffset st.nbyte)
                                        nbyte := st.nbyte - blankSpace st.fdOffset st.nbyte
                                        sum := st.sum + blankSpace st.fdOffset st.nbyte } with hnext
          have hid : next.indirectPtrID = st.indirectPtrID + 1 := rfl
          have hloc : next.fdLocator = (st.fdLocator + 1) % 65536 := rfl
          obtain ⟨len,hlog⟩ := ih (show 512 ≤ fuel + next.indirectPtrID by omega) (by omega) (by omega)
          exact ⟨len + 1,LoopLog.cons ha hlog rfl rfl rfl⟩
    · refine ⟨0,LoopLog.done hj ?_⟩
      rcases Nat.eq_zero_or_pos st.nbyte with h0 | hpos
      · exact Or.inl h0
      · exact Or.inr ⟨by omega,hfd⟩

theorem pointers_flushed {st : IndirectWrite} {id j : ℕ} (hid : id ≤ 65528) (hj : j < 512) :
    pointersOf (blockAt (blockStoreWrite st.image wholeStore id (pointerBytes st.ptrs)).2 id) j = st.ptrs j := by
  have hput : (blockStoreWrite st.image wholeStore id (pointerBytes st.ptrs)).2 = st.flushed id := by
    rw [blockStoreWrite_data hid]
    rfl
  rw [hput, pointersOf_blockAt_flushed hj]

/-- A writer of the blocks below an index block looks up their slots. -/
def TracedWriter.InStep (w : TracedWriter) : Prop := ∀ level m x a off src n id, levelBase level ≤ a →
  a < levelBase level + 512 → id = indexBlock m x level → LiteOSFS.InStep Consult.Written a (w level m x a off src n id).2

theorem writeDouble_inStep {w : TracedWriter} (hw : w.InStep) {a : ℕ} (ha : 518 ≤ a) (hlt : a < 65536) (off : ℕ)
    (src : Mem) (n : ℕ) :
    InStep Consult.Written a (writeDoubleDirectTraced (fun k => w (some k)) m x a off src n).2 := by
  rw [writeDoubleDirectTraced]
  cases hd : doubleTarget m x with
  | none => exact inStep_nil
  | some r =>
    obtain ⟨doubleID,m',x'⟩ := r
    have hdouble := doubleTarget_block hd
    dsimp only
    cases hread : blockStoreRead m' wholeStore doubleID with
    | none => exact inStep_nil
    | some buffer =>
      obtain ⟨hid,rfl⟩ := blockStoreRead_some hread
      have hk : (a - 518) / 512 < 512 := by omega
      dsimp only
      rw [doubleIndex_eq ha, Int.toNat_natCast, if_neg (by omega), fetch]
      have hlow : levelBase (some ((a - 518) / 512)) ≤ a := by
        rw [levelBase]
        omega
      have hhigh : a < levelBase (some ((a - 518) / 512)) + 512 := by
        rw [levelBase]
        omega
      split_ifs with hz hfull
      · exact inStep_nil
      · refine hw _ _ _ _ _ _ _ _ hlow hhigh ?_
        rw [indexBlock, ← hdouble, pointer_stored hid hk]
        exact (toNat_allocated hfull).symm
      · refine hw _ _ _ _ _ _ _ _ hlow hhigh ?_
        rw [indexBlock, ← hdouble]

theorem levelBase_spec (level : Option ℕ) : 6 ≤ levelBase level ∧ levelBase level % 512 = 6 ∧
    518 ≤ levelBase level + 512 := by
  cases level with
  | none => exact ⟨le_rfl,rfl,le_rfl⟩
  | some k =>
    rw [levelBase]
    omega

theorem LoopLog.inStep {level : Option ℕ} {st : IndirectWrite} {len id : ℕ}
    {r : Option (Bool × IndirectWrite) × List Access} {left : Option (Mem × Inode)} (h : LoopLog st r len)
    (hid : id = indexBlock m x level) (hle : id ≤ 65528) (hptrs : st.ptrs = pointersOf (blockAt m id))
    (hleft : ∀ m' x', left = some (m',x') → ∃ d st', r.1 = some (d,st') ∧
      m' = (blockStoreWrite st'.image wholeStore id (pointerBytes st'.ptrs)).2) :
    InStep Consult.Written (levelBase level + st.indirectPtrID) (r.2.map (Access.consult level id m x left)) := by
  refine inStep_accesses hid h.le h.slots (fun a ha => ?_) (fun a ha => ⟨(h.fetched a ha).2,fun m' x' hm u hu => ?_⟩)
  · rw [(h.fetched a ha).1, hptrs]
  · obtain ⟨d,st',hr,rfl⟩ := hleft m' x' hm
    have hmem : a.slot ∈ List.range' st.indirectPtrID len := h.slots ▸ List.mem_map_of_mem ha
    have hlt := (List.mem_range'_1.mp hmem).2
    have hle' := h.le
    show (pointersOf (blockAt _ id) a.slot).toNat = u
    rw [pointers_flushed hle (by omega)]
    exact h.stored d st' hr a ha u hu

theorem writeIndirect_inStep (fuel : ℕ) : TracedWriter.InStep (writeIndirectTraced fuel) := by
  induction fuel with
  | zero => exact fun level m x a off src n id _ _ _ => inStep_nil
  | succ fuel ih =>
    intro level m x a off src n id hlow hhigh hid
    obtain ⟨h6,hmod,h518⟩ := levelBase_spec level
    rw [writeIndirectTraced]
    cases hread : blockStoreRead m wholeStore id with
    | none => exact inStep_nil
    | some buffer =>
      obtain ⟨hle,rfl⟩ := blockStoreRead_some hread
      dsimp only
      rw [indirectIndex_eq hlow hhigh h6 hmod]
      by_cases ha : a < 65536
      swap
      · exact fun i c _ hi => by omega
      let st : IndirectWrite := ⟨m,pointersOf (blockAt m id),a - levelBase level,a,off,src,n,0⟩
      have hst : st.indirectPtrID = a - levelBase level := rfl
      obtain ⟨len,hlog⟩ : ∃ len, LoopLog st (writeIndirectLoopTraced 512 st) len := writeLoop_log (by omega) (by omega) ha
      have hstep : ∀ left : Option (Mem × Inode), (∀ m' x', left = some (m',x') → ∃ d st',
          (writeIndirectLoopTraced 512 st).1 = some (d,st') ∧
            m' = (blockStoreWrite st'.image wholeStore id (pointerBytes st'.ptrs)).2) →
          InStep Consult.Written a ((writeIndirectLoopTraced 512 st).2.map (Access.consult level id m x left)) := by
        intro left hleft
        have hin := hlog.inStep hid hle rfl hleft
        rwa [hst, Nat.add_sub_cancel' hlow] at hin
      cases hloop : (writeIndirectLoopTraced 512 st).1 with
      | none => exact hstep none (fun _ _ he => by cases he)
      | some r =>
        obtain ⟨done,st'⟩ := r
        have hslots := hstep (some ((blockStoreWrite st'.image wholeStore id (pointerBytes st'.ptrs)).2,x)) (by
          rintro m' x' he
          cases he
          exact ⟨done,st',hloop,rfl⟩)
        dsimp only
        split_ifs with hstop
        · exact hslots
        · refine hslots.append fun hle => ?_
          have hlen : (writeIndirectLoopTraced 512 st).2.length = len := by
            rw [← List.length_map (f := fun a : Access => a.slot), hlog.slots, List.length_range']
          rw [List.length_map, hlen] at hle ⊢
          simp only [Bool.or_eq_true, Bool.not_eq_true', decide_eq_true_eq, not_or, Bool.not_eq_false] at hstop
          rw [hstop.1] at hloop
          have hloc : st.fdLocator = a := rfl
          rcases hlog.ends st' hloop with h0 | ⟨hfull,hfd⟩
          · exact absurd h0 hstop.2
          · rw [hfd, hloc, Nat.mod_eq_of_lt (by omega)]
            exact writeDouble_inStep ih (by omega) (by omega) _ _ _

/-- What is logged for a direct slot, and that the inode then has the block that is used. -/
theorem directTargetTraced_spec (c : Fin 6) (off : ℕ) (src : Mem) (blank : ℕ) :
    (directTargetTraced m x c off src blank).2.slot = c ∧
    (directTargetTraced m x c off src blank).2.pointer = x.directPointer c ∧
    (directTargetTraced m x c off src blank).2.Fills ∧
    (∀ id block m' x', (directTargetTraced m x c off src blank).1 = some (some (id,block,m',x')) →
      (directTargetTraced m x c off src blank).2.used = some id ∧ (x'.directPointer c).toNat = id) ∧
    ((directTargetTraced m x c off src blank).1 = some none → (directTargetTraced m x c off src blank).2.used = none) := by
  have hp : (if h : c.val < 6 then x.directPointer ⟨c,h⟩ else 0) = x.directPointer c := dif_pos c.isLt
  rw [directTargetTraced, fetch, hp]
  by_cases hz : x.directPointer c = 0
  · rw [if_pos hz]
    dsimp only
    by_cases hfull : (blockStoreAllocate m wholeStore).1 = sizeMax
    · rw [if_pos hfull]
      exact ⟨rfl,rfl,((if_pos hz).trans (freshBlock_of_full hfull)).symm,fun _ _ _ _ he => (by cases he),fun _ => rfl⟩
    · rw [if_neg hfull]
      refine ⟨rfl,rfl,((if_pos hz).trans (freshBlock_of_room hfull)).symm,?_,fun he => by cases he⟩
      rintro id block m' x' he
      cases he
      refine ⟨rfl,?_⟩
      show (Function.update x.directPointer c _ c).toNat = _
      rw [Function.update_self, toNat_allocated hfull]
  · rw [if_neg hz]
    refine ⟨rfl,rfl,(if_neg hz).symm,?_,fun he => ?_⟩
    · rintro id block m' x' he
      obtain ⟨_,_,he⟩ := Option.map_eq_some_iff.mp he
      cases he
      exact ⟨rfl,rfl⟩
    · obtain ⟨_,_,he⟩ := Option.map_eq_some_iff.mp he
      cases he

theorem writeDirect_inStep (fuel : ℕ) {a : ℕ} (ha : a < 6) (m : Mem) (x : Inode) (off : ℕ) (src : Mem) (n : ℕ) :
    InStep Consult.Written a (writeDirectTraced fuel m x a off src n).2 := by
  induction fuel generalizing a m x off src n with
  | zero => exact inStep_nil
  | succ fuel ih =>
    obtain ⟨hslot,hpointer,hfills,hstored,_⟩ := directTargetTraced_spec (m := m) (x := x) ⟨a,ha⟩ off src (blankSpace off n)
    rw [writeDirectTraced, dif_pos ha]
    dsimp only
    generalize directTargetTraced m x ⟨a,ha⟩ off src (blankSpace off n) = target at hslot hpointer hfills hstored ⊢
    obtain ⟨target,access⟩ := target
    dsimp only at hslot hpointer hfills hstored ⊢
    have hright : ∀ left, Consult.Right ⟨.direct access.slot,0,m,x,access,left⟩ a := by
      intro left
      refine ⟨?_,rfl,?_⟩
      · show PtrSlot.direct access.slot = slotOf a
        rw [hslot, slotOf, if_pos ha]
      · show access.pointer = if h : access.slot < 6 then x.directPointer ⟨access.slot,h⟩ else 0
        simp only [hslot, dif_pos ha, hpointer]
    have hnone : InStep Consult.Written a [⟨.direct access.slot,0,m,x,access,none⟩] :=
      inStep_nil.cons ⟨hright none,hfills,fun _ _ he => by cases he⟩
    cases target with
    | none => exact hnone
    | some r =>
      cases r with
      | none => exact hnone
      | some r =>
        obtain ⟨blockID,block,m',x'⟩ := r
        dsimp only
        obtain ⟨hused,hblock⟩ := hstored blockID block m' x' rfl
        refine InStep.cons ⟨hright _,hfills,?_⟩ ?_
        · rintro m₁ x₁ he id hid
          cases he
          have he : blockID = id := Option.some.inj (hused.symm.trans hid)
          show (if h : access.slot < 6 then x'.directPointer ⟨access.slot,h⟩ else 0).toNat = id
          simp only [hslot, dif_pos ha]
          exact hblock.trans he
        split_ifs with h0 hnext
        · exact inStep_nil
        · exact ih hnext _ _ _ _ _
        · cases hi : indirectTarget (blockStoreWrite m' wholeStore blockID block).2 x' with
          | none => exact inStep_nil
          | some r =>
            have h5 : a = 5 := by omega
            subst h5
            exact writeIndirect_inStep indexRounds none _ _ _ _ _ _ _ (by decide) (by decide) (indirectTarget_block hi)

theorem writeFrom_inStep {a : ℕ} (ha : a < 65536) (m : Mem) (x : Inode) (off : ℕ) (src : Mem) (n : ℕ) :
    InStep Consult.Written a (writeFromTraced m x a off src n).2 := by
  rw [writeFromTraced]
  split_ifs with h6 h518
  · exact writeDirect_inStep 6 h6 m x off src n
  · cases hi : indirectTarget m x with
    | none => exact inStep_nil
    | some r =>
      have hlow : levelBase none ≤ a := Nat.not_lt.mp h6
      have hhigh : a < levelBase none + 512 := h518
      exact writeIndirect_inStep indexRounds none _ _ a _ _ _ _ hlow hhigh (indirectTarget_block hi)
  · exact writeDouble_inStep (writeIndirect_inStep indexRounds) (by omega) ha off src n

/-- Where the call returns, each slot that got a block is left with it. -/
def Keeps {α : Type} (r : Traced (Option α)) : Prop :=
  r.1 ≠ none → ∀ c ∈ r.2, c.access.used ≠ none → c.left ≠ none

theorem keeps_nil {α : Type} (r : Option α) : Keeps (r,[]) := fun _ _ hc => absurd hc List.not_mem_nil

theorem Keeps.after {cs : List Consult} {n : ℕ} {r : Traced WriteResult} (hcs : ∀ c ∈ cs, c.left ≠ none) (h : Keeps r) :
    Keeps (afterConsults cs (addSum n) r) := by
  intro hr c hc hu
  rcases List.mem_append.mp hc with hc | hc
  · exact hcs c hc
  · exact h (fun hn => hr (by rw [afterConsults_fst, hn]; rfl)) c hc hu

theorem writeDouble_keeps {w : ℕ → Mem → Inode → ℕ → ℕ → Mem → ℕ → ℕ → Traced WriteResult}
    (hw : ∀ k m x a off src n id, Keeps (w k m x a off src n id)) (m : Mem) (x : Inode) (a off : ℕ) (src : Mem) (n : ℕ) :
    Keeps (writeDoubleDirectTraced w m x a off src n) := by
  rw [writeDoubleDirectTraced]
  cases doubleTarget m x with
  | none => exact keeps_nil _
  | some r =>
    dsimp only
    cases blockStoreRead r.2.1 wholeStore r.1 with
    | none => exact keeps_nil _
    | some buffer =>
      dsimp only
      split_ifs
      · exact keeps_nil _
      · exact keeps_nil _
      · exact hw _ _ _ _ _ _ _ _
      · exact hw _ _ _ _ _ _ _ _

theorem writeIndirect_keeps (fuel : ℕ) (level : Option ℕ) (m : Mem) (x : Inode) (a off : ℕ) (src : Mem) (n id : ℕ) :
    Keeps (writeIndirectTraced fuel level m x a off src n id) := by
  induction fuel generalizing level m x a off src n id with
  | zero => exact keeps_nil _
  | succ fuel ih =>
    rw [writeIndirectTraced]
    cases blockStoreRead m wholeStore id with
    | none => exact keeps_nil _
    | some buffer =>
      dsimp only
      cases (writeIndirectLoopTraced 512 ⟨m,pointersOf buffer,indirectIndex a,a,off,src,n,0⟩).1 with
      | none => exact fun hr => absurd rfl hr
      | some r =>
        obtain ⟨done,st⟩ := r
        have hleft : ∀ c ∈ (writeIndirectLoopTraced 512 ⟨m,pointersOf buffer,indirectIndex a,a,off,src,n,0⟩).2.map
            (Access.consult level id m x (some ((blockStoreWrite st.image wholeStore id (pointerBytes st.ptrs)).2,x))),
            c.left ≠ none := by
          intro c hc
          obtain ⟨u,_,rfl⟩ := List.mem_map.mp hc
          exact Option.some_ne_none _
        dsimp only
        split_ifs
        · exact fun _ c hc _ => hleft c hc
        · exact Keeps.after hleft (writeDouble_keeps (fun k m x a off src n id => ih (some k) m x a off src n id) _ _ _ _ _ _)

theorem writeDirect_keeps (fuel : ℕ) (m : Mem) (x : Inode) (a off : ℕ) (src : Mem) (n : ℕ) :
    Keeps (writeDirectTraced fuel m x a off src n) := by
  induction fuel generalizing m x a off src n with
  | zero => exact keeps_nil _
  | succ fuel ih =>
    rw [writeDirectTraced]
    by_cases ha : a < 6
    swap
    · rw [dif_neg ha]
      exact keeps_nil _
    obtain ⟨_,_,_,_,hstops⟩ := directTargetTraced_spec (m := m) (x := x) ⟨a,ha⟩ off src (blankSpace off n)
    rw [dif_pos ha]
    dsimp only
    generalize directTargetTraced m x ⟨a,ha⟩ off src (blankSpace off n) = target at hstops ⊢
    obtain ⟨target,access⟩ := target
    dsimp only at hstops ⊢
    have hcons : ∀ {c : Consult} {r : Traced WriteResult}, c.left ≠ none → Keeps r → Keeps (before c r) := by
      intro c r hc h hr d hd hu
      rcases List.mem_cons.mp hd with rfl | hd
      · exact hc
      · exact h hr d hd hu
    cases target with
    | none => exact fun hr => absurd rfl hr
    | some r =>
      cases r with
      | none =>
        rintro _ c hc hu
        obtain rfl := List.mem_singleton.mp hc
        exact absurd (hstops rfl) hu
      | some r =>
        obtain ⟨blockID,block,m',x'⟩ := r
        dsimp only
        refine hcons (Option.some_ne_none _) ?_
        split_ifs
        · exact keeps_nil _
        · exact Keeps.after (fun _ hc => absurd hc List.not_mem_nil) (ih _ _ _ _ _ _)
        · cases indirectTarget (blockStoreWrite m' wholeStore blockID block).2 x' with
          | none => exact keeps_nil _
          | some r => exact Keeps.after (fun _ hc => absurd hc List.not_mem_nil) (writeIndirect_keeps _ _ _ _ _ _ _ _ _)

theorem writeFrom_keeps (m : Mem) (x : Inode) (a off : ℕ) (src : Mem) (n : ℕ) : Keeps (writeFromTraced m x a off src n) := by
  have hmap : ∀ r : Traced WriteResult, Keeps r → Keeps (r.1.map some,r.2) := fun r h hr =>
    h (fun hn => hr (by rw [hn]; rfl))
  rw [writeFromTraced]
  split_ifs
  · exact hmap _ (writeDirect_keeps _ _ _ _ _ _ _)
  · cases indirectTarget m x with
    | none => exact keeps_nil _
    | some r => exact hmap _ (writeIndirect_keeps _ _ _ _ _ _ _ _ _)
  · exact hmap _ (writeDouble_keeps (fun k => writeIndirect_keeps indexRounds (some k)) _ _ _ _ _ _)

end Writers

section Readers
variable {m : Mem} {x : Inode}

theorem readLoop_log (ptrs : ℕ → UInt16) {fuel : ℕ} {st : IndirectRead}
    (hfuel : 512 ≤ fuel + st.indirectPtrID) (hj : st.indirectPtrID ≤ 512) (hfd : st.fdLocator < 65536) :
    ∃ len, st.indirectPtrID + len ≤ 512 ∧
      (readIndirectLoopTraced m ptrs fuel st).2.map (fun a => a.slot) = List.range' st.indirectPtrID len ∧
      (∀ a ∈ (readIndirectLoopTraced m ptrs fuel st).2, a.pointer = ptrs a.slot ∧ a.Reads) ∧
      ∀ st', (readIndirectLoopTraced m ptrs fuel st).1 = some (true,st') →
        st'.nbyte = 0 ∨ st.indirectPtrID + len = 512 ∧ st'.fdLocator = (st.fdLocator + len) % 65536 := by
  induction fuel generalizing st with
  | zero =>
    refine ⟨0,hj,rfl,fun _ ha => absurd ha List.not_mem_nil,fun st' he => Or.inr ⟨by omega,?_⟩⟩
    cases he
    exact (Nat.mod_eq_of_lt hfd).symm
  | succ fuel ih =>
    rw [readIndirectLoopTraced]
    by_cases hgo : st.indirectPtrID < 512 ∧ st.nbyte > 0
    · rw [if_pos hgo]
      dsimp only [fetch]
      by_cases hz : ptrs st.indirectPtrID = 0
      · rw [if_pos hz]
        refine ⟨1,by omega,rfl,fun a ha => ?_,fun st' he => by cases he⟩
        obtain rfl := List.mem_singleton.mp ha
        exact ⟨rfl,(if_pos hz).symm⟩
      · rw [if_neg hz]
        cases (blockStoreRead m wholeStore (ptrs st.indirectPtrID).toNat).bind
            (fun block => memcpyFrom block st.fdOffset (blankSpace st.fdOffset st.nbyte)) with
        | none =>
          refine ⟨1,by omega,rfl,fun a ha => ?_,fun st' he => by cases he⟩
          obtain rfl := List.mem_singleton.mp ha
          exact ⟨rfl,(if_neg hz).symm⟩
        | some bytes =>
          dsimp only
          set next : IndirectRead := { indirectPtrID := st.indirectPtrID + 1
                                       fdLocator := (st.fdLocator + 1) % 65536
                                       fdOffset := 0
                                       nbyte := st.nbyte - blankSpace st.fdOffset st.nbyte
                                       bytes := st.bytes ++ bytes } with hnext
          have hid : next.indirectPtrID = st.indirectPtrID + 1 := rfl
          have hloc : next.fdLocator = (st.fdLocator + 1) % 65536 := rfl
          obtain ⟨len,hlen,hslots,hreads,hend⟩ := ih (show 512 ≤ fuel + next.indirectPtrID by omega) (by omega) (by omega)
          refine ⟨len + 1,by omega,?_,fun a ha => ?_,fun st' he => ?_⟩
          · show st.indirectPtrID :: _ = _
            rw [hslots, hid, List.range'_succ]
          · rcases List.mem_cons.mp ha with rfl | ha
            · exact ⟨rfl,(if_neg hz).symm⟩
            · exact hreads a ha
          · rcases hend st' he with h0 | ⟨hfull,hfd'⟩
            · exact Or.inl h0
            · exact Or.inr ⟨by omega,by omega⟩
    · rw [if_neg hgo]
      refine ⟨0,hj,rfl,fun _ ha => absurd ha List.not_mem_nil,fun st' he => ?_⟩
      cases he
      rcases Nat.eq_zero_or_pos st.nbyte with h0 | hpos
      · exact Or.inl h0
      · exact Or.inr ⟨by omega,(Nat.mod_eq_of_lt hfd).symm⟩

/-- A reader of the blocks below an index block looks up their slots. -/
def TracedReader.InStep (m : Mem) (x : Inode) (r : TracedReader) : Prop := ∀ level a off n id, levelBase level ≤ a →
  a < levelBase level + 512 → id = indexBlock m x level → LiteOSFS.InStep (Consult.ReadOn m x) a (r level a off n id).2

theorem readDouble_inStep {r : TracedReader} (hr : r.InStep m x) {a : ℕ} (ha : 518 ≤ a) (hlt : a < 65536)
    (off n : ℕ) : InStep (Consult.ReadOn m x) a (readDoubleDirectTraced (fun k => r (some k)) m x a off n).2 := by
  rw [readDoubleDirectTraced]
  by_cases hzero : x.doubleIndirectPointer = 0
  · rw [if_pos hzero]
    exact inStep_nil
  rw [if_neg hzero]
  cases hread : blockStoreRead m wholeStore x.doubleIndirectPointer.toNat with
  | none => exact inStep_nil
  | some buffer =>
    obtain ⟨hid,rfl⟩ := blockStoreRead_some hread
    have hlow : levelBase (some ((a - 518) / 512)) ≤ a := by
      rw [levelBase]
      omega
    have hhigh : a < levelBase (some ((a - 518) / 512)) + 512 := by
      rw [levelBase]
      omega
    dsimp only
    rw [doubleIndex_eq ha, Int.toNat_natCast, if_neg (by omega), fetch]
    split_ifs with hz
    · exact inStep_nil
    · exact hr _ _ _ _ _ hlow hhigh rfl

theorem readIndirect_inStep (fuel : ℕ) : TracedReader.InStep m x (readIndirectTraced m x fuel) := by
  induction fuel with
  | zero => exact fun level a off n id _ _ _ => inStep_nil
  | succ fuel ih =>
    intro level a off n id hlow hhigh hid
    obtain ⟨h6,hmod,h518⟩ := levelBase_spec level
    rw [readIndirectTraced]
    by_cases hzero : id = 0
    · rw [if_pos hzero]
      exact inStep_nil
    rw [if_neg hzero]
    cases hread : blockStoreRead m wholeStore id with
    | none => exact inStep_nil
    | some buffer =>
      obtain ⟨_,rfl⟩ := blockStoreRead_some hread
      dsimp only
      rw [indirectIndex_eq hlow hhigh h6 hmod]
      by_cases ha : a < 65536
      swap
      · exact fun i c _ hi => by omega
      let st : IndirectRead := ⟨a - levelBase level,a,off,n,[]⟩
      have hst : st.indirectPtrID = a - levelBase level := rfl
      obtain ⟨len,hlen,hlog,hreads,hend⟩ := readLoop_log (m := m) (pointersOf (blockAt m id))
        (show 512 ≤ 512 + st.indirectPtrID by omega) (by omega) ha
      have hslots : InStep (Consult.ReadOn m x) (levelBase level + st.indirectPtrID)
          ((readIndirectLoopTraced m (pointersOf (blockAt m id)) 512 st).2.map (Access.consult level id m x none)) :=
        inStep_accesses hid hlen hlog (fun u hu => (hreads u hu).1) (fun u hu => ⟨rfl,rfl,(hreads u hu).2⟩)
      rw [hst, Nat.add_sub_cancel' hlow] at hslots
      cases hloop : (readIndirectLoopTraced m (pointersOf (blockAt m id)) 512 st).1 with
      | none => exact hslots
      | some r =>
        obtain ⟨done,st'⟩ := r
        dsimp only
        split_ifs with hstop
        · exact hslots
        · refine hslots.append fun hle => ?_
          have hcount : (readIndirectLoopTraced m (pointersOf (blockAt m id)) 512 st).2.length = len := by
            rw [← List.length_map (f := fun a : Access => a.slot), hlog, List.length_range']
          rw [List.length_map, hcount] at hle ⊢
          simp only [Bool.or_eq_true, Bool.not_eq_true', decide_eq_true_eq, not_or, Bool.not_eq_false] at hstop
          rw [hstop.1] at hloop
          have hloc : st.fdLocator = a := rfl
          rcases hend st' hloop with h0 | ⟨hfull,hfd⟩
          · exact absurd h0 hstop.2
          · rw [hfd, hloc, Nat.mod_eq_of_lt (by omega)]
            exact readDouble_inStep ih (by omega) (by omega) _ _

theorem readDirect_inStep (fuel : ℕ) {a : ℕ} (ha : a < 6) (off n : ℕ) :
    InStep (Consult.ReadOn m x) a (readDirectTraced m x fuel a off n).2 := by
  induction fuel generalizing a off n with
  | zero => exact inStep_nil
  | succ fuel ih =>
    have hright : ∀ used, Consult.Right ⟨.direct a,0,m,x,⟨⟨x.directPointer ⟨a,ha⟩,a⟩,m,used⟩,none⟩ a := by
      intro used
      refine ⟨(if_pos ha).symm,rfl,?_⟩
      show x.directPointer ⟨a,ha⟩ = if h : a < 6 then x.directPointer ⟨a,h⟩ else 0
      rw [dif_pos ha]
    rw [readDirectTraced, if_pos ha]
    simp only [fetch, dif_pos ha]
    by_cases hz : (x.directPointer ⟨a,ha⟩).toNat = 0
    · rw [if_pos hz]
      have hp : x.directPointer ⟨a,ha⟩ = 0 := UInt16.toNat_inj.mp hz
      exact inStep_nil.cons ⟨hright none,rfl,rfl,(if_pos hp).symm⟩
    · rw [if_neg hz]
      have hp : x.directPointer ⟨a,ha⟩ ≠ 0 := fun hp => hz (by rw [hp]; rfl)
      refine InStep.cons ⟨hright _,rfl,rfl,(if_neg hp).symm⟩ ?_
      cases (blockStoreRead m wholeStore (x.directPointer ⟨a,ha⟩).toNat).bind
          (fun block => memcpyFrom block off (blankSpace off n)) with
      | none => exact inStep_nil
      | some bytes =>
        dsimp only
        split_ifs with h0 hnext
        · exact inStep_nil
        · exact ih hnext _ _
        · have h5 : a = 5 := by omega
          subst h5
          exact readIndirect_inStep indexRounds none _ _ _ _ (by decide) (by decide) rfl

theorem readFrom_inStep {a : ℕ} (ha : a < 65536) (m : Mem) (x : Inode) (off n : ℕ) :
    InStep (Consult.ReadOn m x) a (readFromTraced m x a off n).2 := by
  rw [readFromTraced]
  split_ifs with h6 h518
  · exact readDirect_inStep 6 h6 off n
  · exact readIndirect_inStep indexRounds none a _ _ _ (Nat.not_lt.mp h6) h518 rfl
  · exact readDouble_inStep (readIndirect_inStep indexRounds) (by omega) ha off n

end Readers

/-- Where a slot lies: in the inode, or in a block. -/
def PtrSlot.position (m : Mem) (x : Inode) : PtrSlot → Option ℕ × ℕ
  | .direct c => (none,c)
  | .index level j => (some (indexBlock m x level),j)

/-- The index blocks that there are, and that locators reach, are pairwise distinct. -/
def IndexDistinct (m : Mem) (x : Inode) : Prop := ∀ p q : Option ℕ, (∀ k ∈ p, k < 127) → (∀ k ∈ q, k < 127) →
  indexBlock m x p ≠ 0 → indexBlock m x p = indexBlock m x q → p = q

theorem slotOf_inj {b b' : ℕ} (h : slotOf b = slotOf b') : b = b' := by
  unfold slotOf at h
  split_ifs at h
  · exact PtrSlot.direct.inj h
  · have hj := (PtrSlot.index.inj h).2
    omega
  · exact absurd (PtrSlot.index.inj h).1 (by simp)
  · exact absurd (PtrSlot.index.inj h).1 (by simp)
  · obtain ⟨hk,hj⟩ := PtrSlot.index.inj h
    have hk' := Option.some.inj hk
    omega

theorem slotOf_position_inj {m : Mem} {x : Inode} (hd : IndexDistinct m x) {b b' : ℕ} (hb : b ≤ 65535)
    (hb' : b' ≤ 65535) (hheld : 6 ≤ b → (slotOf b).holder m x ≠ 0)
    (h : (slotOf b).position m x = (slotOf b').position m x) : b = b' := by
  have hlevel : ∀ c ≤ 65535, ∀ level j, slotOf c = .index level j → 6 ≤ c ∧ ∀ k ∈ level, k < 127 := by
    intro c hc level j hs
    unfold slotOf at hs
    split_ifs at hs
    · cases hs
      exact ⟨by omega,fun k hk => by cases hk⟩
    · cases hs
      refine ⟨by omega,fun k hk => ?_⟩
      cases hk
      omega
  refine slotOf_inj ?_
  cases hs : slotOf b with
  | direct c =>
    cases hs' : slotOf b' with
    | direct c' =>
      rw [hs, hs'] at h
      exact congrArg PtrSlot.direct (Prod.mk.inj h).2
    | index level j =>
      rw [hs, hs'] at h
      cases (Prod.mk.inj h).1
  | index level j =>
    cases hs' : slotOf b' with
    | direct c' =>
      rw [hs, hs'] at h
      cases (Prod.mk.inj h).1
    | index level' j' =>
      rw [hs, hs'] at h
      obtain ⟨h6,hk⟩ := hlevel b hb level j hs
      obtain ⟨_,hk'⟩ := hlevel b' hb' level' j' hs'
      have hne := hheld h6
      rw [hs] at hne
      obtain ⟨hblock,hj⟩ := Prod.mk.inj h
      rw [hd level level' hk hk' hne (Option.some.inj hblock), hj]

/-- The lookup of a writer from `a` and that of a reader from `a'` for one block are at one slot, whatever the
images. What they fetch is the entry there, the block that they use is the one fetched, or for the writer a fresh one
that it leaves in the slot; they come to the same index block and entry where the reader has the image that the writer
found the block in, and to the block that the writer used where the reader has the image that it left; different
blocks have different slots; and every block of which bytes are written or read has its lookup. -/
theorem block_map_shared {a a' b : ℕ} (ha : a ≤ b) (ha' : a' ≤ b) (hb : b ≤ 65535) (m : Mem) (x : Inode) :
    (∀ off src n, (writeFromTraced m x a off src n).1 = writeFrom m x a off src n) ∧
    (∀ off n, (readFromTraced m x a' off n).1 = readFrom m x a' off n) ∧
    (∀ off n r, (readFromTraced m x a' off n).2[b - a']? = some r → r.Right b ∧ r.ReadOn m x) ∧
    (∀ off src n w, (writeFromTraced m x a off src n).2[b - a]? = some w → w.Right b ∧ w.Written ∧
      (writeFrom m x a off src n ≠ none → w.access.used ≠ none → w.left ≠ none) ∧
      (∀ off' n' r, (readFromTraced w.image w.inode a' off' n').2[b - a']? = some r →
        r.slot = w.slot ∧ r.block = w.block ∧ r.access.pointer = w.access.pointer) ∧
      ∀ m' x', w.left = some (m',x') → ∀ off' n' r, (readFromTraced m' x' a' off' n').2[b - a']? = some r →
        r.block = w.block → ∀ id, w.access.used = some id → r.access.pointer.toNat = id) ∧
    (IndexDistinct m x → (6 ≤ b → (slotOf b).holder m x ≠ 0) → ∀ b' ≤ 65535, b' ≠ b →
      (slotOf b').position m x ≠ (slotOf b).position m x) ∧
    (∀ off src n, off ≤ 1024 → n < 2 ^ 64 → ∀ k < wroteFrom (writeFrom m x a off src n), a + (off + k) / 1024 = b →
      ((writeFromTraced m x a off src n).2[b - a]?).isSome = true) ∧
    ∀ off n, off ≤ 1024 → n < 2 ^ 64 → ∀ k < took (readFrom m x a' off n), a' + (off + k) / 1024 = b →
      ((readFromTraced m x a' off n).2[b - a']?).isSome = true := by
  have hread : ∀ (m : Mem) (x : Inode) off n r, (readFromTraced m x a' off n).2[b - a']? = some r →
      r.Right b ∧ r.ReadOn m x := by
    intro m x off n r hr
    have h := readFrom_inStep (show a' < 65536 by omega) m x off n (b - a') r hr (by omega)
    rwa [Nat.add_sub_cancel' ha'] at h
  refine ⟨fun off src n => writeFromTraced_fst m x a off src n,fun off n => readFromTraced_fst m x a' off n,
    hread m x,fun off src n w hw => ?_,fun hd hheld b' hb' hne he => ?_,fun off src n hoff hn k hk hlies => ?_,
    fun off n hoff hn k hk hlies => ?_⟩
  · have h := writeFrom_inStep (show a < 65536 by omega) m x off src n (b - a) w hw (by omega)
    rw [Nat.add_sub_cancel' ha] at h
    obtain ⟨hright,hwritten⟩ := h
    refine ⟨hright,hwritten,fun hret hu => ?_,fun off' n' r hr => ?_,fun m' x' hleft off' n' r hr hblock id hid => ?_⟩
    · rw [← writeFromTraced_fst] at hret
      exact writeFrom_keeps m x a off src n hret w (List.mem_of_getElem? hw) hu
    · obtain ⟨⟨hslot,hblock,hentry⟩,him,hin,_⟩ := hread w.image w.inode off' n' r hr
      have hsame : r.slot = w.slot := hslot.trans hright.slot.symm
      have hheld : r.block = w.block := by rw [hblock, him, hin, hsame, hright.block]
      exact ⟨hsame,hheld,by rw [hentry, him, hin, hsame, hheld, hright.entry]⟩
    · obtain ⟨⟨hslot,_,hentry⟩,him,hin,_⟩ := hread m' x' off' n' r hr
      rw [hentry, him, hin, hslot.trans hright.slot.symm, hblock]
      exact hwritten.kept m' x' hleft id hid
  · exact hne (slotOf_position_inj hd hb hb' hheld he.symm).symm
  · rw [← hlies, Nat.add_sub_cancel_left]
    exact (writeFrom_looked m x a src hoff hn).isSome hk
  · rw [← hlies, Nat.add_sub_cancel_left]
    exact (readFrom_looked m x a' hoff hn).isSome hk

/-- A write over the end of the direct blocks, and a read behind them of what it left. -/
theorem block_map_shared_six : ∃ w r m x, (writeFromTraced fsFormat.image Inode.cleared 5 0 zeros 1025).2[1]? = some w ∧
    w.left = some (m,x) ∧ (readFromTraced m x 6 0 1).2[0]? = some r ∧ w.slot = .index none 0 ∧ w.access.pointer = 0 ∧
    w.access.used = some 19 ∧ r.slot = .index none 0 ∧ r.access.pointer.toNat = 19 := by
  have hrun : ((writeFromTraced fsFormat.image Inode.cleared 5 0 zeros 1025).2[1]?.bind fun w => w.left.bind fun left =>
      (readFromTraced left.1 left.2 6 0 1).2[0]?.map fun r => decide (w.access.pointer = 0 ∧ w.access.used = some 19 ∧
        r.block = w.block)) = some true := by decide +kernel
  obtain ⟨w,hw,hrun⟩ := Option.bind_eq_some_iff.mp hrun
  obtain ⟨⟨m,x⟩,hleft,hrun⟩ := Option.bind_eq_some_iff.mp hrun
  obtain ⟨r,hr,hrun⟩ := Option.map_eq_some_iff.mp hrun
  obtain ⟨hp,hu,hblock⟩ := of_decide_eq_true hrun
  have hmap := fun m x => block_map_shared (show 5 ≤ 6 by omega) (le_refl 6) (by omega) m x
  obtain ⟨hright,_,_,_,hback⟩ := (hmap fsFormat.image Inode.cleared).2.2.2.1 0 zeros 1025 w hw
  obtain ⟨hread,_⟩ := (hmap m x).2.2.1 0 1 r hr
  exact ⟨w,r,m,x,hw,hleft,hr,hright.slot,hp,hu,hread.slot,hback m x hleft 0 1 r hr hblock 19 hu⟩

end LiteOSFS
