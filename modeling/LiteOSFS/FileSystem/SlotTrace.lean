import LiteOSFS.FileSystem.WriteLevels
import LiteOSFS.FileSystem.Read

/-! # The pointer slots that the readers and writers consult

The readers and the writers once more, each with the list of the pointer slots that it
looks up: the `i`-th is the one for the `i`-th block from the start on. Without the
lists they are the readers and writers. A pointer is fetched together with the number of
its slot, and the list has what was fetched and the block that was used for it. It names
the slot of an index block by the level at which the code came to the block.
-/
namespace LiteOSFS
open Memory

/-- A slot of the inode, or slot `j` of its indirect block (`none`) or of second-level block `k`. -/
inductive PtrSlot where
  | direct (c : ℕ)
  | index (level : Option ℕ) (j : ℕ)
  deriving DecidableEq

/-- The number of an index block, as the inode or the double-indirect block has it. -/
def indexBlock (m : Mem) (x : Inode) : Option ℕ → ℕ
  | none => x.indirectPointer.toNat
  | some k => (pointersOf (blockAt m x.doubleIndirectPointer.toNat) k).toNat

/-- The index block that a slot lies in. -/
def PtrSlot.holder (m : Mem) (x : Inode) : PtrSlot → ℕ
  | .direct _ => 0
  | .index level _ => indexBlock m x level

/-- The pointer in a slot of the inode or of the given index block. -/
def PtrSlot.entry (m : Mem) (x : Inode) (block : ℕ) : PtrSlot → UInt16
  | .direct c => if h : c < 6 then x.directPointer ⟨c,h⟩ else 0
  | .index _ j => pointersOf (blockAt m block) j

/-- A pointer with the number of the slot that it is taken from. -/
structure Fetched where
  pointer : UInt16
  slot : ℕ

def fetch (ptrs : ℕ → UInt16) (j : ℕ) : Fetched := ⟨ptrs j,j⟩

/-- What was fetched, the image at that time, and the block that was read or written for it. -/
structure Access extends Fetched where
  before : Mem
  used : Option ℕ

/-- An access, with the slot and the index block that the code has for it, the image and the inode as they
were when it came to this block, and what it left when it was done with the slot. -/
structure Consult where
  slot : PtrSlot
  block : ℕ
  image : Mem
  inode : Inode
  access : Access
  left : Option (Mem × Inode)

/-- An access to an index block. -/
def Access.consult (level : Option ℕ) (block : ℕ) (m : Mem) (x : Inode) (left : Option (Mem × Inode)) (a : Access) : Consult :=
  ⟨.index level a.slot,block,m,x,a,left⟩

abbrev Traced (α : Type) := α × List Consult

/-- An access or a lookup in front of the rest. -/
def before {α β : Type} (c : β) (r : α × List β) : α × List β := (r.1,c :: r.2)

/-- The rest after the lookups made so far. -/
def afterConsults {α : Type} (cs : List Consult) (f : α → α) (r : Traced α) : Traced α := (f r.1,cs ++ r.2)

section Writers

def directTargetTraced (m : Mem) (inode : Inode) (fdLocator : Fin 6) (fdOffset : ℕ) (src : Mem) (blank : ℕ) :
    Option (Option (ℕ × Mem × Mem × Inode)) × Access :=
  let p := fetch (fun c => if h : c < 6 then inode.directPointer ⟨c,h⟩ else 0) fdLocator
  if p.pointer = 0 then
    let block := blockStoreAllocate m wholeStore
    if block.1 = sizeMax then (some none,⟨p,m,none⟩)
    else (some (some (block.1,copyIn zeros 0 1024 src,block.2,{ inode with
      directPointer := Function.update inode.directPointer fdLocator (UInt16.ofNat block.1) })),⟨p,m,some block.1⟩)
  else
    let blockID := p.pointer.toNat
    let current := (blockStoreRead m wholeStore blockID).getD zeros
    ((memcpyInto current fdOffset src blank).map (fun current => some (blockID,current,m,inode)),⟨p,m,some blockID⟩)

def slotTargetTraced (st : IndirectWrite) : Option (ℕ × Mem × (ℕ → UInt16)) × Access :=
  let p := fetch st.ptrs st.indirectPtrID
  if p.pointer = 0 then
    let block := blockStoreAllocate st.image wholeStore
    if block.1 = sizeMax then (none,⟨p,st.image,none⟩)
    else (some (block.1,block.2,Function.update st.ptrs p.slot (UInt16.ofNat block.1)),⟨p,st.image,some block.1⟩)
  else (some (p.pointer.toNat,st.image,st.ptrs),⟨p,st.image,some p.pointer.toNat⟩)

def writeIndirectLoopTraced : (fuel : ℕ) → IndirectWrite → Option (Bool × IndirectWrite) × List Access
  | 0, st => (some (true,st),[])
  | fuel + 1, st =>
    if st.indirectPtrID < 512 ∧ st.nbyte > 0 then
      let target := slotTargetTraced st
      before target.2 <| match target.1 with
        | none => (some (false,st),[])
        | some (blockID,image,ptrs) =>
          let blank := blankSpace st.fdOffset st.nbyte
          match memcpyInto ((blockStoreRead image wholeStore blockID).getD zeros) st.fdOffset st.src blank with
          | none => (none,[])
          | some block =>
            writeIndirectLoopTraced fuel
              { image := (blockStoreWrite image wholeStore blockID block).2
                ptrs := ptrs
                indirectPtrID := st.indirectPtrID + 1
                fdLocator := (st.fdLocator + 1) % 65536
                fdOffset := 0
                src := shift st.src blank
                nbyte := st.nbyte - blank
                sum := st.sum + blank }
    else (some (true,st),[])

/-- The writer below is told the slot that its second-level block was fetched from. -/
def writeDoubleDirectTraced (writeIndirect : ℕ → Mem → Inode → ℕ → ℕ → Mem → ℕ → ℕ → Traced WriteResult)
    (m : Mem) (inode : Inode) (fdLocator fdOffset : ℕ) (src : Mem) (nbyte : ℕ) : Traced WriteResult :=
  match doubleTarget m inode with
  | none => (some (0,m,inode),[])
  | some (doubleID,m,inode) =>
    match blockStoreRead m wholeStore doubleID with
    | none => (none,[])
    | some buffer =>
      let ptrs := pointersOf buffer
      let index := doubleIndex fdLocator
      if index < 0 ∨ index ≥ 512 then (none,[])
      else
        let p := fetch ptrs index.toNat
        if p.pointer = 0 then
          let block := blockStoreAllocate m wholeStore
          if block.1 = sizeMax then (some (0,m,inode),[])
          else
            let ptrs := Function.update ptrs p.slot (UInt16.ofNat block.1)
            let m := (blockStoreWrite block.2 wholeStore doubleID (pointerBytes ptrs)).2
            writeIndirect p.slot m inode fdLocator fdOffset src nbyte block.1
        else writeIndirect p.slot m inode fdLocator fdOffset src nbyte p.pointer.toNat

def writeIndirectTraced : (fuel : ℕ) → (level : Option ℕ) → Mem → Inode → (fdLocator fdOffset : ℕ) →
    (src : Mem) → (nbyte indirectBlockID : ℕ) → Traced WriteResult
  | 0, _, _, _, _, _, _, _, _ => (none,[])
  | fuel + 1, level, m, inode, fdLocator, fdOffset, src, nbyte, indirectBlockID =>
    match blockStoreRead m wholeStore indirectBlockID with
    | none => (if nbyte = 0 then some (0,m,inode) else none,[])
    | some buffer =>
      let loop := writeIndirectLoopTraced 512
        ⟨m,pointersOf buffer,indirectIndex fdLocator,fdLocator,fdOffset,src,nbyte,0⟩
      match loop.1 with
      | none => (none,loop.2.map (Access.consult level indirectBlockID m inode none))
      | some (done,st) =>
        let stored := (blockStoreWrite st.image wholeStore indirectBlockID (pointerBytes st.ptrs)).2
        let cs := loop.2.map (Access.consult level indirectBlockID m inode (some (stored,inode)))
        if !done || st.nbyte = 0 then (some (st.sum,stored,inode),cs)
        else afterConsults cs (addSum st.sum) (writeDoubleDirectTraced
          (fun k => writeIndirectTraced fuel (some k)) stored inode st.fdLocator st.fdOffset st.src st.nbyte)

def writeDirectTraced : (fuel : ℕ) → Mem → Inode → (fdLocator fdOffset : ℕ) → (src : Mem) → (nbyte : ℕ) →
    Traced WriteResult
  | 0, _, _, _, _, _, _ => (none,[])
  | fuel + 1, m, inode, fdLocator, fdOffset, src, nbyte =>
    if h : fdLocator < 6 then
      let blank := blankSpace fdOffset nbyte
      let target := directTargetTraced m inode ⟨fdLocator,h⟩ fdOffset src blank
      let consult := fun left => Consult.mk (.direct target.2.slot) 0 m inode target.2 left
      match target.1 with
      | none => (none,[consult none])
      | some none => (some (0,m,inode),[consult none])
      | some (some (blockID,block,m,inode)) =>
        let m := (blockStoreWrite m wholeStore blockID block).2
        before (consult (some (m,inode))) <|
          let nbyte := nbyte - blank
          if nbyte = 0 then (some (blank,m,inode),[])
          else if fdLocator + 1 < 6 then
            afterConsults [] (addSum blank) (writeDirectTraced fuel m inode (fdLocator + 1) 0 (shift src blank) nbyte)
          else match indirectTarget m inode with
            | none => (some (0,m,inode),[])
            | some (indirectID,m,inode) => afterConsults [] (addSum blank)
                (writeIndirectTraced indexRounds none m inode (fdLocator + 1) 0 (shift src blank) nbyte indirectID)
    else (none,[])

def writeFromTraced (m : Mem) (inode : Inode) (fdLocator fdOffset : ℕ) (src : Mem) (nbyte : ℕ) :
    Traced (Option (Option (ℕ × Mem × Inode))) :=
  if fdLocator < 6 then
    let r := writeDirectTraced 6 m inode fdLocator fdOffset src nbyte
    (r.1.map some,r.2)
  else if fdLocator < 518 then
    match indirectTarget m inode with
    | none => (some none,[])
    | some (indirectID,m,inode) =>
      let r := writeIndirectTraced indexRounds none m inode fdLocator fdOffset src nbyte indirectID
      (r.1.map some,r.2)
  else
    let r := writeDoubleDirectTraced (fun k => writeIndirectTraced indexRounds (some k)) m inode fdLocator fdOffset
      src nbyte
    (r.1.map some,r.2)

end Writers

section Readers

def readIndirectLoopTraced (m : Mem) (ptrs : ℕ → UInt16) : (fuel : ℕ) → IndirectRead →
    Option (Bool × IndirectRead) × List Access
  | 0, st => (some (true,st),[])
  | fuel + 1, st =>
    if st.indirectPtrID < 512 ∧ st.nbyte > 0 then
      let p := fetch ptrs st.indirectPtrID
      if p.pointer = 0 then (some (false,st),[⟨p,m,none⟩])
      else
        let blockID := p.pointer.toNat
        let blank := blankSpace st.fdOffset st.nbyte
        before ⟨p,m,some blockID⟩ <|
          match (blockStoreRead m wholeStore blockID).bind (fun block => memcpyFrom block st.fdOffset blank) with
          | none => (none,[])
          | some bytes =>
            readIndirectLoopTraced m ptrs fuel
              { indirectPtrID := st.indirectPtrID + 1
                fdLocator := (st.fdLocator + 1) % 65536
                fdOffset := 0
                nbyte := st.nbyte - blank
                bytes := st.bytes ++ bytes }
    else (some (true,st),[])

def readDoubleDirectTraced (readIndirect : ℕ → ℕ → ℕ → ℕ → ℕ → Traced ReadResult) (m : Mem) (inode : Inode)
    (fdLocator fdOffset nbyte : ℕ) : Traced ReadResult :=
  if inode.doubleIndirectPointer = 0 then (some [],[])
  else match blockStoreRead m wholeStore inode.doubleIndirectPointer.toNat with
    | none => (none,[])
    | some buffer =>
      let ptrs := pointersOf buffer
      let index := doubleIndex fdLocator
      if index < 0 ∨ index ≥ 512 then (none,[])
      else
        let p := fetch ptrs index.toNat
        if p.pointer = 0 then (some [],[])
        else readIndirect p.slot fdLocator fdOffset nbyte p.pointer.toNat

def readIndirectTraced (m : Mem) (inode : Inode) : (fuel : ℕ) → (level : Option ℕ) →
    (fdLocator fdOffset nbyte indirectBlockID : ℕ) → Traced ReadResult
  | 0, _, _, _, _, _ => (none,[])
  | fuel + 1, level, fdLocator, fdOffset, nbyte, indirectBlockID =>
    if indirectBlockID = 0 then (some [],[])
    else match blockStoreRead m wholeStore indirectBlockID with
      | none => (if nbyte = 0 then some [] else none,[])
      | some buffer =>
        let loop := readIndirectLoopTraced m (pointersOf buffer) 512 ⟨indirectIndex fdLocator,fdLocator,fdOffset,nbyte,[]⟩
        let cs := loop.2.map (Access.consult level indirectBlockID m inode none)
        match loop.1 with
        | none => (none,cs)
        | some (done,st) =>
          if !done || st.nbyte = 0 then (some st.bytes,cs)
          else afterConsults cs (addBytes st.bytes) (readDoubleDirectTraced
            (fun k => readIndirectTraced m inode fuel (some k)) m inode st.fdLocator st.fdOffset st.nbyte)

def readDirectTraced (m : Mem) (inode : Inode) : (fuel fdLocator fdOffset nbyte : ℕ) → Traced ReadResult
  | 0, _, _, _ => (none,[])
  | fuel + 1, fdLocator, fdOffset, nbyte =>
    if fdLocator < 6 then
      let p := fetch (fun c => if h : c < 6 then inode.directPointer ⟨c,h⟩ else 0) fdLocator
      let blockID := p.pointer.toNat
      if blockID = 0 then (some [],[⟨.direct p.slot,0,m,inode,⟨p,m,none⟩,none⟩])
      else before ⟨.direct p.slot,0,m,inode,⟨p,m,some blockID⟩,none⟩ <|
        let blank := blankSpace fdOffset nbyte
        match (blockStoreRead m wholeStore blockID).bind (fun block => memcpyFrom block fdOffset blank) with
        | none => (none,[])
        | some bytes =>
          let nbyte := nbyte - blank
          if nbyte = 0 then (some bytes,[])
          else if fdLocator + 1 < 6 then
            afterConsults [] (addBytes bytes) (readDirectTraced m inode fuel (fdLocator + 1) 0 nbyte)
          else afterConsults [] (addBytes bytes)
            (readIndirectTraced m inode indexRounds none (fdLocator + 1) 0 nbyte inode.indirectPointer.toNat)
    else (none,[])

def readFromTraced (m : Mem) (inode : Inode) (fdLocator fdOffset nbyte : ℕ) : Traced ReadResult :=
  if fdLocator < 6 then readDirectTraced m inode 6 fdLocator fdOffset nbyte
  else if fdLocator < 518 then
    readIndirectTraced m inode indexRounds none fdLocator fdOffset nbyte inode.indirectPointer.toNat
  else readDoubleDirectTraced (fun k => readIndirectTraced m inode indexRounds (some k)) m inode fdLocator fdOffset
    nbyte

end Readers

section Forget
variable {m : Mem} {x : Inode} {level : Option ℕ}

@[simp] theorem before_fst {α β : Type} (c : β) (r : α × List β) : (before c r).1 = r.1 := rfl

@[simp] theorem afterConsults_fst {α : Type} (cs : List Consult) (f : α → α) (r : Traced α) :
    (afterConsults cs f r).1 = f r.1 := rfl

theorem slotTargetTraced_fst (st : IndirectWrite) : (slotTargetTraced st).1 = slotTarget st := by
  by_cases hz : st.ptrs st.indirectPtrID = 0
  · rw [slotTargetTraced, slotTarget, fetch, if_pos hz, if_pos hz]
    dsimp only
    split_ifs <;> rfl
  · rw [slotTargetTraced, slotTarget, fetch, if_neg hz, if_neg hz]

theorem directTargetTraced_fst (c : Fin 6) (fdOffset : ℕ) (src : Mem) (blank : ℕ) :
    (directTargetTraced m x c fdOffset src blank).1 = directTarget m x c fdOffset src blank := by
  have hp : (if h : c.val < 6 then x.directPointer ⟨c,h⟩ else 0) = x.directPointer c := dif_pos c.isLt
  by_cases hz : x.directPointer c = 0
  · rw [directTargetTraced, directTarget, fetch, hp, if_pos hz, if_pos hz]
    dsimp only
    split_ifs <;> rfl
  · rw [directTargetTraced, directTarget, fetch, hp, if_neg hz, if_neg hz]

theorem writeIndirectLoopTraced_fst (fuel : ℕ) (st : IndirectWrite) :
    (writeIndirectLoopTraced fuel st).1 = writeIndirectLoop fuel st := by
  induction fuel generalizing st with
  | zero => rfl
  | succ fuel ih =>
    rw [writeIndirectLoopTraced, writeIndirectLoop]
    split_ifs with hgo
    · dsimp only
      rw [before_fst, slotTargetTraced_fst]
      cases slotTarget st with
      | none => rfl
      | some r =>
        obtain ⟨blockID,image,ptrs⟩ := r
        dsimp only
        cases memcpyInto ((blockStoreRead image wholeStore blockID).getD zeros) st.fdOffset st.src
            (blankSpace st.fdOffset st.nbyte) with
        | none => rfl
        | some block => exact ih _
    · rfl

theorem writeDoubleDirectTraced_fst {w : ℕ → Mem → Inode → ℕ → ℕ → Mem → ℕ → ℕ → Traced WriteResult}
    {w' : Mem → Inode → ℕ → ℕ → Mem → ℕ → ℕ → WriteResult} (fdLocator fdOffset : ℕ) (src : Mem) (nbyte : ℕ)
    (hw : ∀ k m x a off src n id, (w k m x a off src n id).1 = w' m x a off src n id) :
    (writeDoubleDirectTraced w m x fdLocator fdOffset src nbyte).1 =
      writeDoubleDirectBlock w' m x fdLocator fdOffset src nbyte := by
  rw [writeDoubleDirectTraced, writeDoubleDirectBlock]
  cases doubleTarget m x with
  | none => rfl
  | some r =>
    obtain ⟨doubleID,m',x'⟩ := r
    dsimp only
    cases blockStoreRead m' wholeStore doubleID with
    | none => rfl
    | some buffer =>
      dsimp only
      by_cases hout : doubleIndex fdLocator < 0 ∨ doubleIndex fdLocator ≥ 512
      · rw [if_pos hout, if_pos hout]
      rw [if_neg hout, if_neg hout]
      by_cases hz : pointersOf buffer (doubleIndex fdLocator).toNat = 0
      · rw [fetch, if_pos hz, if_pos hz]
        split_ifs
        · rfl
        · exact hw ..
      · rw [fetch, if_neg hz, if_neg hz]
        exact hw ..

theorem writeIndirectTraced_fst (fuel : ℕ) (level : Option ℕ) (m : Mem) (x : Inode) (fdLocator fdOffset : ℕ)
    (src : Mem) (nbyte id : ℕ) : (writeIndirectTraced fuel level m x fdLocator fdOffset src nbyte id).1 =
      writeIndirectBlock fuel m x fdLocator fdOffset src nbyte id := by
  induction fuel generalizing level m x fdLocator fdOffset src nbyte id with
  | zero => rfl
  | succ fuel ih =>
    rw [writeIndirectTraced, writeIndirectBlock]
    cases blockStoreRead m wholeStore id with
    | none => rfl
    | some buffer =>
      dsimp only
      rw [writeIndirectLoopTraced_fst]
      cases writeIndirectLoop 512
          ⟨m,pointersOf buffer,indirectIndex fdLocator,fdLocator,fdOffset,src,nbyte,0⟩ with
      | none => rfl
      | some r =>
        obtain ⟨done,st⟩ := r
        dsimp only
        split_ifs
        · rfl
        · rw [afterConsults_fst, writeDoubleDirectTraced_fst]
          exact fun k m x a off src n id => ih (some k) m x a off src n id

theorem writeDirectTraced_fst (fuel : ℕ) (m : Mem) (x : Inode) (fdLocator fdOffset : ℕ) (src : Mem) (nbyte : ℕ) :
    (writeDirectTraced fuel m x fdLocator fdOffset src nbyte).1 =
      writeDirectBlock fuel m x fdLocator fdOffset src nbyte := by
  induction fuel generalizing m x fdLocator fdOffset src nbyte with
  | zero => rfl
  | succ fuel ih =>
    rw [writeDirectTraced, writeDirectBlock]
    by_cases hlt : fdLocator < 6
    · rw [dif_pos hlt, dif_pos hlt]
      dsimp only
      rw [directTargetTraced_fst]
      cases directTarget m x ⟨fdLocator,hlt⟩ fdOffset src (blankSpace fdOffset nbyte) with
      | none => rfl
      | some r =>
        cases r with
        | none => rfl
        | some r =>
          obtain ⟨blockID,block,m',x'⟩ := r
          dsimp only
          rw [before_fst]
          split_ifs
          · rfl
          · rw [afterConsults_fst, ih]
          · cases indirectTarget (blockStoreWrite m' wholeStore blockID block).2 x' with
            | none => rfl
            | some r => rw [afterConsults_fst, writeIndirectTraced_fst]
    · rw [dif_neg hlt, dif_neg hlt]

/-- The traced writer is the writer. -/
theorem writeFromTraced_fst (m : Mem) (x : Inode) (fdLocator fdOffset : ℕ) (src : Mem) (nbyte : ℕ) :
    (writeFromTraced m x fdLocator fdOffset src nbyte).1 = writeFrom m x fdLocator fdOffset src nbyte := by
  rw [writeFromTraced, writeFrom]
  split_ifs
  · dsimp only
    rw [writeDirectTraced_fst]
  · cases indirectTarget m x with
    | none => rfl
    | some r =>
      dsimp only
      rw [writeIndirectTraced_fst]
  · dsimp only
    rw [writeDoubleDirectTraced_fst]
    exact fun k m x a off src n id => writeIndirectTraced_fst indexRounds (some k) m x a off src n id

theorem readIndirectLoopTraced_fst (ptrs : ℕ → UInt16) (fuel : ℕ) (st : IndirectRead) :
    (readIndirectLoopTraced m ptrs fuel st).1 = readIndirectLoop m ptrs fuel st := by
  induction fuel generalizing st with
  | zero => rfl
  | succ fuel ih =>
    rw [readIndirectLoopTraced, readIndirectLoop]
    by_cases hgo : st.indirectPtrID < 512 ∧ st.nbyte > 0
    · rw [if_pos hgo, if_pos hgo]
      dsimp only [fetch]
      by_cases hz : ptrs st.indirectPtrID = 0
      · rw [if_pos hz, if_pos hz]
      · rw [if_neg hz, if_neg hz, before_fst]
        cases (blockStoreRead m wholeStore (ptrs st.indirectPtrID).toNat).bind
            (fun block => memcpyFrom block st.fdOffset (blankSpace st.fdOffset st.nbyte)) with
        | none => rfl
        | some bytes => exact ih _
    · rw [if_neg hgo, if_neg hgo]

theorem readDoubleDirectTraced_fst {r : ℕ → ℕ → ℕ → ℕ → ℕ → Traced ReadResult} {r' : ℕ → ℕ → ℕ → ℕ → ReadResult}
    (fdLocator fdOffset nbyte : ℕ) (hr : ∀ k a off n id, (r k a off n id).1 = r' a off n id) :
    (readDoubleDirectTraced r m x fdLocator fdOffset nbyte).1 =
      readDoubleDirectBlock r' m x fdLocator fdOffset nbyte := by
  rw [readDoubleDirectTraced, readDoubleDirectBlock]
  split_ifs
  · rfl
  · cases blockStoreRead m wholeStore x.doubleIndirectPointer.toNat with
    | none => rfl
    | some buffer =>
      dsimp only
      by_cases hout : doubleIndex fdLocator < 0 ∨ doubleIndex fdLocator ≥ 512
      · rw [if_pos hout, if_pos hout]
      rw [if_neg hout, if_neg hout]
      by_cases hz : pointersOf buffer (doubleIndex fdLocator).toNat = 0
      · rw [fetch, if_pos hz, if_pos hz]
      · rw [fetch, if_neg hz, if_neg hz]
        exact hr ..

theorem readIndirectTraced_fst (fuel : ℕ) (level : Option ℕ) (fdLocator fdOffset nbyte id : ℕ) :
    (readIndirectTraced m x fuel level fdLocator fdOffset nbyte id).1 =
      readIndirectBlock m x fuel fdLocator fdOffset nbyte id := by
  induction fuel generalizing level fdLocator fdOffset nbyte id with
  | zero => rfl
  | succ fuel ih =>
    rw [readIndirectTraced, readIndirectBlock]
    by_cases hz : id = 0
    · rw [if_pos hz, if_pos hz]
    · rw [if_neg hz, if_neg hz]
      cases blockStoreRead m wholeStore id with
      | none => rfl
      | some buffer =>
        dsimp only
        rw [readIndirectLoopTraced_fst]
        cases readIndirectLoop m (pointersOf buffer) 512 ⟨indirectIndex fdLocator,fdLocator,fdOffset,nbyte,[]⟩ with
        | none => rfl
        | some r =>
          obtain ⟨done,st⟩ := r
          dsimp only
          split_ifs
          · rfl
          · rw [afterConsults_fst, readDoubleDirectTraced_fst]
            exact fun k a off n id => ih (some k) a off n id

theorem readDirectTraced_fst (fuel fdLocator fdOffset nbyte : ℕ) :
    (readDirectTraced m x fuel fdLocator fdOffset nbyte).1 = readDirectBlock m x fuel fdLocator fdOffset nbyte := by
  induction fuel generalizing fdLocator fdOffset nbyte with
  | zero => rfl
  | succ fuel ih =>
    rw [readDirectTraced, readDirectBlock]
    by_cases hlt : fdLocator < 6
    · rw [if_pos hlt, dif_pos hlt]
      simp only [fetch, dif_pos hlt]
      by_cases hz : (x.directPointer ⟨fdLocator,hlt⟩).toNat = 0
      · rw [if_pos hz, if_pos hz]
      · rw [if_neg hz, if_neg hz, before_fst]
        cases (blockStoreRead m wholeStore (x.directPointer ⟨fdLocator,hlt⟩).toNat).bind
            (fun block => memcpyFrom block fdOffset (blankSpace fdOffset nbyte)) with
        | none => rfl
        | some bytes =>
          dsimp only
          split_ifs
          · rfl
          · rw [afterConsults_fst, ih]
          · rw [afterConsults_fst, readIndirectTraced_fst]
    · rw [if_neg hlt, dif_neg hlt]

/-- The traced reader is the reader. -/
theorem readFromTraced_fst (m : Mem) (x : Inode) (fdLocator fdOffset nbyte : ℕ) :
    (readFromTraced m x fdLocator fdOffset nbyte).1 = readFrom m x fdLocator fdOffset nbyte := by
  rw [readFromTraced, readFrom]
  split_ifs
  · exact readDirectTraced_fst ..
  · exact readIndirectTraced_fst ..
  · exact readDoubleDirectTraced_fst _ _ _ fun k a off n id => readIndirectTraced_fst indexRounds (some k) a off n id

end Forget

end LiteOSFS
