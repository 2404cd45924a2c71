import LiteOSFS.FileSystem.Cursor

/-! # fs_write and its three writers

The writers take the image and the caller's private copy of the inode. Their
result is the count, the image and that copy; `none` is undefined behaviour: an
access outside a buffer, or the use of one that a failed read left unset. The
source buffer is a total function, so reading past `nbyte` is defined.
-/
namespace LiteOSFS
open Memory

abbrev WriteResult := Option (ℕ × Mem × Inode)

/-- `blankSpace + write_...(...)`. -/
def addSum (n : ℕ) (r : WriteResult) : WriteResult := r.map (fun r => (n + r.1,r.2))

/-- `BLOCK_SIZE_BYTES - fd_offset` as a `size_t`, cut to `nbyte`. -/
def blankSpace (fdOffset nbyte : ℕ) : ℕ :=
  let space := (2 ^ 64 + 1024 - fdOffset) % 2 ^ 64
  if space > nbyte then nbyte else space

/-- `memcpy(block + off, src, len)` into a buffer of 1024 bytes. -/
def memcpyInto (block : Mem) (off : ℕ) (src : Mem) (len : ℕ) : Option Mem :=
  if len = 0 ∨ off + len ≤ 1024 then some (copyIn block off len src) else none

def allocateIndirectPtrBlock (m : Mem) : ℕ × Mem :=
  let block := blockStoreAllocate m wholeStore
  if block.1 = sizeMax then block else (block.1,(blockStoreWrite block.2 wholeStore block.1 zeros).2)

/-- The block that `write_direct_block` fills: its number, the bytes prepared for it, the image and
the inode. `some none` is a full store. A fresh block gets 1024 bytes of the source. -/
def directTarget (m : Mem) (inode : Inode) (fdLocator : Fin 6) (fdOffset : ℕ) (src : Mem) (blank : ℕ) :
    Option (Option (ℕ × Mem × Mem × Inode)) :=
  if inode.directPointer fdLocator = 0 then
    let block := blockStoreAllocate m wholeStore
    if block.1 = sizeMax then some none
    else some (some (block.1,copyIn zeros 0 1024 src,block.2,{ inode with
      directPointer := Function.update inode.directPointer fdLocator (UInt16.ofNat block.1) }))
  else
    let blockID := (inode.directPointer fdLocator).toNat
    let current := (blockStoreRead m wholeStore blockID).getD zeros
    (memcpyInto current fdOffset src blank).map (fun current => some (blockID,current,m,inode))

/-- The indirect block of the inode, allocated when it has none; `none` on a full store. -/
def indirectTarget (m : Mem) (inode : Inode) : Option (ℕ × Mem × Inode) :=
  if inode.indirectPointer = 0 then
    let block := allocateIndirectPtrBlock m
    if block.1 = sizeMax then none
    else some (block.1,block.2,{ inode with indirectPointer := UInt16.ofNat block.1 })
  else some (inode.indirectPointer.toNat,m,inode)

/-- The same for the double-indirect block. -/
def doubleTarget (m : Mem) (inode : Inode) : Option (ℕ × Mem × Inode) :=
  if inode.doubleIndirectPointer = 0 then
    let block := allocateIndirectPtrBlock m
    if block.1 = sizeMax then none
    else some (block.1,block.2,{ inode with doubleIndirectPointer := UInt16.ofNat block.1 })
  else some (inode.doubleIndirectPointer.toNat,m,inode)

/-- The variables of the loop in `write_indirect_block`. -/
structure IndirectWrite where
  image : Mem
  ptrs : ℕ → UInt16
  indirectPtrID : ℕ
  fdLocator : ℕ
  fdOffset : ℕ
  src : Mem
  nbyte : ℕ
  sum : ℕ

/-- The data block of the current slot; `none` on a full store. -/
def slotTarget (st : IndirectWrite) : Option (ℕ × Mem × (ℕ → UInt16)) :=
  if st.ptrs st.indirectPtrID = 0 then
    let block := blockStoreAllocate st.image wholeStore
    if block.1 = sizeMax then none
    else some (block.1,block.2,Function.update st.ptrs st.indirectPtrID (UInt16.ofNat block.1))
  else some ((st.ptrs st.indirectPtrID).toNat,st.image,st.ptrs)

/-- The loop, with `fuel` slots left at most; `false` is the exit on a full store. -/
def writeIndirectLoop : (fuel : ℕ) → IndirectWrite → Option (Bool × IndirectWrite)
  | 0, st => some (true,st)
  | fuel + 1, st =>
    if st.indirectPtrID < 512 ∧ st.nbyte > 0 then
      match slotTarget st with
      | none => some (false,st)
      | some (blockID,image,ptrs) =>
        let blank := blankSpace st.fdOffset st.nbyte
        match memcpyInto ((blockStoreRead image wholeStore blockID).getD zeros) st.fdOffset st.src blank with
        | none => none
        | some block =>
          writeIndirectLoop fuel
            { image := (blockStoreWrite image wholeStore blockID block).2
              ptrs := ptrs
              indirectPtrID := st.indirectPtrID + 1
              fdLocator := (st.fdLocator + 1) % 65536
              fdOffset := 0
              src := shift st.src blank
              nbyte := st.nbyte - blank
              sum := st.sum + blank }
    else some (true,st)

/-- `(fd_locator - NUM_DIRECT_PTR) % NUM_DOUBLE_DIRECT_PTR` in a `uint16_t`. -/
def indirectIndex (fdLocator : ℕ) : ℕ := (((fdLocator : ℤ) - 6).tmod 512 % 65536).toNat

/-- `(fd_locator - (NUM_DIRECT_PTR + NUM_INDIRECT_PTR)) / NUM_DOUBLE_DIRECT_PTR`. -/
def doubleIndex (fdLocator : ℕ) : ℤ := ((fdLocator : ℤ) - 518).tdiv 512

/-- `write_double_direct_block`, over the `write_indirect_block` that it calls. A second-level index
block is used as it was allocated. -/
def writeDoubleDirectBlock (writeIndirectBlock : Mem → Inode → ℕ → ℕ → Mem → ℕ → ℕ → WriteResult)
    (m : Mem) (inode : Inode) (fdLocator fdOffset : ℕ) (src : Mem) (nbyte : ℕ) : WriteResult :=
  match doubleTarget m inode with
  | none => some (0,m,inode)
  | some (doubleID,m,inode) =>
    match blockStoreRead m wholeStore doubleID with
    | none => none
    | some buffer =>
      let ptrs := pointersOf buffer
      let index := doubleIndex fdLocator
      if index < 0 ∨ index ≥ 512 then none
      else if ptrs index.toNat = 0 then
        let block := blockStoreAllocate m wholeStore
        if block.1 = sizeMax then some (0,m,inode)
        else
          let ptrs := Function.update ptrs index.toNat (UInt16.ofNat block.1)
          let m := (blockStoreWrite block.2 wholeStore doubleID (pointerBytes ptrs)).2
          writeIndirectBlock m inode fdLocator fdOffset src nbyte block.1
      else writeIndirectBlock m inode fdLocator fdOffset src nbyte (ptrs index.toNat).toNat

/-- `write_indirect_block`; `fuel` bounds the index blocks visited after this one. -/
def writeIndirectBlock : (fuel : ℕ) → Mem → Inode → (fdLocator fdOffset : ℕ) → (src : Mem) →
    (nbyte indirectBlockID : ℕ) → WriteResult
  | 0, _, _, _, _, _, _, _ => none
  | fuel + 1, m, inode, fdLocator, fdOffset, src, nbyte, indirectBlockID =>
    match blockStoreRead m wholeStore indirectBlockID with
    | none => if nbyte = 0 then some (0,m,inode) else none
    | some buffer =>
      match writeIndirectLoop 512 ⟨m,pointersOf buffer,indirectIndex fdLocator,fdLocator,fdOffset,src,nbyte,0⟩ with
      | none => none
      | some (done,st) =>
        let m := (blockStoreWrite st.image wholeStore indirectBlockID (pointerBytes st.ptrs)).2
        if !done || st.nbyte = 0 then some (st.sum,m,inode)
        else addSum st.sum
          (writeDoubleDirectBlock (writeIndirectBlock fuel) m inode st.fdLocator st.fdOffset st.src st.nbyte)

/-- A 16-bit locator passes through at most this many index blocks. -/
def indexRounds : ℕ := 130

/-- `write_direct_block`; `fuel` bounds the direct blocks left. -/
def writeDirectBlock : (fuel : ℕ) → Mem → Inode → (fdLocator fdOffset : ℕ) → (src : Mem) →
    (nbyte : ℕ) → WriteResult
  | 0, _, _, _, _, _, _ => none
  | fuel + 1, m, inode, fdLocator, fdOffset, src, nbyte =>
    if h : fdLocator < 6 then
      let blank := blankSpace fdOffset nbyte
      match directTarget m inode ⟨fdLocator,h⟩ fdOffset src blank with
      | none => none
      | some none => some (0,m,inode)
      | some (some (blockID,block,m,inode)) =>
        let m := (blockStoreWrite m wholeStore blockID block).2
        let nbyte := nbyte - blank
        if nbyte = 0 then some (blank,m,inode)
        else if fdLocator + 1 < 6 then
          addSum blank (writeDirectBlock fuel m inode (fdLocator + 1) 0 (shift src blank) nbyte)
        else match indirectTarget m inode with
          -- the bytes just stored are not counted here
          | none => some (0,m,inode)
          | some (indirectID,m,inode) =>
            addSum blank (writeIndirectBlock indexRounds m inode (fdLocator + 1) 0 (shift src blank) nbyte indirectID)
    else none

/-- The dispatch of `fs_write` on the level that the cursor stands in; `some none` is its early
`return 0`. -/
def writeFrom (m : Mem) (inode : Inode) (fdLocator fdOffset : ℕ) (src : Mem) (nbyte : ℕ) :
    Option (Option (ℕ × Mem × Inode)) :=
  if fdLocator < 6 then (writeDirectBlock 6 m inode fdLocator fdOffset src nbyte).map some
  else if fdLocator < 518 then
    match indirectTarget m inode with
    | none => some none
    | some (indirectID,m,inode) =>
      (writeIndirectBlock indexRounds m inode fdLocator fdOffset src nbyte indirectID).map some
  else (writeDoubleDirectBlock (writeIndirectBlock indexRounds) m inode fdLocator fdOffset src nbyte).map some

def fsWrite (s : F19FS) (fd : ℤ) (src : Option Mem) (nbyte : UInt64) : Option (ℤ × F19FS) :=
  match src with
  | none => some (-1,s)
  | some src =>
    if fd < 0 ∨ fd ≥ 256 then some (-1,s)
    else if !s.isOpen fd.toNat then some (-2,s)
    else
      let d := s.descriptor fd.toNat
      let inode := s.inode d.inodeNum.toNat
      match writeFrom s.image inode d.locateOrder.toNat d.locateOffset.toNat src nbyte.toNat with
      | none => none
      | some none => some (0,s)
      | some (some (sum,image,inode)) =>
        let s := F19FS.storeDescriptor { s with image := image } fd.toNat (updateFD d sum)
        let inode := { inode with fileSize := inode.fileSize + UInt64.ofNat sum }
        some (sum,{ s with image := (blockStoreInodeWrite s.image inodeStore d.inodeNum.toNat inode).2 })

end LiteOSFS
