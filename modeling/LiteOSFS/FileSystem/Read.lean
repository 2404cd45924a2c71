import LiteOSFS.FileSystem.Write

/-! # fs_read and its three readers

A reader returns the bytes that it stores in `dst`, in order; the count that the
code returns is their number. `none` is undefined behaviour, as for the writers.
-/
namespace LiteOSFS
open Memory

abbrev ReadResult := Option (List UInt8)

/-- `memcpy(dst, block + off, len)` out of a buffer of 1024 bytes. -/
def memcpyFrom (block : Mem) (off len : ℕ) : Option (List UInt8) :=
  if len = 0 ∨ off + len ≤ 1024 then some ((List.range len).map (fun i => block (off + i))) else none

/-- The copies made before a recursive call. -/
def addBytes (bs : List UInt8) (r : ReadResult) : ReadResult := r.map (bs ++ ·)

/-- The variables of the loop in `read_indirect_block`. -/
structure IndirectRead where
  indirectPtrID : ℕ
  fdLocator : ℕ
  fdOffset : ℕ
  nbyte : ℕ
  bytes : List UInt8

/-- The loop; `false` is the return at an empty slot. -/
def readIndirectLoop (m : Mem) (ptrs : ℕ → UInt16) : (fuel : ℕ) → IndirectRead → Option (Bool × IndirectRead)
  | 0, st => some (true,st)
  | fuel + 1, st =>
    if st.indirectPtrID < 512 ∧ st.nbyte > 0 then
      if ptrs st.indirectPtrID = 0 then some (false,st)
      else
        let blank := blankSpace st.fdOffset st.nbyte
        match (blockStoreRead m wholeStore (ptrs st.indirectPtrID).toNat).bind
            (fun block => memcpyFrom block st.fdOffset blank) with
        | none => none
        | some bytes =>
          readIndirectLoop m ptrs fuel
            { indirectPtrID := st.indirectPtrID + 1
              fdLocator := (st.fdLocator + 1) % 65536
              fdOffset := 0
              nbyte := st.nbyte - blank
              bytes := st.bytes ++ bytes }
    else some (true,st)

def readDoubleDirectBlock (readIndirectBlock : ℕ → ℕ → ℕ → ℕ → ReadResult) (m : Mem) (inode : Inode)
    (fdLocator fdOffset nbyte : ℕ) : ReadResult :=
  if inode.doubleIndirectPointer = 0 then some []
  else match blockStoreRead m wholeStore inode.doubleIndirectPointer.toNat with
    | none => none
    | some buffer =>
      let ptrs := pointersOf buffer
      let index := doubleIndex fdLocator
      if index < 0 ∨ index ≥ 512 then none
      else if ptrs index.toNat = 0 then some []
      else readIndirectBlock fdLocator fdOffset nbyte (ptrs index.toNat).toNat

def readIndirectBlock (m : Mem) (inode : Inode) : (fuel fdLocator fdOffset nbyte indirectBlockID : ℕ) → ReadResult
  | 0, _, _, _, _ => none
  | fuel + 1, fdLocator, fdOffset, nbyte, indirectBlockID =>
    if indirectBlockID = 0 then some []
    else match blockStoreRead m wholeStore indirectBlockID with
      | none => if nbyte = 0 then some [] else none
      | some buffer =>
        match readIndirectLoop m (pointersOf buffer) 512 ⟨indirectIndex fdLocator,fdLocator,fdOffset,nbyte,[]⟩ with
        | none => none
        | some (done,st) =>
          if !done || st.nbyte = 0 then some st.bytes
          else addBytes st.bytes
            (readDoubleDirectBlock (readIndirectBlock m inode fuel) m inode st.fdLocator st.fdOffset st.nbyte)

def readDirectBlock (m : Mem) (inode : Inode) : (fuel fdLocator fdOffset nbyte : ℕ) → ReadResult
  | 0, _, _, _ => none
  | fuel + 1, fdLocator, fdOffset, nbyte =>
    if h : fdLocator < 6 then
      let blockID := (inode.directPointer ⟨fdLocator,h⟩).toNat
      if blockID = 0 then some []
      else
        let blank := blankSpace fdOffset nbyte
        match (blockStoreRead m wholeStore blockID).bind (fun block => memcpyFrom block fdOffset blank) with
        | none => none
        | some bytes =>
          let nbyte := nbyte - blank
          if nbyte = 0 then some bytes
          else if fdLocator + 1 < 6 then addBytes bytes (readDirectBlock m inode fuel (fdLocator + 1) 0 nbyte)
          else addBytes bytes
            (readIndirectBlock m inode indexRounds (fdLocator + 1) 0 nbyte inode.indirectPointer.toNat)
    else none

/-- The dispatch of `fs_read` on the level that the cursor stands in. -/
def readFrom (m : Mem) (inode : Inode) (fdLocator fdOffset nbyte : ℕ) : ReadResult :=
  if fdLocator < 6 then readDirectBlock m inode 6 fdLocator fdOffset nbyte
  else if fdLocator < 518 then
    readIndirectBlock m inode indexRounds fdLocator fdOffset nbyte inode.indirectPointer.toNat
  else readDoubleDirectBlock (readIndirectBlock m inode indexRounds) m inode fdLocator fdOffset nbyte

/-- The count that `fs_read` asks for: `headToCurrent + nbyte` is compared, and the difference taken,
in `size_t`. -/
def readCount (d : FileDescriptor) (fileSize nbyte : ℕ) : ℕ :=
  let head := getPreviosOffset d
  if (head + nbyte) % 2 ^ 64 > fileSize then (fileSize + 2 ^ 64 - head) % 2 ^ 64 else nbyte

/-- The return value, the bytes stored from `dst` on and the state. `dstNull` says that `dst` is
`NULL`. -/
def fsRead (s : F19FS) (fd : ℤ) (dstNull : Bool) (nbyte : UInt64) : Option (ℤ × List UInt8 × F19FS) :=
  if fd < 0 ∨ fd ≥ 256 ∨ dstNull then some (-1,[],s)
  else if !s.isOpen fd.toNat then some (-2,[],s)
  else if nbyte = 0 then some (0,[],s)
  else
    let d := s.descriptor fd.toNat
    let inode := s.inode d.inodeNum.toNat
    let count := readCount d inode.fileSize.toNat nbyte.toNat
    match readFrom s.image inode d.locateOrder.toNat d.locateOffset.toNat count with
    | none => none
    | some bytes => some (bytes.length,bytes,s.storeDescriptor fd.toNat (updateFD d bytes.length))

end LiteOSFS
