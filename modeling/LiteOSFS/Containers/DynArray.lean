import LiteOSFS.Library.Cells
import LiteOSFS.Storage.Bitmap

/-! # The dynamic array

`DynArray` is `dyn_array_t` with the number of bytes that the heap gave for `array`,
and an element is the bytes of its cell. A call is `none` where it would read, write
or destruct outside these bytes, hand `realloc` zero bytes, or never return. What a
call leaves behind besides the array is in `DynOutcome`: the elements given to the
destructor, in order, and those copied out. `Heap` answers a request for some bytes
with `NULL` or with memory of any contents.
-/
namespace LiteOSFS
open Memory

abbrev Heap := ℕ → Option Mem

structure DynArray where
  capacity : ℕ
  size : ℕ
  dataSize : ℕ
  array : Mem
  allocated : ℕ
  destructor : Bool

/-- Arithmetic in `size_t`. -/
def sizeMod (n : ℕ) : ℕ := n % 2 ^ 64

def dynMaxCapacity : ℕ := 2 ^ 56

inductive DynShiftMode where
  | insert | extract | erase
  deriving DecidableEq

/-- `MODE_IS_TYPE(mode, TYPE_REMOVE)`. -/
def DynShiftMode.isRemove : DynShiftMode → Bool
  | .insert => false
  | .extract => true
  | .erase => true

structure DynOutcome where
  ret : Bool
  array : DynArray
  destroyed : List Mem
  extracted : Option Mem

/-- `false` is returned. -/
def DynArray.refuse (a : DynArray) : DynOutcome := ⟨false,a,[],none⟩

/-- `DYN_ARRAY_POSITION`, as an offset into the array. -/
def DynArray.position (a : DynArray) (idx : ℕ) : ℕ := sizeMod (idx * a.dataSize)

/-- `DYN_SIZE_N_ELEMS`. -/
def DynArray.sizeNElems (a : DynArray) (n : ℕ) : ℕ := sizeMod (a.dataSize * n)

/-- The element at an offset, where it lies inside the buffer. -/
def DynArray.load (a : DynArray) (off : ℕ) : Option Mem :=
  if off + a.dataSize ≤ a.allocated then some (window a.array off a.dataSize) else none

def DynArray.memmove (a : DynArray) (dst src len : ℕ) : Option DynArray :=
  if dst + len ≤ a.allocated ∧ src + len ≤ a.allocated then
    some { a with array := copyIn a.array dst len (shift a.array src) }
  else none

def DynArray.memcpy (a : DynArray) (dst : ℕ) (src : Mem) (len : ℕ) : Option DynArray :=
  if dst + len ≤ a.allocated then some { a with array := copyIn a.array dst len src } else none

/-- `realloc` of the array: it keeps the old bytes as far as the new ones go. -/
def DynArray.realloc (a : DynArray) (bytes : ℕ) (heap : Heap) : Option (Option Mem) :=
  if bytes = 0 then none
  else some ((heap bytes).map fun junk => copyIn junk 0 (min bytes a.allocated) a.array)

/-- `while (capacity < needed) capacity <<= 1`. After 64 rounds the capacity is zero and stays so. -/
def doubleUntil : ℕ → ℕ → ℕ → Option ℕ
  | 0, capacity, needed => if capacity < needed then none else some capacity
  | fuel + 1, capacity, needed =>
    if capacity < needed then doubleUntil fuel (sizeMod (capacity * 2)) needed else some capacity

/-- `granted` says whether there is memory for the `dyn_array_t` itself. -/
def dynArrayCreate (capacity dataTypeSize : ℕ) (destructor granted : Bool) (heap : Heap) :
    Option (Option DynArray) :=
  if dataTypeSize ≠ 0 ∧ capacity ≤ dynMaxCapacity ∧ granted then
    (doubleUntil 64 16 capacity).map fun actualCapacity =>
      (heap (sizeMod (dataTypeSize * actualCapacity))).map fun array =>
        ⟨actualCapacity,0,dataTypeSize,array,sizeMod (dataTypeSize * actualCapacity),destructor⟩
  else some none

def dynRequestSizeIncrease (a : DynArray) (increment : ℕ) (heap : Heap) : Option (Bool × DynArray) :=
  if sizeMod (a.size + increment) ≤ a.capacity then some (true,a)
  else if sizeMod (a.size + increment) ≤ dynMaxCapacity then
    (doubleUntil 64 (sizeMod (a.capacity * 2)) (sizeMod (a.size + increment))).bind fun newCapacity =>
      (a.realloc (sizeMod (newCapacity * a.dataSize)) heap).map fun
        | some newArray => (true,{ a with
            array := newArray, capacity := newCapacity, allocated := sizeMod (newCapacity * a.dataSize) })
        | none => (false,a)
  else some (false,a)

/-- Everything from `position` on moved up by `count`. -/
def DynArray.openGap (a : DynArray) (position count : ℕ) : Option DynArray :=
  if position ≠ a.size then
    a.memmove (a.position (sizeMod (position + count))) (a.position position) (a.sizeNElems (a.size - position))
  else some a

def dynShiftInsert (a : DynArray) (position count : ℕ) (mode : DynShiftMode) (dataSrc : Option Mem) (heap : Heap) :
    Option DynOutcome :=
  match dataSrc with
  | none => some a.refuse
  | some src =>
    if count ≠ 0 ∧ mode = .insert ∧ position ≤ a.size then
      (dynRequestSizeIncrease a count heap).bind fun (granted,a) =>
        if granted then
          (a.openGap position count).bind fun a =>
            (a.memcpy (a.position position) src (a.sizeNElems count)).map fun a =>
              ⟨true,{ a with size := sizeMod (a.size + count) },[],none⟩
        else some a.refuse
    else some a.refuse

/-- The destructor applied to `total` elements from an offset on. -/
def DynArray.destroyFrom (a : DynArray) : ℕ → ℕ → Option (List Mem)
  | 0, _ => some []
  | total + 1, off => (a.load off).bind fun element =>
    (a.destroyFrom total (off + a.dataSize)).map fun rest => element :: rest

/-- What becomes of the elements that are removed: they are destructed or copied out. -/
def DynArray.handOver (a : DynArray) (position count : ℕ) (mode : DynShiftMode) : Option (List Mem × Option Mem) :=
  if mode = .erase then
    if a.destructor then (a.destroyFrom count (a.position position)).map fun gone => (gone,none)
    else some ([],none)
  else if a.position position + a.sizeNElems count ≤ a.allocated then
    some ([],some (window a.array (a.position position) (a.sizeNElems count)))
  else none

/-- Everything behind the removed elements moved down. -/
def DynArray.closeGap (a : DynArray) (position count : ℕ) : Option DynArray :=
  if sizeMod (position + count) < a.size then
    a.memmove (a.position position) (a.position (sizeMod (position + count)))
      (a.sizeNElems (a.size - sizeMod (position + count)))
  else some a

/-- `dataDst` says whether there is a place to extract to. -/
def dynShiftRemove (a : DynArray) (position count : ℕ) (mode : DynShiftMode) (dataDst : Bool) : Option DynOutcome :=
  if count ≠ 0 ∧ a.size ≠ 0 ∧ mode.isRemove ∧ sizeMod (position + count) ≤ a.size then
    if mode = .erase ∨ dataDst then
      (a.handOver position count mode).bind fun (destroyed,extracted) =>
        (a.closeGap position count).map fun moved =>
          ⟨true,{ moved with size := sizeMod (a.size + 2 ^ 64 - count) },destroyed,extracted⟩
    else some a.refuse
  else some a.refuse

def dynArraySize (a : DynArray) : ℕ := a.size

def dynArrayFront (a : DynArray) : Option ℕ := if a.size ≠ 0 then some 0 else none

def dynArrayBack (a : DynArray) : Option ℕ := if a.size ≠ 0 then some (a.position (a.size - 1)) else none

def dynArrayAt (a : DynArray) (index : ℕ) : Option ℕ := if index < a.size then some (a.position index) else none

/-- The buffer, to be read until the next insertion. -/
def dynArrayExport (a : DynArray) : Option ℕ := dynArrayFront a

def dynArrayEmpty (a : DynArray) : Bool := dynArraySize a == 0

def dynArrayPushFront (a : DynArray) (object : Option Mem) (heap : Heap) : Option DynOutcome :=
  dynShiftInsert a 0 1 .insert object heap

def dynArrayPopFront (a : DynArray) : Option DynOutcome := dynShiftRemove a 0 1 .erase false

def dynArrayExtractFront (a : DynArray) (object : Bool) : Option DynOutcome :=
  dynShiftRemove a 0 1 .extract object

def dynArrayPushBack (a : DynArray) (object : Option Mem) (heap : Heap) : Option DynOutcome :=
  dynShiftInsert a a.size 1 .insert object heap

def dynArrayPopBack (a : DynArray) : Option DynOutcome :=
  if a.size ≠ 0 then dynShiftRemove a (a.size - 1) 1 .erase false else some a.refuse

def dynArrayExtractBack (a : DynArray) (object : Bool) : Option DynOutcome :=
  if a.size ≠ 0 then dynShiftRemove a (a.size - 1) 1 .extract object else some a.refuse

def dynArrayInsert (a : DynArray) (index : ℕ) (object : Option Mem) (heap : Heap) : Option DynOutcome :=
  if object.isSome then dynShiftInsert a index 1 .insert object heap else some a.refuse

def dynArrayErase (a : DynArray) (index : ℕ) : Option DynOutcome := dynShiftRemove a index 1 .erase false

def dynArrayExtract (a : DynArray) (index : ℕ) (object : Bool) : Option DynOutcome :=
  if object ∧ index < a.size then dynShiftRemove a index 1 .extract object else some a.refuse

/-- Nothing is returned. -/
def dynArrayClear (a : DynArray) : Option DynOutcome :=
  if a.size ≠ 0 then dynShiftRemove a 0 a.size .erase false else some ⟨true,a,[],none⟩

/-- The loop of `dyn_array_insert_sorted`, with the number of elements that are left. -/
def orderedPosition (a : DynArray) (object : Mem) (compare : Mem → Mem → ℤ) : ℕ → ℕ → Option ℕ
  | 0, pos => some pos
  | left + 1, pos => (a.load (a.position pos)).bind fun element =>
    if compare object element > 0 then orderedPosition a object compare left (pos + 1) else some pos

def dynArrayInsertSorted (a : DynArray) (object : Option Mem) (compare : Option (Mem → Mem → ℤ)) (heap : Heap) :
    Option DynOutcome :=
  match compare, object with
  | some compare, some object =>
    (orderedPosition a (window object 0 a.dataSize) compare a.size 0).bind fun position =>
      dynShiftInsert a position 1 .insert (some object) heap
  | _, _ => some a.refuse

end LiteOSFS
