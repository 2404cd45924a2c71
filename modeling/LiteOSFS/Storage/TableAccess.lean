import LiteOSFS.Storage.BlockStore

/-! # The accessors of the two tables

`inode.c` and `file_descriptor.c` have accessors for records of 64 and of 6 bytes, and
`block_store.c` has its own for the same. A buffer is bytes, as `memcpy` takes it, and
`none` is `NULL`. The outcome lists the bytes of the store that were read or written.
-/
namespace LiteOSFS
open Memory

/-- What is returned (0 for nothing, and for `false`), the caller's buffer and the store's memory afterwards. -/
structure TableOutcome where
  ret : ℕ
  buffer : Option Mem
  image : Mem
  touched : List ℕ

def refuseAccess (m : Mem) (buffer : Option Mem) : TableOutcome := ⟨0,buffer,m,[]⟩

/-- `memcpy` of a slot to the buffer. -/
def copyOut (m : Mem) (bs : BlockStore) (blockId size : ℕ) (buffer : Mem) : TableOutcome :=
  ⟨size,some (copyIn buffer 0 size (shift m (bs.dataBlocks + blockId * size))),m,
    List.range' (bs.dataBlocks + blockId * size) size⟩

/-- `memcpy` of the buffer to a slot. -/
def copyBack (m : Mem) (bs : BlockStore) (blockId size : ℕ) (buffer : Mem) : TableOutcome :=
  ⟨size,some buffer,copyIn m (bs.dataBlocks + blockId * size) size buffer,
    List.range' (bs.dataBlocks + blockId * size) size⟩

/-- The bit is tested and, when set, cleared. -/
def clearBit (m : Mem) (bs : BlockStore) (blockId : ℕ) (buffer : Option Mem) : TableOutcome :=
  ⟨0,buffer,releaseBit m bs blockId,[bs.fbm.data + blockId >>> 3]⟩

def testBitOf (m : Mem) (bs : BlockStore) (blockId : ℕ) (buffer : Option Mem) : TableOutcome :=
  ⟨(bitmapTest m bs.fbm blockId).toNat,buffer,m,[bs.fbm.data + blockId >>> 3]⟩

/-- An accessor that goes through to `access` when neither pointer is `NULL` and the id passes. -/
def withBuffer (m : Mem) (bs : Option BlockStore) (buffer : Option Mem) (pass : Bool)
    (access : BlockStore → Mem → TableOutcome) : TableOutcome :=
  match bs, buffer with
  | some bs, some bytes => if pass then access bs bytes else refuseAccess m buffer
  | _, _ => refuseAccess m buffer

def withStore (m : Mem) (bs : Option BlockStore) (buffer : Option Mem) (pass : Bool)
    (access : BlockStore → TableOutcome) : TableOutcome :=
  match bs with
  | some bs => if pass then access bs else refuseAccess m buffer
  | none => refuseAccess m buffer

section Accessors
variable (m : Mem) (bs : Option BlockStore) (blockId : ℕ) (buffer : Option Mem)

def inodeTableRelease : TableOutcome :=
  withStore m bs buffer (!decide (blockId > 256)) (fun bs => clearBit m bs blockId buffer)

def inodeTableRead : TableOutcome :=
  withBuffer m bs buffer (!decide (blockId > 256)) (fun bs bytes => copyOut m bs blockId 64 bytes)

def inodeTableWrite : TableOutcome :=
  withBuffer m bs buffer (!decide (blockId > 256)) (fun bs bytes => copyBack m bs blockId 64 bytes)

def fdTableRelease : TableOutcome :=
  withStore m bs buffer (!decide (blockId > 256)) (fun bs => clearBit m bs blockId buffer)

def fdTableRead : TableOutcome :=
  withBuffer m bs buffer (!decide (blockId > 256)) (fun bs bytes => copyOut m bs blockId 6 bytes)

def fdTableWrite : TableOutcome :=
  withBuffer m bs buffer (!decide (blockId > 256)) (fun bs bytes => copyBack m bs blockId 6 bytes)

def fdTableTest : TableOutcome :=
  withStore m bs buffer (!decide (blockId ≥ 256)) (fun bs => testBitOf m bs blockId buffer)

def blockStoreSubReleaseAccess : TableOutcome :=
  withStore m bs buffer (decide (blockId < 256)) (fun bs => clearBit m bs blockId buffer)

def blockStoreSubTestAccess : TableOutcome :=
  withStore m bs buffer (!decide (blockId > 255)) (fun bs => testBitOf m bs blockId buffer)

def blockStoreInodeReadAccess : TableOutcome :=
  withBuffer m bs buffer (decide (blockId ≤ 255)) (fun bs bytes => copyOut m bs blockId 64 bytes)

def blockStoreInodeWriteAccess : TableOutcome :=
  withBuffer m bs buffer (decide (blockId < 256)) (fun bs bytes => copyBack m bs blockId 64 bytes)

def blockStoreFdReadAccess : TableOutcome :=
  withBuffer m bs buffer (decide (blockId ≤ 255)) (fun bs bytes => copyOut m bs blockId 6 bytes)

def blockStoreFdWriteAccess : TableOutcome :=
  withBuffer m bs buffer (decide (blockId < 256)) (fun bs bytes => copyBack m bs blockId 6 bytes)

end Accessors

/-- Nothing but the listed bytes is changed, and nothing but them has an influence. -/
structure Local (f : Mem → TableOutcome) : Prop where
  unchanged : ∀ m a, a ∉ (f m).touched → (f m).image a = m a
  determined : ∀ m m', (∀ a ∈ (f m).touched, m a = m' a) → (f m').ret = (f m).ret ∧ (f m').buffer = (f m).buffer ∧
    (f m').touched = (f m).touched ∧ ∀ a ∈ (f m).touched, (f m').image a = (f m).image a

section Locality
variable {bs : BlockStore} {blockId size : ℕ} {buffer : Mem}

theorem local_refuse (buffer : Option Mem) : Local (fun m => refuseAccess m buffer) :=
  ⟨fun _ _ _ => rfl,fun _ _ _ => ⟨rfl,rfl,rfl,fun _ ha => absurd ha List.not_mem_nil⟩⟩

theorem local_copyOut : Local (fun m => copyOut m bs blockId size buffer) := by
  refine ⟨fun _ _ _ => rfl,fun m m' h => ⟨rfl,?_,rfl,fun _ ha => (h _ ha).symm⟩⟩
  refine congrArg some (copyIn_congr (fun i hi => ?_))
  exact (h _ (List.mem_range'_1.mpr ⟨by omega,by omega⟩)).symm

theorem local_copyBack : Local (fun m => copyBack m bs blockId size buffer) := by
  refine ⟨fun m a ha => copyIn_outside ?_,fun m m' _ => ⟨rfl,rfl,rfl,fun a ha => ?_⟩⟩
  · by_contra hin
    exact ha (List.mem_range'_1.mpr (by omega))
  · have hin := List.mem_range'_1.mp ha
    exact (copyIn_inside hin.1 hin.2).trans (copyIn_inside hin.1 hin.2).symm

theorem local_testBit (buffer : Option Mem) : Local (fun m => testBitOf m bs blockId buffer) := by
  refine ⟨fun _ _ _ => rfl,fun m m' h => ⟨?_,rfl,rfl,fun a ha => (h a ha).symm⟩⟩
  have hbyte := h _ List.mem_cons_self
  rw [bit_byte] at hbyte
  exact congrArg Bool.toNat (bitmapTest_congr hbyte.symm)

theorem local_clearBit (buffer : Option Mem) : Local (fun m => clearBit m bs blockId buffer) := by
  refine ⟨fun m a ha => ?_,fun m m' h => ⟨rfl,rfl,rfl,fun a ha => ?_⟩⟩
  · have hne : a ≠ bs.fbm.data + blockId / 8 := by
      rw [← bit_byte]
      exact fun he => ha (List.mem_singleton.mpr he)
    change releaseBit m bs blockId a = m a
    unfold releaseBit
    split_ifs
    · exact bitmapReset_other hne
    · rfl
  · have hbyte := h _ List.mem_cons_self
    have htest : bitmapTest m' bs.fbm blockId = bitmapTest m bs.fbm blockId := by
      rw [bit_byte] at hbyte
      exact bitmapTest_congr hbyte.symm
    obtain rfl : a = bs.fbm.data + blockId >>> 3 := List.mem_singleton.mp ha
    change releaseBit m' bs blockId _ = releaseBit m bs blockId _
    unfold releaseBit
    rw [htest]
    split_ifs
    · rw [bitmapReset, bitmapReset, if_pos rfl, if_pos rfl, hbyte]
    · exact hbyte.symm

theorem local_withBuffer {bs : Option BlockStore} {buffer : Option Mem} {pass : Bool}
    {access : Mem → BlockStore → Mem → TableOutcome} (h : ∀ bs bytes, Local (fun m => access m bs bytes)) :
    Local (fun m => withBuffer m bs buffer pass (access m)) := by
  unfold withBuffer
  cases bs with
  | none => exact local_refuse buffer
  | some bs =>
    cases buffer with
    | none => exact local_refuse none
    | some bytes =>
      cases pass with
      | false => exact local_refuse _
      | true => exact h bs bytes

theorem local_withStore {bs : Option BlockStore} {buffer : Option Mem} {pass : Bool}
    {access : Mem → BlockStore → TableOutcome} (h : ∀ bs, Local (fun m => access m bs)) :
    Local (fun m => withStore m bs buffer pass (access m)) := by
  unfold withStore
  cases bs with
  | none => exact local_refuse buffer
  | some bs =>
    cases pass with
    | false => exact local_refuse _
    | true => exact h bs

end Locality

/-! The accessors of `block_store.c` on records and on bits, which the file system's functions use, are these. -/

section Records
variable (m : Mem) (bs : BlockStore) (blockId : ℕ)

theorem blockStoreSubRelease_eq :
    blockStoreSubRelease m bs blockId = (blockStoreSubReleaseAccess m (some bs) blockId none).image := by
  unfold blockStoreSubRelease blockStoreSubReleaseAccess withStore
  simp only [decide_eq_true_eq]
  split_ifs <;> rfl

theorem blockStoreSubTest_eq :
    (blockStoreSubTest m bs blockId).toNat = (blockStoreSubTestAccess m (some bs) blockId none).ret := by
  unfold blockStoreSubTest blockStoreSubTestAccess withStore
  simp only [Bool.not_eq_true', decide_eq_false_iff_not]
  by_cases h : blockId > 255
  · rw [if_pos h, if_neg (not_not.mpr h)]
    rfl
  · rw [if_neg h, if_pos h]
    rfl

theorem blockStoreInodeWrite_eq (x : Inode) : blockStoreInodeWrite m bs blockId x =
    ((blockStoreInodeWriteAccess m (some bs) blockId (some x.toBytes)).ret,
      (blockStoreInodeWriteAccess m (some bs) blockId (some x.toBytes)).image) := by
  unfold blockStoreInodeWrite blockStoreInodeWriteAccess withBuffer
  simp only [decide_eq_true_eq]
  split_ifs <;> rfl

theorem blockStoreFdWrite_eq (x : FileDescriptor) : blockStoreFdWrite m bs blockId x =
    ((blockStoreFdWriteAccess m (some bs) blockId (some x.toBytes)).ret,
      (blockStoreFdWriteAccess m (some bs) blockId (some x.toBytes)).image) := by
  unfold blockStoreFdWrite blockStoreFdWriteAccess withBuffer
  simp only [decide_eq_true_eq]
  split_ifs <;> rfl

theorem window_copyOut (size : ℕ) (buffer : Mem) :
    window (copyIn buffer 0 size (shift m (bs.dataBlocks + blockId * size))) 0 size =
      window m (bs.dataBlocks + blockId * size) size := by
  rw [window_copyIn_same]
  funext i
  unfold window
  split_ifs
  · rw [Nat.zero_add]
    rfl
  · rfl

theorem blockStoreInodeRead_eq (buffer : Mem) : blockStoreInodeRead m bs blockId =
    if (blockStoreInodeReadAccess m (some bs) blockId (some buffer)).ret = 64 then
      (blockStoreInodeReadAccess m (some bs) blockId (some buffer)).buffer.map
        (fun bytes => Inode.ofBytes (window bytes 0 64))
    else none := by
  unfold blockStoreInodeRead blockStoreInodeReadAccess withBuffer
  simp only [decide_eq_true_eq]
  split_ifs with h hret hret
  · simp only [copyOut, Option.map_some, window_copyOut]
  · exact absurd rfl hret
  · cases hret
  · rfl

theorem blockStoreFdRead_eq (buffer : Mem) : blockStoreFdRead m bs blockId =
    if (blockStoreFdReadAccess m (some bs) blockId (some buffer)).ret = 6 then
      (blockStoreFdReadAccess m (some bs) blockId (some buffer)).buffer.map
        (fun bytes => FileDescriptor.ofBytes (window bytes 0 6))
    else none := by
  unfold blockStoreFdRead blockStoreFdReadAccess withBuffer
  simp only [decide_eq_true_eq]
  split_ifs with h hret hret
  · simp only [copyOut, Option.map_some, window_copyOut]
  · exact absurd rfl hret
  · cases hret
  · rfl

end Records

end LiteOSFS
