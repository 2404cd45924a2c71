import LiteOSFS.Storage.TableAccess
import LiteOSFS.FileSystem.State

/-! # The two layers over the tables

The accessors of `inode.c` and `file_descriptor.c` do what those of `block_store.c` do, and stay in the
slots of their table, but for the id 256, which only `fd_table_test` turns down. The slot
that this id stands for is the beginning of the first data block.
-/
namespace LiteOSFS
open Memory

inductive TableOp where
  | inodeRead | inodeWrite | inodeRelease | fdRead | fdWrite | fdRelease | fdTest
  deriving DecidableEq

/-- The layer of `inode.c` and `file_descriptor.c`. -/
def tableAccess (op : TableOp) (bs : Option BlockStore) (blockId : ℕ) (buffer : Option Mem) (m : Mem) : TableOutcome :=
  match op with
  | .inodeRead => inodeTableRead m bs blockId buffer
  | .inodeWrite => inodeTableWrite m bs blockId buffer
  | .inodeRelease => inodeTableRelease m bs blockId buffer
  | .fdRead => fdTableRead m bs blockId buffer
  | .fdWrite => fdTableWrite m bs blockId buffer
  | .fdRelease => fdTableRelease m bs blockId buffer
  | .fdTest => fdTableTest m bs blockId buffer

/-- The layer of `block_store.c`. -/
def storeAccess (op : TableOp) (bs : Option BlockStore) (blockId : ℕ) (buffer : Option Mem) (m : Mem) : TableOutcome :=
  match op with
  | .inodeRead => blockStoreInodeReadAccess m bs blockId buffer
  | .inodeWrite => blockStoreInodeWriteAccess m bs blockId buffer
  | .fdRead => blockStoreFdReadAccess m bs blockId buffer
  | .fdWrite => blockStoreFdWriteAccess m bs blockId buffer
  | .inodeRelease | .fdRelease => blockStoreSubReleaseAccess m bs blockId buffer
  | .fdTest => blockStoreSubTestAccess m bs blockId buffer

def TableOp.hasBuffer : TableOp → Bool
  | .inodeRead | .inodeWrite | .fdRead | .fdWrite => true
  | .inodeRelease | .fdRelease | .fdTest => false

/-- The bytes of the 256 slots, or of their 256 bits. -/
def TableOp.slots (op : TableOp) (bs : BlockStore) (a : ℕ) : Prop :=
  match op with
  | .inodeRead | .inodeWrite => bs.dataBlocks ≤ a ∧ a < bs.dataBlocks + 256 * 64
  | .fdRead | .fdWrite => bs.dataBlocks ≤ a ∧ a < bs.dataBlocks + 256 * 6
  | .inodeRelease | .fdRelease | .fdTest => bs.fbm.data ≤ a ∧ a < bs.fbm.data + 32

/-- An access that reads and changes bytes of a region only. -/
structure Within (f : Mem → TableOutcome) (m : Mem) (region : ℕ → Prop) : Prop where
  touched : ∀ a ∈ (f m).touched, region a
  unchanged : ∀ a, ¬ region a → (f m).image a = m a
  blind : ∀ m', (∀ a, region a → m a = m' a) → (f m').ret = (f m).ret ∧ (f m').buffer = (f m).buffer ∧
    ∀ a, region a → (f m').image a = (f m).image a

/-- The layers agree, and both stay in the slots. -/
structure TableLaw (op : TableOp) (m : Mem) (bs : Option BlockStore) (blockId : ℕ) (buffer : Option Mem) : Prop where
  sameRet : (tableAccess op bs blockId buffer m).ret = (storeAccess op bs blockId buffer m).ret
  sameBuffer : (tableAccess op bs blockId buffer m).buffer = (storeAccess op bs blockId buffer m).buffer
  sameImage : (tableAccess op bs blockId buffer m).image = (storeAccess op bs blockId buffer m).image
  table : ∀ b ∈ bs, Within (tableAccess op bs blockId buffer) m (op.slots b)
  store : ∀ b ∈ bs, Within (storeAccess op bs blockId buffer) m (op.slots b)

/-- The id behind the last slot, in a call that is not turned down for another reason. -/
def OneTooFar (op : TableOp) (bs : Option BlockStore) (blockId : ℕ) (buffer : Option Mem) : Prop :=
  blockId = 256 ∧ op ≠ .fdTest ∧ bs.isSome ∧ (op.hasBuffer → buffer.isSome)

section Layers
variable {m : Mem} {bs : Option BlockStore} {b : BlockStore} {blockId : ℕ} {buffer : Option Mem} {op : TableOp}

theorem Local.within {f : Mem → TableOutcome} {region : ℕ → Prop} (h : Local f) (hin : ∀ a ∈ (f m).touched, region a) :
    Within f m region := by
  refine ⟨hin,fun a ha => h.unchanged m a (fun ht => ha (hin a ht)),fun m' hm => ?_⟩
  obtain ⟨hret,hbuf,htouch,himage⟩ := h.determined m m' (fun a ha => hm a (hin a ha))
  refine ⟨hret,hbuf,fun a ha => ?_⟩
  by_cases ht : a ∈ (f m).touched
  · exact himage a ht
  · rw [h.unchanged m a ht, h.unchanged m' a (htouch ▸ ht), hm a ha]

theorem local_storeAccess : Local (storeAccess op bs blockId buffer) := by
  cases op with
  | inodeRead | fdRead => exact local_withBuffer (fun _ _ => local_copyOut)
  | inodeWrite | fdWrite => exact local_withBuffer (fun _ _ => local_copyBack)
  | inodeRelease | fdRelease => exact local_withStore (fun _ => local_clearBit buffer)
  | fdTest => exact local_withStore (fun _ => local_testBit buffer)

theorem slot_inside {size : ℕ} (hid : blockId ≤ 255) : ∀ a ∈ List.range' (b.dataBlocks + blockId * size) size,
    b.dataBlocks ≤ a ∧ a < b.dataBlocks + 256 * size := by
  intro a ha
  have hin := List.mem_range'_1.mp ha
  have hle : blockId * size + size ≤ 256 * size := by
    rw [← Nat.succ_mul]
    exact Nat.mul_le_mul_right size (by omega)
  omega

theorem bit_inside (hid : blockId ≤ 255) : ∀ a ∈ [b.fbm.data + blockId >>> 3],
    b.fbm.data ≤ a ∧ a < b.fbm.data + 32 := by
  intro a ha
  rw [List.mem_singleton.mp ha, bit_byte]
  omega

theorem withBuffer_touched {pass : Bool} {access : BlockStore → Mem → TableOutcome} {P : ℕ → Prop}
    (h : pass = true → ∀ bytes, ∀ a ∈ (access b bytes).touched, P a) :
    ∀ a ∈ (withBuffer m (some b) buffer pass access).touched, P a := by
  intro a ha
  cases buffer with
  | none => cases ha
  | some bytes =>
    rw [withBuffer] at ha
    split_ifs at ha with hp
    · exact h hp bytes a ha
    · cases ha

theorem withStore_touched {pass : Bool} {access : BlockStore → TableOutcome} {P : ℕ → Prop}
    (h : pass = true → ∀ a ∈ (access b).touched, P a) :
    ∀ a ∈ (withStore m (some b) buffer pass access).touched, P a := by
  intro a ha
  rw [withStore] at ha
  split_ifs at ha with hp
  · exact h hp a ha
  · cases ha

/-- The accessors of `block_store.c` turn down every id from 256 on. -/
theorem storeAccess_touched (hb : b ∈ bs) :
    ∀ a ∈ (storeAccess op bs blockId buffer m).touched, op.slots b a := by
  obtain rfl : bs = some b := hb
  have hlt : decide (blockId < 256) = true → blockId ≤ 255 := fun hp => Nat.le_of_lt_succ (of_decide_eq_true hp)
  have hle : decide (blockId ≤ 255) = true → blockId ≤ 255 := of_decide_eq_true
  have hgt : (!decide (blockId > 255)) = true → blockId ≤ 255 := by
    rw [Bool.not_eq_true', decide_eq_false_iff_not]
    exact Nat.not_lt.mp
  cases op with
  | inodeRead | fdRead => exact withBuffer_touched (fun hp _ => slot_inside (hle hp))
  | inodeWrite | fdWrite => exact withBuffer_touched (fun hp _ => slot_inside (hlt hp))
  | inodeRelease | fdRelease => exact withStore_touched (fun hp => bit_inside (hlt hp))
  | fdTest => exact withStore_touched (fun hp => bit_inside (hgt hp))

theorem withBuffer_congr {pass pass' : Bool} {access : BlockStore → Mem → TableOutcome} (h : pass = pass') :
    withBuffer m bs buffer pass access = withBuffer m bs buffer pass' access := by rw [h]

theorem withStore_congr {pass pass' : Bool} {access : BlockStore → TableOutcome} (h : pass = pass') :
    withStore m bs buffer pass access = withStore m bs buffer pass' access := by rw [h]

/-- The checks pass the same ids but for 256. -/
theorem tableAccess_eq (h : blockId ≠ 256 ∨ op = .fdTest) :
    tableAccess op bs blockId buffer = storeAccess op bs blockId buffer := by
  have hlt : op ≠ .fdTest → (!decide (blockId > 256)) = decide (blockId < 256) := by
    intro hop
    have hne := h.resolve_right hop
    rw [← decide_not]
    exact decide_eq_decide.mpr (by omega)
  have hle : op ≠ .fdTest → (!decide (blockId > 256)) = decide (blockId ≤ 255) := by
    intro hop
    rw [hlt hop]
    exact decide_eq_decide.mpr (by omega)
  have htest : (!decide (blockId ≥ 256)) = !decide (blockId > 255) :=
    congrArg Bool.not (decide_eq_decide.mpr (by omega))
  funext m
  cases op with
  | inodeRead | fdRead => exact withBuffer_congr (hle (by decide))
  | inodeWrite | fdWrite => exact withBuffer_congr (hlt (by decide))
  | inodeRelease | fdRelease => exact withStore_congr (hlt (by decide))
  | fdTest => exact withStore_congr htest

/-- Where a `NULL` turns both layers down, they agree. -/
theorem tableAccess_null (h : bs = none ∨ op.hasBuffer = true ∧ buffer = none) :
    tableAccess op bs blockId buffer = storeAccess op bs blockId buffer := by
  funext m
  rcases h with rfl | ⟨hop,rfl⟩
  · cases op <;> rfl
  · cases bs <;> cases op <;> first | rfl | cases hop

theorem tableLaw_of_eq (h : tableAccess op bs blockId buffer = storeAccess op bs blockId buffer) :
    TableLaw op m bs blockId buffer := by
  have hstore : ∀ b ∈ bs, Within (storeAccess op bs blockId buffer) m (op.slots b) :=
    fun b hb => local_storeAccess.within (storeAccess_touched hb)
  refine ⟨by rw [h],by rw [h],by rw [h],?_,hstore⟩
  rw [h]
  exact hstore

end Layers

/-- For every memory, store, id and buffer: an accessor of the one layer and its counterpart agree and stay in the slots
if and only if the id is not 256 where the table's layer goes on with it. -/
theorem table_layers (op : TableOp) (m : Mem) (bs : Option BlockStore) (blockId : UInt64) (buffer : Option Mem) :
    TableLaw op m bs blockId.toNat buffer ↔ ¬ OneTooFar op bs blockId.toNat buffer := by
  constructor
  · rintro h ⟨hid,hop,hbs,hbuf⟩
    obtain ⟨b,rfl⟩ := Option.isSome_iff_exists.mp hbs
    by_cases hb : op.hasBuffer = true
    · -- the record at 256 is copied by the one layer, and the other returns 0
      obtain ⟨bytes,rfl⟩ := Option.isSome_iff_exists.mp (hbuf hb)
      have hret := h.sameRet
      rw [hid] at hret
      cases op with
      | inodeRead | inodeWrite => exact absurd (show 64 = 0 from hret) (by decide)
      | fdRead | fdWrite => exact absurd (show 6 = 0 from hret) (by decide)
      | inodeRelease | fdRelease | fdTest => cases hb
    · -- the bit at 256 is in the byte behind the bitmap
      have htouched := (h.table b rfl).touched (b.fbm.data + 32)
      rw [hid] at htouched
      cases op with
      | inodeRead | inodeWrite | fdRead | fdWrite => exact hb rfl
      | inodeRelease | fdRelease =>
        have hin : b.fbm.data ≤ b.fbm.data + 32 ∧ b.fbm.data + 32 < b.fbm.data + 32 := htouched List.mem_cons_self
        omega
      | fdTest => exact hop rfl
  · intro h
    by_cases hsame : blockId.toNat ≠ 256 ∨ op = .fdTest
    · exact tableLaw_of_eq (tableAccess_eq hsame)
    · push Not at hsame
      refine tableLaw_of_eq (tableAccess_null ?_)
      by_contra hno
      push Not at hno
      refine h ⟨hsame.1,hsame.2,Option.isSome_iff_ne_none.mpr hno.1,fun hop => ?_⟩
      exact Option.isSome_iff_ne_none.mpr (hno.2 hop)

/-- A record written under the id 256 lies in block 17, the first behind the inode table. -/
theorem table_layers_fail : (¬ ∀ (op : TableOp) (m : Mem) (bs : Option BlockStore) (blockId : UInt64)
      (buffer : Option Mem), TableLaw op m bs blockId.toNat buffer) ∧
    (inodeTableWrite fsFormat.image (some inodeStore) 256 (some (fun _ => 0xff))).image (17 * 1024) = 0xff ∧
    fsFormat.image (17 * 1024) = 0 := by
  refine ⟨fun h => ?_,by decide +kernel,by decide +kernel⟩
  have hret := (h .inodeWrite fsFormat.image (some inodeStore) 256 (some (fun _ => 0xff))).sameRet
  exact absurd (show 64 = 0 from hret) (by decide)

end LiteOSFS
