import LiteOSFS.Properties.BlockAllocator
import LiteOSFS.FileSystem.RelocateEffect

/-! # Data writes and free counts of the block stores

The blocks and the free-block bitmap are regions of one image. A write through
`block_store_write` stays in its block, and a block keeps what was written last;
but the range check also admits id 65528, whose block is the start of the bitmap.
The free count is the number of allocations left only for the whole store, since
`block_store_get_free_blocks` takes every store to have 65528 blocks.
-/
namespace LiteOSFS
open Memory Transition

/-- A call on the store with what it is given: a write, or a call of the allocator. -/
inductive DataCall where
  | write (id : ℕ) (buffer : Mem)
  | pool (c : StoreCall)

def dataAfter (m : Mem) : DataCall → Mem
  | .write id buffer => (blockStoreWrite m wholeStore id buffer).2
  | .pool c => storeAfter m c

/-- The 1024 bytes written last under each id. -/
def latestAfter (latest : ℕ → Mem) : DataCall → ℕ → Mem
  | .write id buffer => Function.update latest id (window buffer 0 1024)
  | .pool _ => latest

def dataStep (s : Mem × (ℕ → Mem)) (c : DataCall) : Option (Mem × (ℕ → Mem)) :=
  some (dataAfter s.1 c,latestAfter s.2 c)

/-- Either nothing is written, or the one block, and no bit of the bitmap. -/
def WriteLaw (m : Mem) (id : ℕ) (buffer : Mem) : Prop :=
  blockStoreWrite m wholeStore id buffer = (0,m) ∨
  (blockStoreWrite m wholeStore id buffer).1 = 1024 ∧
    (∀ a, a < id * 1024 ∨ id * 1024 + 1024 ≤ a → (blockStoreWrite m wholeStore id buffer).2 a = m a) ∧
    ∀ j < 65528, used (blockStoreWrite m wholeStore id buffer).2 j = used m j

section Writes
variable {m : Mem} {id : ℕ} {buffer : Mem}

theorem blockStoreWrite_past (h : 65528 < id) : blockStoreWrite m wholeStore id buffer = (0,m) := if_neg (by omega)

theorem writeLaw_of_bits (h : id ≤ 65528) (hb : ∀ j < 65528, used (putBlock m id buffer) j = used m j) :
    WriteLaw m id buffer := by
  rw [WriteLaw, blockStoreWrite_data h]
  exact Or.inr ⟨rfl,fun _ ha => copyIn_outside ha,hb⟩

theorem byte_eq_of_testBit {v w : UInt8} (h : ∀ k < 8, v.toNat.testBit k = w.toNat.testBit k) : v = w := by
  apply UInt8.toNat_inj.mp
  apply Nat.eq_of_testBit_eq
  intro k
  by_cases hk : k < 8
  · exact h k hk
  · have hle : 2 ^ 8 ≤ 2 ^ k := Nat.pow_le_pow_right (by omega) (by omega)
    rw [Nat.testBit_lt_two_pow (v.toNat_lt.trans_le hle), Nat.testBit_lt_two_pow (w.toNat_lt.trans_le hle)]

/-- At the id past the last block the bits written are the first 8192 of the bitmap. -/
theorem used_putBlock_bitmap {j : ℕ} (hj : j < 8192) :
    used (putBlock m 65528 buffer) j = (buffer (j / 8)).toNat.testBit (j % 8) := by
  have ha : wholeStore.fbm.data + j / 8 = 65528 * 1024 + j / 8 := rfl
  rw [used, bitmapTest_eq, ha, putBlock, copyIn_inside (by omega) (by omega), Nat.add_sub_cancel_left]

theorem used_eq_testBit (j : ℕ) : used m j = (m (65528 * 1024 + j / 8)).toNat.testBit (j % 8) := bitmapTest_eq _ _ _

theorem writeLaw_bitmap : WriteLaw m 65528 buffer ↔ ∀ i < 1024, buffer i = m (65528 * 1024 + i) := by
  constructor
  · intro h i hi
    have hbits : ∀ j < 65528, used (putBlock m 65528 buffer) j = used m j := by
      rw [WriteLaw, blockStoreWrite_data le_rfl] at h
      rcases h with h | ⟨_,_,h⟩
      · cases h
      · exact h
    apply byte_eq_of_testBit
    intro k hk
    have hu := hbits (8 * i + k) (by omega)
    rwa [used_putBlock_bitmap (by omega), used_eq_testBit, show (8 * i + k) / 8 = i by omega,
      show (8 * i + k) % 8 = k by omega] at hu
  · intro h
    apply writeLaw_of_bits le_rfl
    have hsame : putBlock m 65528 buffer = m := copyIn_eq_self h
    intro j _
    rw [hsame]

theorem writeLaw_iff : WriteLaw m id buffer ↔ (id = 65528 → ∀ i < 1024, buffer i = m (65528 * 1024 + i)) := by
  rcases Nat.lt_trichotomy id 65528 with hlt | rfl | hgt
  · refine iff_of_true (writeLaw_of_bits hlt.le (fun j hj => ?_)) (fun he => absurd he hlt.ne)
    exact used_congr (copyIn_agreeOn (Or.inl (by omega))) (by omega)
  · exact writeLaw_bitmap.trans ⟨fun h _ => h,fun h => h rfl⟩
  · exact iff_of_true (Or.inl (blockStoreWrite_past hgt)) (fun he => absurd he hgt.ne')

/-- A call of the allocator changes the bitmap only. -/
theorem blockAt_storeAfter (c : StoreCall) (hid : id < 65528) : blockAt (storeAfter m c) id = blockAt m id := by
  have hset : ∀ j, blockAt (setUsed m j) id = blockAt m id :=
    fun j => blockAt_congr (setUsed_agreeOn m j (by omega))
  cases c with
  | allocate =>
    rw [storeAfter, blockStoreAllocate_whole]
    split_ifs
    · rfl
    · exact hset _
  | request j =>
    rw [storeAfter]
    by_cases hj : j ≤ 65528
    · rw [blockStoreRequest_whole hj]
      split_ifs
      · rfl
      · exact hset _
    · rw [blockStoreRequest_past (by omega)]
  | release j =>
    rw [storeAfter]
    by_cases hj : j ≤ 65528
    · rw [blockStoreRelease_whole hj]
      split_ifs
      · exact blockAt_congr (clearUsed_agreeOn m j (by omega))
      · rfl
    · rw [blockStoreRelease_past (by omega)]

/-- Every block holds what was written to it last. -/
def Latest (m : Mem) (latest : ℕ → Mem) : Prop := ∀ id < 65528, blockAt m id = latest id

theorem latest_create : Latest blockStoreCreate (fun _ => zeros) := by
  intro id hid
  funext k
  rw [blockAt, window]
  split_ifs with hk
  · exact if_neg (by omega)
  · rfl

theorem Latest.step {latest : ℕ → Mem} (h : Latest m latest) (c : DataCall) :
    Latest (dataAfter m c) (latestAfter latest c) := by
  intro id hid
  cases c with
  | write j b =>
    rw [dataAfter, latestAfter]
    by_cases hj : j ≤ 65528
    · rw [blockStoreWrite_data hj]
      by_cases he : id = j
      · rw [he, Function.update_self]
        exact window_copyIn_same _ _ _ _
      · rw [Function.update_of_ne he, ← h id hid]
        exact window_copyIn_of_disjoint (by omega)
    · rw [blockStoreWrite_past (by omega), Function.update_of_ne (by omega), h id hid]
  | pool c => rw [dataAfter, latestAfter, blockAt_storeAfter c hid, h id hid]

end Writes

/-- A write obeys the law but for id 65528, where it must repeat the bytes of the bitmap; and in every
run a block is read as it was written last. -/
theorem data_writes (m : Mem) :
    (∀ id buffer, WriteLaw m id buffer ↔ (id = 65528 → ∀ i < 1024, buffer i = m (65528 * 1024 + i))) ∧
    ∀ latest, Reach dataStep (fun _ _ => True) (blockStoreCreate,fun _ => zeros) (m,latest) →
      ∀ id < blockStoreGetTotalBlocks, blockStoreRead m wholeStore id = some (latest id) := by
  refine ⟨fun id buffer => writeLaw_iff,fun latest h id hid => ?_⟩
  have hl : Latest m latest := by
    refine h.invariant (P := fun s => Latest s.1 s.2) latest_create (fun hp _ hs => ?_)
    cases hs
    exact hp.step _
  have hid' : id < 65528 := hid
  rw [blockStoreRead_data hid'.le, hl id hid']

theorem data_writes_block : ∃ m, dataStep (blockStoreCreate,fun _ => zeros) (.write 3 (fun _ => 7)) =
      some (m,Function.update (fun _ => zeros) 3 (window (fun _ => 7) 0 1024)) ∧
    blockStoreRead m wholeStore 3 = some (window (fun _ => 7) 0 1024) := by
  refine ⟨_,rfl,?_⟩
  have hr := (data_writes _).2 _ (Reach.refl.tail (a := .write 3 (fun _ => 7)) trivial rfl) 3 (by decide)
  rwa [latestAfter, Function.update_self] at hr

/-- Ones written to id 65528 mark 8192 blocks as used. -/
theorem data_writes_fail : ¬ ∀ id buffer, WriteLaw blockStoreCreate id buffer := by
  intro h
  have h₀ := writeLaw_bitmap.mp (h 65528 (fun _ => 0xff)) 0 (by omega)
  exact absurd h₀ (by decide +kernel)

/-- The three makers of block stores; the bitmap and the data of an inode store may lie anywhere. -/
inductive StoreKind where
  | whole
  | inode (bmStartPos dataStartPos : ℕ)
  | fd

def StoreKind.store : StoreKind → BlockStore
  | .whole => wholeStore
  | .inode bmStartPos dataStartPos => ⟨dataStartPos,⟨bmStartPos,256⟩⟩
  | .fd => fdStore

/-- The free count is the number of allocations that can still succeed. -/
structure CountLaw (m : Mem) (bs : BlockStore) : Prop where
  allocate : blockStoreGetFreeBlocks m bs = 0 ↔ (blockStoreAllocate m bs).1 = sizeMax
  subAllocate : blockStoreGetFreeBlocks m bs = 0 ↔ (blockStoreSubAllocate m bs).1 = sizeMax
  count : ∀ k, k < blockStoreGetFreeBlocks m bs ↔ (blockStoreAllocate (allocateTimes m bs k) bs).1 ≠ sizeMax

section Counts
variable {m : Mem} {b : Bitmap} {bs : BlockStore}

theorem bitmapTotalSet_card (m : Mem) (b : Bitmap) :
    bitmapTotalSet m b = ((Finset.range b.bitCount).filter (fun i => bitmapTest m b i = true)).card := by
  rw [bitmapTotalSet_eq, countP_range]

/-- Setting a clear bit raises the count by one. -/
theorem bitmapTotalSet_bitmapSet {i : ℕ} (hi : i < b.bitCount) (hf : bitmapTest m b i = false) :
    bitmapTotalSet (bitmapSet m b i) b = bitmapTotalSet m b + 1 := by
  rw [bitmapTotalSet_card, bitmapTotalSet_card, ← Finset.card_insert_of_notMem (a := i) (by simp [hf])]
  congr 1
  ext j
  simp only [Finset.mem_filter, Finset.mem_insert, Finset.mem_range, bitmapTest_bitmapSet, Bool.or_eq_true,
    decide_eq_true_eq]
  constructor
  · rintro ⟨hj,rfl | ht⟩
    · exact Or.inl rfl
    · exact Or.inr ⟨hj,ht⟩
  · rintro (rfl | ⟨hj,ht⟩)
    · exact ⟨hi,Or.inl rfl⟩
    · exact ⟨hj,Or.inr ht⟩

/-- An allocation succeeds when a bit is clear, and sets one. -/
theorem blockStoreAllocate_count (m : Mem) (hn : bs.fbm.bitCount < sizeMax) :
    ((blockStoreAllocate m bs).1 = sizeMax ↔ bitmapTotalSet m bs.fbm = bs.fbm.bitCount) ∧
    bitmapTotalSet (blockStoreAllocate m bs).2 bs.fbm = min (bitmapTotalSet m bs.fbm + 1) bs.fbm.bitCount := by
  have hle := bitmapTotalSet_le m bs.fbm
  rcases blockStoreAllocate_spec m bs hn with ⟨he,hall⟩ | ⟨id,hlt,he,hf,_⟩
  · have hfull := bitmapTotalSet_eq_full.mpr hall
    rw [he]
    exact ⟨iff_of_true rfl hfull,by dsimp only; omega⟩
  · have hset := bitmapTotalSet_bitmapSet hlt hf
    have hle' := bitmapTotalSet_le (bitmapSet m bs.fbm id) bs.fbm
    rw [he]
    exact ⟨iff_of_false (by dsimp only; omega) (by omega),by dsimp only; omega⟩

theorem bitmapTotalSet_allocateTimes (m : Mem) (hn : bs.fbm.bitCount < sizeMax) (k : ℕ) :
    bitmapTotalSet (allocateTimes m bs k) bs.fbm = min (bitmapTotalSet m bs.fbm + k) bs.fbm.bitCount := by
  induction k with
  | zero => exact (min_eq_left (bitmapTotalSet_le m bs.fbm)).symm
  | succ k ih =>
    rw [allocateTimes, (blockStoreAllocate_count _ hn).2, ih]
    omega

theorem allocate_succeeds (m : Mem) (hn : bs.fbm.bitCount < sizeMax) (k : ℕ) :
    (blockStoreAllocate (allocateTimes m bs k) bs).1 ≠ sizeMax ↔
      k < bs.fbm.bitCount - bitmapTotalSet m bs.fbm := by
  rw [Ne, (blockStoreAllocate_count _ hn).1, bitmapTotalSet_allocateTimes m hn]
  have hle := bitmapTotalSet_le m bs.fbm
  omega

theorem countLaw_iff (m : Mem) (bs : BlockStore) (hn : bs.fbm.bitCount ≤ 65528) : CountLaw m bs ↔ bs.fbm.bitCount = 65528 := by
  have hlt : bs.fbm.bitCount < sizeMax := by
    unfold sizeMax
    omega
  have hle := bitmapTotalSet_le m bs.fbm
  have hfree : blockStoreGetFreeBlocks m bs = 65528 - bitmapTotalSet m bs.fbm := rfl
  constructor
  · intro h
    have hk := (h.count (bs.fbm.bitCount - bitmapTotalSet m bs.fbm)).trans (allocate_succeeds m hlt _)
    rw [hfree] at hk
    omega
  · intro he
    have hz : blockStoreGetFreeBlocks m bs = 0 ↔ (blockStoreAllocate m bs).1 = sizeMax := by
      rw [(blockStoreAllocate_count m hlt).1, hfree]
      omega
    refine ⟨hz,hz,fun k => ?_⟩
    rw [allocate_succeeds m hlt, hfree, he]

end Counts

/-- The count is right for the whole store only. The check of `fs_create2` for free inodes never fires, so
it is right unless the table is full. -/
theorem free_count (k : StoreKind) (m : Mem) : (CountLaw m k.store ↔ k = .whole) ∧
    ((blockStoreGetFreeBlocks m inodeStore = 0 ↔ ∀ i < 256, inodeUsed m i = true) ↔
      ∃ i < 256, inodeUsed m i = false) := by
  constructor
  · cases k with
    | whole => exact iff_of_true ((countLaw_iff m wholeStore le_rfl).mpr rfl) rfl
    | inode p q =>
      refine iff_of_false (fun h => ?_) (fun h => by cases h)
      have hb : 256 = 65528 := (countLaw_iff m (StoreKind.inode p q).store (by simp [StoreKind.store])).mp h
      omega
    | fd =>
      refine iff_of_false (fun h => ?_) (fun h => by cases h)
      have hb : 256 = 65528 := (countLaw_iff m fdStore (by simp [fdStore])).mp h
      omega
  · rw [iff_false_left (blockStoreGetFreeBlocks_inode m)]
    simp only [not_forall, Bool.not_eq_true, exists_prop]

/-- A new inode store reports 65528 free inodes, and has 256. -/
theorem free_count_fails : ¬ CountLaw fsFormat.image inodeStore := by
  intro h
  have hb : 256 = 65528 := (countLaw_iff fsFormat.image inodeStore (by simp [inodeStore])).mp h
  omega

end LiteOSFS
