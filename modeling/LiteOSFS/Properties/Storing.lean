import LiteOSFS.Properties.FileSize

/-! # What fs_write stores

The bytes of the source stand where the cursor was and the others stay, unless
the write starts inside a fresh direct block, which takes the source from its
start, or the count of the last direct block is dropped at the spill.
-/
namespace LiteOSFS
open Memory CString Transition Ownership

/-- The effect of a write of `r` bytes on the bytes of its file. -/
def WriteStores (s : F19FS) (fd : ℤ) (src : Mem) (r : ℕ) (s' : F19FS) : Prop :=
  (∀ k < r, fileByte s'.image (s'.inode (s.fileOf fd)) ((s.descriptor fd.toNat).position + k) = some (src k)) ∧
  ∀ o < (s.inode (s.fileOf fd)).fileSize.toNat, ∀ v, fileByte s.image (s.inode (s.fileOf fd)) o = some v →
    ¬ ((s.descriptor fd.toNat).position ≤ o ∧ o < (s.descriptor fd.toNat).position + r) →
    fileByte s'.image (s'.inode (s.fileOf fd)) o = some v

/-- The write is safe, its cursor is in its block, a fresh direct block is written from its start if anything is
stored there, and the last direct block is counted. -/
structure StoreGuard (s : F19FS) (fd : ℤ) (nbyte : UInt64) : Prop where
  safe : WriteSafe s fd nbyte
  offset : (s.descriptor fd.toNat).locateOffset.toNat ≤ 1024
  aligned : nbyte = 0 ∨ Aligned s.image (s.inode (s.fileOf fd)) (s.descriptor fd.toNat).locateOrder.toNat
      (s.descriptor fd.toNat).locateOffset.toNat ∨
    (growPath s.image (s.inode (s.fileOf fd)) (pathTo (s.descriptor fd.toNat).locateOrder.toNat)).1 = false
  counted : ¬ SpillDrops s.image (s.inode (s.fileOf fd)) (s.descriptor fd.toNat).locateOrder.toNat
    (s.descriptor fd.toNat).locateOffset.toNat nbyte.toNat

/-- A write whose bytes are in place in the image that the writers leave stores them. -/
theorem WriteDone.stores {s s' : F19FS} {fd : ℤ} {src : Mem} {nbyte : UInt64} {r sum : ℕ} {m' : Mem} {x' : Inode}
    (h : WriteDone s fd src nbyte r sum m' x' s') (hfile : (s.inode (s.fileOf fd)).fileType ≠ typeDirectory)
    (hsum : r = sum)
    (hin : ∀ k < r, fileByte m' x' ((s.descriptor fd.toNat).position + k) = some (src k)) :
    WriteStores s fd src r s' := by
  have hbyte := h.fileByte_eq hfile
  refine ⟨fun k hk => ?_,fun o _ v ho hout => ?_⟩
  · rw [hbyte]
    exact hin k hk
  · rw [hbyte]
    exact h.effect.outside o v ho (hsum ▸ hout)

/-- Every write that meets the guard, in a state reached by safe calls, stores what it was given where its
cursor is. -/
theorem write_law {s s' : F19FS} {fd : ℤ} {src : Mem} {nbyte : UInt64} {r : ℕ} (hs : Reachable s)
    (hg : StoreGuard s fd nbyte) (h : fsWrite s fd (some src) nbyte = some ((r : ℤ),s')) :
    WriteStores s fd src r s' := by
  rcases fsWrite_done hs.inv hg.safe hg.offset h with ⟨hneg,_⟩ | ⟨r',sum,m',x',he,hd⟩
  · omega
  obtain rfl : r = r' := by exact_mod_cast he
  have hfile := (hg.safe hd.opened.1 hd.opened.2.1 hd.opened.2.2).1
  have hsum : r = sum := hd.counted.resolve_right (fun hc => hg.counted hc.1)
  refine hd.stores hfile hsum (fun k hk => hd.effect.inside ?_ k (hsum ▸ hk))
  rcases hg.aligned with h0 | hal | hroom
  · have hle := hd.effect.sumLe
    rw [h0] at hle
    have hz : (0 : UInt64).toNat = 0 := rfl
    omega
  · exact hal
  · have h0 := hd.wrote.sum_of_noRoom hroom
    omega

theorem write_law_first : ∃ (s s' : F19FS) (r : ℕ), run step fsFormat [.create (pathArg ['/','a']) .regular,
    .openFile (pathArg ['/','a'])] = some s ∧ fsWrite s 0 (some zeros) 1500 = some ((r : ℤ),s') ∧
    WriteStores s 0 zeros r s' := by
  have hs : (run step fsFormat [.create (pathArg ['/','a']) .regular,.openFile (pathArg ['/','a'])]).map
      (fun s : F19FS => s.isOpen 0 && decide ((s.descriptor 0).inodeNum = 1 ∧ (s.descriptor 0).locateOrder = 0 ∧
          (s.descriptor 0).locateOffset = 0) && decide ((s.inode 1).fileType = typeRegular) &&
        decide ((fsWrite s 0 (some zeros) 1500).map Prod.fst = some 1500)) = some true := by decide +kernel
  obtain ⟨s,hs,hf⟩ := Option.map_eq_some_iff.mp hs
  simp only [Bool.and_eq_true, decide_eq_true_eq] at hf
  obtain ⟨⟨⟨hopen,hnum,horder,hoffset⟩,hreg⟩,hw⟩ := hf
  obtain ⟨⟨ret,s'⟩,hw,hret⟩ := Option.map_eq_some_iff.mp hw
  obtain rfl : ret = ((1500 : ℕ) : ℤ) := hret
  have hr : Reachable s := reach_of_guarded_run (by simp [Safe]) hs
  have hn : (s.descriptor (0 : ℤ).toNat).inodeNum.toNat = 1 := congrArg UInt8.toNat hnum
  have ho : (s.descriptor (0 : ℤ).toNat).locateOrder.toNat = 0 := congrArg UInt16.toNat horder
  have hf : (s.descriptor (0 : ℤ).toNat).locateOffset.toNat = 0 := congrArg UInt16.toNat hoffset
  refine ⟨s,s',1500,hs,hw,write_law hr ⟨writeSafe_of_low ?_ ?_ ?_,?_,Or.inr (Or.inl (Or.inl hf)),?_⟩ hw⟩
  · rw [hn, hreg]
    decide
  · rw [hf]
    decide
  · rw [ho, hf]
    decide
  · rw [hf]
    decide
  · rintro ⟨_,hlong,_⟩
    rw [ho, hf] at hlong
    exact absurd hlong (by decide)

/-- A thousand bytes are written twice at the start of a file, which then counts 2000 bytes in one block; the next
byte goes to offset 1500. -/
def holeRun : List Call := [.create (pathArg ['/','a']) .regular,.openFile (pathArg ['/','a']),
  .write 0 (some zeros) 1000,.seek 0 0 .set,.write 0 (some zeros) 1000,.seek 0 1500 .set]

/-- A buffer that starts with `v`. -/
def startsWith (v : UInt8) : Mem := fun k => if k = 0 then v else 0

theorem write_not_stored : ¬ ∀ s s' src nbyte (r : ℕ), ∀ fd : ℤ, Reach step (fun _ _ => True) fsFormat s → s.Opened fd →
    (s.inode (s.fileOf fd)).fileType = typeRegular →
    (s.descriptor fd.toNat).position ≤ (s.inode (s.fileOf fd)).fileSize.toNat →
    fsWrite s fd (some src) nbyte = some ((r : ℤ),s') → WriteStores s fd src r s' := by
  have hrun : (run step fsFormat holeRun).bind (fun s : F19FS => (fsWrite s 0 (some (startsWith 7)) 1).map (fun w =>
      s.isOpen 0 && decide ((s.descriptor 0).inodeNum = 1 ∧ (s.descriptor 0).position = 1500) &&
      decide ((s.inode 1).fileType = typeRegular ∧ (s.inode 1).fileSize = 2000) &&
      decide (w.1 = 1 ∧ fileByte w.2.image (w.2.inode 1) 1500 = some 0))) = some true := by decide +kernel
  intro h
  obtain ⟨s,hs,hw⟩ := Option.bind_eq_some_iff.mp hrun
  obtain ⟨⟨ret,s'⟩,hw,hf⟩ := Option.map_eq_some_iff.mp hw
  simp only [Bool.and_eq_true, decide_eq_true_eq] at hf
  obtain ⟨⟨⟨hopen,hnum,hpos⟩,hreg,hsize⟩,rfl,hbyte⟩ := hf
  have hi : (s.fileOf 0).val = 1 := congrArg UInt8.toNat hnum
  have hst := h s s' (startsWith 7) 1 1 0 (reach_of_run hs) ⟨le_rfl,by decide,hopen⟩ (by rw [hi]; exact hreg)
    (by rw [hi, hsize, show (0 : ℤ).toNat = 0 from rfl, hpos]; decide) hw
  have h0 := hst.1 0 Nat.one_pos
  rw [hi, show (0 : ℤ).toNat = 0 from rfl, hpos, Nat.add_zero, hbyte] at h0
  exact absurd h0 (by decide)

end LiteOSFS
