import LiteOSFS.FileSystem.Descriptors

/-! # The law of fs_seek

The position of a cursor is rebuilt by `getPreviosOffset` and cut by
`cutBoundary`, which takes the file size as an `int`; the result is the position
asked for under `SeekExact` and in no other case.
-/
namespace LiteOSFS
open Memory CString Transition

/-- Where a seek starts from. -/
def seekBase (d : FileDescriptor) (fileSize : ℕ) : SeekT → ℤ
  | .cur => d.position
  | .tail => fileSize
  | _ => 0

/-- What `FS_SEEK_CUR` drops of a position inside a block other than the first. -/
def droppedBytes (d : FileDescriptor) (whence : SeekT) : ℤ :=
  if whence = .cur ∧ d.locateOrder.toNat ≠ 0 ∧ d.locateOffset.toNat ≠ 0 then 1024 else 0

/-- The target lies before the file, or it is cut to less than 64 MiB, stays in the range of `off_t`, nothing
of the position is dropped (or the end of the file is reached all the same), and the file size fits an `int`
(or its low 32 bits, as an `int`, are at least the target). -/
def SeekExact (fileSize : ℕ) (target dropped : ℤ) : Prop :=
  target ≤ 0 ∨
    (min target fileSize < 65536 * 1024 ∧ target - dropped < 2 ^ 63 ∧
      ((fileSize < 2 ^ 31 ∧ (dropped = 0 ∨ fileSize = 0 ∨ fileSize ≤ target - dropped)) ∨
        (dropped = 0 ∧ target ≤ (fileSize : ℤ).bmod (2 ^ 32))))

theorem getPreviosOffset_eq (d : FileDescriptor) : (getPreviosOffset d : ℤ) = d.position - droppedBytes d .cur := by
  have hp : d.position = d.locateOrder.toNat * 1024 + d.locateOffset.toNat := rfl
  unfold getPreviosOffset droppedBytes
  simp only [true_and]
  split_ifs <;> omega

theorem cutBoundary_exact {fileSize : ℕ} {target dropped : ℤ} (hd : dropped = 0 ∨ dropped = 1024)
    (hcut : min target fileSize < 65536 * 1024) (hlt : target - dropped < 2 ^ 63) :
    cutBoundary fileSize (target - dropped) = max 0 (min target fileSize) ↔ SeekExact fileSize target dropped := by
  unfold cutBoundary SeekExact
  simp only [Int.bmod]
  generalize hf : (if (fileSize : ℤ) % ((2 ^ 32 : ℕ) : ℤ) < (((2 ^ 32 : ℕ) : ℤ) + 1) / 2 then (fileSize : ℤ) % ((2 ^ 32 : ℕ) : ℤ)
    else (fileSize : ℤ) % ((2 ^ 32 : ℕ) : ℤ) - ((2 ^ 32 : ℕ) : ℤ)) = f
  have hsmall : fileSize < 2 ^ 31 → f = fileSize := by
    intro hs
    rw [← hf]
    split_ifs <;> omega
  have hle : f ≤ fileSize := by
    rw [← hf]
    split_ifs <;> omega
  split_ifs <;> omega

theorem seekExact_iff {fileSize v : ℕ} {target dropped : ℤ} (hv : (v : ℤ) = max 0 (min target fileSize))
    (hd : dropped = 0 ∨ dropped = 1024) :
    (v < 65536 * 1024 ∧ target - dropped < 2 ^ 63 ∧ cutBoundary fileSize (target - dropped) = v) ↔
      SeekExact fileSize target dropped := by
  constructor
  · rintro ⟨hlt,hrange,hc⟩
    exact (cutBoundary_exact hd (by omega) hrange).mp (hc.trans hv)
  · intro he
    have hb : min target fileSize < 65536 * 1024 ∧ target - dropped < 2 ^ 63 := by
      rcases he with h0 | ⟨hcut,hrange,_⟩
      · omega
      · exact ⟨hcut,hrange⟩
    exact ⟨by omega,hb.2,((cutBoundary_exact hd hb.1 hb.2).mpr he).trans hv.symm⟩

/-- A target past the range of `off_t` counts from the other end of it. -/
theorem cutBoundary_wrapped {fileSize v : ℕ} {offset : ℤ} (hv : (v : ℤ) = max 0 (min (fileSize + offset) fileSize))
    (hs : fileSize < 2 ^ 64) (hlo : -2 ^ 63 ≤ offset) (hhi : offset < 2 ^ 63) :
    (v < 65536 * 1024 ∧ cutBoundary fileSize ((offset + fileSize).bmod (2 ^ 64)) = v) ↔
      v < 65536 * 1024 ∧ (fileSize + offset : ℤ) - 0 < 2 ^ 63 ∧ cutBoundary fileSize (fileSize + offset - 0) = v := by
  by_cases hr : (fileSize + offset : ℤ) < 2 ^ 63
  · have hb : (offset + fileSize).bmod (2 ^ 64) = fileSize + offset - 0 := by
      simp only [Int.bmod]
      split_ifs <;> omega
    rw [hb]
    exact ⟨fun h => ⟨h.1,by omega,h.2⟩,fun h => ⟨h.1,h.2.2⟩⟩
  · have hb : (offset + fileSize).bmod (2 ^ 64) = offset + fileSize - 2 ^ 64 := by
      simp only [Int.bmod]
      split_ifs <;> omega
    rw [hb]
    refine ⟨fun ⟨hlt,hc⟩ => ?_,fun h => absurd h.2.1 (by omega)⟩
    have hneg : offset + fileSize - 2 ^ 64 ≤ 0 := by omega
    rw [cutBoundary, if_pos hneg] at hc
    omega

/-- The cursor after a seek. -/
theorem seek_iff {s : F19FS} {fd : ℤ} (h : s.Opened fd) (offset : Int64) {whence : SeekT} (hw : whence ≠ .invalid)
    {size v : ℕ} (hsize : size = (s.inode (s.descriptor fd.toNat).inodeNum.toNat).fileSize.toNat) :
    (∃ s', fsSeek s fd offset whence = some ((v : ℤ),s') ∧ (s'.descriptor fd.toNat).position = v ∧
      (s'.descriptor fd.toNat).locateOffset.toNat < 1024) ↔
    v < 65536 * 1024 ∧ (seekTarget (s.descriptor fd.toNat) size offset.toInt whence).map (cutBoundary size) = some (v : ℤ) := by
  rw [fsSeek_opened h offset hw, ← hsize]
  have hd : ∀ d, (s.storeDescriptor fd.toNat d).descriptor fd.toNat = d := by
    intro d
    rw [storeDescriptor_eq h.lt, descriptor_putDescriptor, if_pos rfl]
  have hz : (s.descriptor fd.toNat).rewound.locateOffset.toNat ≤ 1024 := by simp [FileDescriptor.rewound]
  have hp : (s.descriptor fd.toNat).rewound.position = 0 := by simp [FileDescriptor.rewound, FileDescriptor.position]
  constructor
  · rintro ⟨s',hs,hpos,_⟩
    obtain ⟨t,ht,he⟩ := Option.map_eq_some_iff.mp hs
    obtain ⟨hv,rfl⟩ := Prod.mk.inj he
    rw [hd, hv, updateFD_position hz, hp] at hpos
    exact ⟨by omega,Option.map_eq_some_iff.mpr ⟨t,ht,hv⟩⟩
  · rintro ⟨hlt,hv⟩
    obtain ⟨t,ht,hv⟩ := Option.map_eq_some_iff.mp hv
    refine ⟨_,Option.map_eq_some_iff.mpr ⟨t,ht,Prod.ext hv rfl⟩,?_,?_⟩
    · rw [hd, hv, updateFD_position hz, hp, Nat.zero_add, Nat.mod_eq_of_lt hlt]
    · rw [hd, hv]
      exact updateFD_offset hz v

/-- `fs_seek` returns the target cut to the file and stands there, exactly when `SeekExact`. -/
theorem seek_law {s : F19FS} {fd : ℤ} (h : s.Opened fd) (offset : Int64) {whence : SeekT} (hw : whence ≠ .invalid)
    {d : FileDescriptor} {size : ℕ} (hd : d = s.descriptor fd.toNat) (hs : size = (s.inode d.inodeNum.toNat).fileSize.toNat) :
    (∃ v s', v = max 0 (min (seekBase d size whence + offset.toInt) size) ∧ fsSeek s fd offset whence = some (v,s') ∧
      (s'.descriptor fd.toNat).position = v ∧ (s'.descriptor fd.toNat).locateOffset.toNat < 1024) ↔
    SeekExact size (seekBase d size whence + offset.toInt) (droppedBytes d whence) := by
  subst hd
  generalize hd : s.descriptor fd.toNat = d at *
  have hlo := offset.le_toInt
  have hhi := offset.toInt_lt
  generalize ht : seekBase d size whence + offset.toInt = target
  obtain ⟨v,hv⟩ : ∃ v : ℕ, (v : ℤ) = max 0 (min target size) := ⟨(max 0 (min target size)).toNat,by omega⟩
  have hsize : size = (s.inode (s.descriptor fd.toNat).inodeNum.toNat).fileSize.toNat := by rw [hd, hs]
  have hiff := seek_iff h offset hw (v := v) hsize
  rw [hd] at hiff
  have hleft : (∃ v s', v = max 0 (min target size) ∧ fsSeek s fd offset whence = some (v,s') ∧
      ((s'.descriptor fd.toNat).position : ℤ) = v ∧ (s'.descriptor fd.toNat).locateOffset.toNat < 1024) ↔
      (∃ s', fsSeek s fd offset whence = some ((v : ℤ),s') ∧ (s'.descriptor fd.toNat).position = v ∧
      (s'.descriptor fd.toNat).locateOffset.toNat < 1024) := by
    constructor
    · rintro ⟨w,s',hw,he,hp,hlt⟩
      obtain rfl : w = v := hw.trans hv.symm
      exact ⟨s',he,by exact_mod_cast hp,hlt⟩
    · rintro ⟨s',he,hp,hlt⟩
      exact ⟨v,s',hv,he,by exact_mod_cast hp,hlt⟩
  rw [hleft, hiff]
  cases whence with
  | set =>
    have h0 : target = offset.toInt := by simpa [seekBase] using ht.symm
    have hdrop : droppedBytes d .set = 0 := if_neg (by simp)
    rw [hdrop, ← seekExact_iff hv (Or.inl rfl), seekTarget, Option.map_some, Option.some.injEq, h0, sub_zero]
    exact ⟨fun h => ⟨h.1,hhi,h.2⟩,fun h => ⟨h.1,h.2.2⟩⟩
  | cur =>
    have hdrop : droppedBytes d .cur = 0 ∨ droppedBytes d .cur = 1024 := by
      unfold droppedBytes
      split_ifs
      · exact Or.inr rfl
      · exact Or.inl rfl
    have hsum : offset.toInt + (getPreviosOffset d : ℤ) = target - droppedBytes d .cur := by
      rw [getPreviosOffset_eq, ← ht, seekBase]
      ring
    rw [← seekExact_iff hv hdrop, seekTarget]
    simp only [hsum]
    by_cases hr : target - droppedBytes d .cur < 2 ^ 63
    · rw [if_pos hr, Option.map_some, Option.some.injEq]
      exact ⟨fun h => ⟨h.1,hr,h.2⟩,fun h => ⟨h.1,h.2.2⟩⟩
    · rw [if_neg hr]
      exact ⟨fun h => absurd h.2 (by simp),fun h => absurd h.2.1 hr⟩
  | tail =>
    have h0 : droppedBytes d .tail = 0 := if_neg (by simp)
    rw [h0, ← seekExact_iff hv (Or.inl rfl), seekTarget, Option.map_some, Option.some.injEq, ← ht, seekBase]
    rw [← ht, seekBase] at hv
    exact cutBoundary_wrapped hv (hs ▸ UInt64.toNat_lt _) hlo hhi
  | invalid => exact absurd rfl hw

/-- After a write of 1500 bytes the position is 1500, and `fs_seek` by 0 from there goes to 476. -/
def unalignedRun : List Call :=
  [.create (pathArg ['/','a']) .regular,.openFile (pathArg ['/','a']),.write 0 (some zeros) 1500]

theorem unalignedRun_state : ∃ s, run step fsFormat unalignedRun = some s ∧ s.Opened 0 ∧ (s.descriptor 0).inodeNum = 1 ∧
    (s.inode 1).fileSize = 1500 ∧ (s.descriptor 0).position = 1500 ∧ droppedBytes (s.descriptor 0) .cur = 1024 := by
  have hrun : (run step fsFormat unalignedRun).map (fun s : F19FS => s.isOpen 0 &&
      decide ((s.descriptor 0).inodeNum = 1 ∧ (s.inode 1).fileSize = 1500 ∧ (s.descriptor 0).position = 1500 ∧
        droppedBytes (s.descriptor 0) .cur = 1024)) = some true := by decide +kernel
  obtain ⟨s,hs,hf⟩ := Option.map_eq_some_iff.mp hrun
  simp only [Bool.and_eq_true, decide_eq_true_eq] at hf
  exact ⟨s,hs,⟨le_rfl,by decide,hf.1⟩,hf.2⟩

/-- From the start to 1100, inside the second block; but by -400 from the position, which goes there too, it does not. -/
theorem seek_law_inside : ∃ s s', run step fsFormat unalignedRun = some s ∧ fsSeek s 0 1100 .set = some (1100,s') ∧
    (s'.descriptor 0).position = 1100 ∧ ∀ s'', fsSeek s 0 (-400) .cur = some (1100,s'') →
      ¬ ((s''.descriptor 0).position = (1100 : ℤ) ∧ (s''.descriptor 0).locateOffset.toNat < 1024) := by
  obtain ⟨s,hs,ho,hnum,hsize,hpos,hdrop⟩ := unalignedRun_state
  have h0 : 1500 = (s.inode (s.descriptor (0 : ℤ).toNat).inodeNum.toNat).fileSize.toNat := by
    rw [show (s.descriptor (0 : ℤ).toNat).inodeNum = 1 from hnum]
    exact (congrArg UInt64.toNat hsize).symm
  have hset : seekBase (s.descriptor (0 : ℤ).toNat) 1500 .set + (1100 : Int64).toInt = 1100 :=
    show (0 : ℤ) + (1100 : Int64).toInt = 1100 by decide
  have hnone : droppedBytes (s.descriptor (0 : ℤ).toNat) .set = 0 := if_neg (fun h => nomatch h.1)
  have hstart := seek_law ho 1100 (show SeekT.set ≠ .invalid by simp) rfl h0
  rw [hset, hnone] at hstart
  obtain ⟨v,s',hv,he,hp,_⟩ := hstart.mpr (Or.inr ⟨by decide,by decide,Or.inl ⟨by decide,Or.inl rfl⟩⟩)
  obtain rfl : v = 1100 := hv.trans (by decide)
  refine ⟨s,s',hs,he,by exact_mod_cast hp,fun s'' he'' hp'' => ?_⟩
  have hbase : seekBase (s.descriptor 0) 1500 .cur + (-400 : Int64).toInt = 1100 := by
    rw [seekBase, hpos]
    decide
  have hexact := (seek_law ho (-400) (show SeekT.cur ≠ .invalid by simp) rfl h0).mp
    ⟨1100,s'',by rw [show (0 : ℤ).toNat = 0 from rfl, hbase]; decide,he'',hp''⟩
  rw [show (0 : ℤ).toNat = 0 from rfl, hbase, hdrop] at hexact
  rcases hexact with h | ⟨_,_,⟨_,h | h | h⟩ | ⟨h,_⟩⟩ <;> omega

theorem seek_not_exact : ¬ ∀ s, Reach step (fun _ _ => True) fsFormat s → ∀ (fd : ℤ) (offset : Int64) whence,
    s.Opened fd → whence ≠ .invalid →
    (fsSeek s fd offset whence).map Prod.fst = some (max 0 (min
      (seekBase (s.descriptor fd.toNat) (s.inode (s.descriptor fd.toNat).inodeNum.toNat).fileSize.toNat whence +
        offset.toInt) (s.inode (s.descriptor fd.toNat).inodeNum.toNat).fileSize.toNat)) := by
  intro h
  obtain ⟨s,hs,ho,hnum,hsize,hpos,_⟩ := unalignedRun_state
  have hseek : (run step fsFormat unalignedRun).map (fun s : F19FS => (fsSeek s 0 0 .cur).map Prod.fst) = some (some 476) := by
    decide +kernel
  rw [hs, Option.map_some] at hseek
  have he := h s (reach_of_run hs) 0 0 .cur ho (by simp)
  rw [Option.some.inj hseek, show (0 : ℤ).toNat = 0 from rfl, hnum, show (1 : UInt8).toNat = 1 from rfl, hsize, seekBase,
    hpos] at he
  exact absurd he (by decide)

end LiteOSFS
