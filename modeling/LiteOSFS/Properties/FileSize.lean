import LiteOSFS.FileSystem.FileCalls

/-! # The file size over a run

`fs_write` adds its count to the size wherever it writes, so the size is the end
of the furthest write as long as every write that stores something starts at the
end of its file.
-/
namespace LiteOSFS
open Memory CString Ownership Transition

/-- The furthest end of a write to inode `i`, after a call with the given return value. -/
def furthest (i : ℕ) (s : F19FS) (high : ℕ) (ret : ℤ) : Call → ℕ
  | .write fd _ _ =>
    if (s.descriptor fd.toNat).inodeNum.toNat = i ∧ 0 < ret then
      max high ((s.descriptor fd.toNat).position + ret.toNat)
    else high
  | _ => high

/-- A step of the file system with the furthest write to inode `i` on the side. -/
def sizeStep (i : ℕ) (q : F19FS × ℕ) (c : Call) : Option (F19FS × ℕ) :=
  (call q.1 c).map (fun r => (r.2,furthest i q.1 q.2 r.1 c))

/-- A write to inode `i` starts at its end, or stores nothing: no byte is to be written, or there is no room for
the first block. -/
def AtEnd (i : ℕ) (s : F19FS) : Call → Prop
  | .write fd _ nbyte => s.Opened fd → (s.descriptor fd.toNat).inodeNum.toNat = i →
    (s.descriptor fd.toNat).locateOffset.toNat ≤ 1024 ∧
    ((s.descriptor fd.toNat).position = (s.inode i).fileSize.toNat ∨ nbyte = 0 ∨
      (growPath s.image (s.inode i) (pathTo (s.descriptor fd.toNat).locateOrder.toNat)).1 = false)
  | _ => True

/-- The calls of the run: the five operations on descriptors, each safe, the writes to inode `i` at its end. -/
def SizeGuard (i : ℕ) (q : F19FS × ℕ) (c : Call) : Prop :=
  (∃ a, c.slot q.1 = some a) ∧ Safe q.1 c ∧ AtEnd i q.1 c

theorem WriteCall.sum_of_noRoom {m m' : Mem} {x x' : Inode} {b off n sum : ℕ} {src : Mem}
    (h : WriteCall m x b off src n sum m' x') (hg : (growPath m x (pathTo b)).1 = false) : sum = 0 := by
  cases h with
  | wrote h =>
    cases h with
    | done => rfl
    | full => rfl
    | step _ _ hok _ =>
      rw [hok] at hg
      cases hg
  | index _ _ hsum _ => exact hsum
  | touch _ _ hsum _ _ => exact hsum

section Size
variable {s s' : F19FS} {fd : ℤ} {src : Mem} {nbyte : UInt64} {r sum : ℕ} {m' : Mem} {x' : Inode} {i : ℕ}

theorem sizeStep_inv {high high' : ℕ} {c : Call} (hi : i < 256) (hinv : ImageInv s.image)
    (hsize : (s.inode i).fileSize.toNat = high) (hbound : high ≤ 67116032) (hg : SizeGuard i (s,high) c)
    (h : sizeStep i (s,high) c = some (s',high')) :
    ImageInv s'.image ∧ (s'.inode i).fileSize.toNat = high' ∧ high' ≤ 67116032 := by
  obtain ⟨⟨a,ha⟩,hsafe,hend⟩ := hg
  obtain ⟨⟨ret,s₁⟩,hc,he⟩ := Option.map_eq_some_iff.mp h
  cases he
  have hinv' := (step_inv hinv hsafe (by rw [step, hc]; rfl)).1
  refine ⟨hinv',?_⟩
  by_cases hw : ∃ fd src n, c = .write fd src n
  swap
  · have hf : furthest i s high ret c = high := by
      cases c <;> first | rfl | exact absurd ⟨_,_,_,rfl⟩ hw
    rw [hf, F19FS.inode, call_image ha (fun fd src n he => hw ⟨fd,src,n,he⟩) hc]
    exact ⟨hsize,hbound⟩
  obtain ⟨fd,src,nbyte,rfl⟩ := hw
  by_cases hfile : (s.fileOf fd).val = i
  swap
  · rw [fsWrite_other hinv hsafe hc hi hfile, furthest, if_neg (fun hn => hfile hn.1)]
    exact ⟨hsize,hbound⟩
  have hstop : ret < 0 → s₁ = s → (s₁.inode i).fileSize.toNat = furthest i s high ret (.write fd src nbyte) ∧
      furthest i s high ret (.write fd src nbyte) ≤ 67116032 := by
    rintro hlt rfl
    rw [furthest, if_neg (by omega)]
    exact ⟨hsize,hbound⟩
  cases src with
  | none =>
    cases hc
    exact hstop (by decide) rfl
  | some src =>
    by_cases ho : s.Opened fd
    swap
    · obtain ⟨r,hr,he⟩ := fsWrite_closed ho (some src) nbyte
      have hcw : fsWrite s fd (some src) nbyte = some (ret,s₁) := hc
      rw [he] at hcw
      cases hcw
      exact hstop hr rfl
    obtain ⟨hoff,hat⟩ := hend ho hfile
    rcases fsWrite_done hinv hsafe hoff hc with ⟨hlt,he,_⟩ | ⟨r,sum,m',x',rfl,hd⟩
    · exact hstop hlt he
    have hb := hd.end_bound hoff
    rw [hd.inode_eq hi, if_pos hfile]
    by_cases hr : r = 0
    · subst hr
      rw [furthest, if_neg (by omega)]
      exact ⟨by rw [← hsize]; exact congrArg UInt64.toNat (UInt64.add_zero _),hbound⟩
    have hpos : (s.descriptor fd.toNat).position = high := by
      have hle := hd.count_le
      rcases hat with hat | hat | hat
      · rw [← hsize, hat]
      · have h0 := hd.effect.sumLe
        rw [hat] at h0
        have hz : (0 : UInt64).toNat = 0 := rfl
        omega
      · have h0 := hd.wrote.sum_of_noRoom (by rw [hfile]; exact hat)
        omega
    have hadd : ((s.inode i).fileSize + UInt64.ofNat r).toNat = high + r := by
      rw [UInt64.toNat_add, UInt64.toNat_ofNat', hsize]
      omega
    rw [furthest, if_pos ⟨hfile,by omega⟩, hadd, hpos, Int.toNat_natCast]
    omega

/-- A write that stores something makes the size the maximum only when it starts at the end. -/
theorem WriteDone.size_max_iff (h : WriteDone s fd src nbyte r sum m' x' s') (hfile : (s.fileOf fd).val = i)
    (hoff : (s.descriptor fd.toNat).locateOffset.toNat ≤ 1024) (hr : 0 < r)
    (hbound : (s.inode i).fileSize.toNat ≤ 67116032) :
    (s'.inode i).fileSize.toNat = max (s.inode i).fileSize.toNat ((s.descriptor fd.toNat).position + r) ↔
      (s.descriptor fd.toNat).position = (s.inode i).fileSize.toNat := by
  have hb := h.end_bound hoff
  have hi : i < 256 := hfile ▸ (s.fileOf fd).isLt
  have hadd : ((s.inode i).fileSize + UInt64.ofNat r).toNat = (s.inode i).fileSize.toNat + r := by
    rw [UInt64.toNat_add, UInt64.toNat_ofNat']
    omega
  rw [h.inode_eq hi, if_pos hfile, hadd]
  omega

end Size

/-- From the creation of a regular file on, its size is the furthest end of a write to it, as long as the
writes to it start at its end or store nothing; a safe write that stores something keeps the law in that
case only. -/
theorem fileSize_law {s₀ s : F19FS} {i high : ℕ} (h0 : Reachable s₀) (hi : i < 256)
    (hnew : (s₀.inode i).fileType = typeRegular ∧ (s₀.inode i).fileSize = 0)
    (h : Reach (sizeStep i) (SizeGuard i) (s₀,0) (s,high)) :
    (s.inode i).fileSize.toNat = high ∧
    ∀ fd src nbyte (r : ℕ) s', (s.descriptor (Int.toNat fd)).inodeNum.toNat = i → WriteSafe s fd nbyte →
      (s.descriptor fd.toNat).locateOffset.toNat ≤ 1024 → fsWrite s fd (some src) nbyte = some ((r : ℤ),s') → 0 < r →
      ((s'.inode i).fileSize.toNat = max (s.inode i).fileSize.toNat ((s.descriptor fd.toNat).position + r) ↔
        (s.descriptor fd.toNat).position = (s.inode i).fileSize.toNat) := by
  have hinv : ImageInv s.image ∧ (s.inode i).fileSize.toNat = high ∧ high ≤ 67116032 := by
    refine h.invariant (P := fun q => ImageInv q.1.image ∧ (q.1.inode i).fileSize.toNat = q.2 ∧ q.2 ≤ 67116032)
      ⟨h0.inv,congrArg UInt64.toNat hnew.2,Nat.zero_le _⟩ (fun hp hg hs => ?_)
    exact sizeStep_inv hi hp.1 hp.2.1 hp.2.2 hg hs
  obtain ⟨hinv,hsize,hbound⟩ := hinv
  refine ⟨hsize,fun fd src nbyte r s' hfile hsafe hoff hw hr => ?_⟩
  rcases fsWrite_done hinv hsafe hoff hw with ⟨hlt,_⟩ | ⟨r',sum,m',x',he,hd⟩
  · omega
  · obtain rfl : r = r' := by exact_mod_cast he
    exact hd.size_max_iff hfile hoff hr (by omega)

/-- Calls that are seen to be as the law needs them. -/
def sizeCheck (i : ℕ) (q : F19FS × ℕ) (c : Call) : Bool := (c.slot q.1).isSome && plain q.1 c &&
  match c with
  | .write fd _ _ => decide ((q.1.descriptor fd.toNat).locateOffset.toNat ≤ 1024 ∧
      (q.1.descriptor fd.toNat).position = (q.1.inode i).fileSize.toNat)
  | _ => true

theorem sizeGuard_of_check (i : ℕ) (q : F19FS × ℕ) (c : Call) (h : sizeCheck i q c = true) : SizeGuard i q c := by
  obtain ⟨h,hc⟩ := Bool.and_eq_true_iff.mp h
  obtain ⟨hslot,hplain⟩ := Bool.and_eq_true_iff.mp h
  refine ⟨Option.isSome_iff_exists.mp hslot,safe_of_plain q.1 c hplain,?_⟩
  cases c with
  | write fd src nbyte =>
    obtain ⟨hoff,hpos⟩ := of_decide_eq_true hc
    exact fun _ _ => ⟨hoff,Or.inl hpos⟩
  | _ => trivial

/-- A file with two descriptors that are written in turn, each at the end of the file; descriptor 0 then stands at its
start. -/
def appendedRun : List Call := [.openFile (pathArg ['/','a']),.openFile (pathArg ['/','a']),.write 0 (some zeros) 10,
  .seek 1 0 .tail,.write 1 (some zeros) 1025,.seek 0 0 .set]

/-- The size is that of both writes, a further write at the end keeps the law, and one at the start breaks it. -/
theorem fileSize_law_appended : ∃ s₀ s s₁ s₂, run step fsFormat [.create (pathArg ['/','a']) .regular] = some s₀ ∧
    run (sizeStep 1) (s₀,0) appendedRun = some (s,1035) ∧ (s.inode 1).fileSize.toNat = 1035 ∧
    fsWrite s 1 (some zeros) 3 = some (3,s₁) ∧
    (s₁.inode 1).fileSize.toNat = max (s.inode 1).fileSize.toNat ((s.descriptor 1).position + 3) ∧
    fsWrite s 0 (some zeros) 3 = some (3,s₂) ∧
    (s₂.inode 1).fileSize.toNat ≠ max (s.inode 1).fileSize.toNat ((s.descriptor 0).position + 3) := by
  have hrun : (run step fsFormat [.create (pathArg ['/','a']) .regular]).bind (fun s₀ : F19FS =>
      (run (checked (sizeCheck 1) (sizeStep 1)) (s₀,0) appendedRun).map (fun q =>
        decide ((s₀.inode 1).fileType = typeRegular ∧ (s₀.inode 1).fileSize = 0 ∧ q.2 = 1035) &&
        (plain q.1 (.write 1 (some zeros) 3) && plain q.1 (.write 0 (some zeros) 3)) &&
        decide ((q.1.descriptor 1).inodeNum.toNat = 1 ∧ (q.1.descriptor 0).inodeNum.toNat = 1 ∧
          (q.1.descriptor 1).locateOffset.toNat ≤ 1024 ∧ (q.1.descriptor 0).locateOffset.toNat ≤ 1024) &&
        decide ((q.1.descriptor 1).position = 1035 ∧ (q.1.descriptor 0).position = 0) &&
        decide ((fsWrite q.1 1 (some zeros) 3).map Prod.fst = some 3 ∧
          (fsWrite q.1 0 (some zeros) 3).map Prod.fst = some 3))) = some true := by decide +kernel
  obtain ⟨s₀,h₀,hrun⟩ := Option.bind_eq_some_iff.mp hrun
  obtain ⟨⟨s,high⟩,hs,hf⟩ := Option.map_eq_some_iff.mp hrun
  simp only [Bool.and_eq_true, decide_eq_true_eq] at hf
  obtain ⟨⟨⟨⟨⟨hreg,h0,rfl⟩,hp₁,hp₀⟩,hfile₁,hfile₀,hoff₁,hoff₀⟩,hend,hstart⟩,hw₁,hw₀⟩ := hf
  obtain ⟨⟨r₁,s₁⟩,hw₁,rfl⟩ := Option.map_eq_some_iff.mp hw₁
  obtain ⟨⟨r₂,s₂⟩,hw₀,rfl⟩ := Option.map_eq_some_iff.mp hw₀
  obtain ⟨hsize,hlaw⟩ := fileSize_law (reach_of_guarded_run (by simp [Safe]) h₀) (by decide) ⟨hreg,h0⟩
    (reach_of_checked_run (sizeGuard_of_check 1) hs)
  have hlaw₁ := hlaw 1 zeros 3 3 s₁ hfile₁ (safe_of_plain s _ hp₁) hoff₁ hw₁ (by decide)
  have hlaw₀ := hlaw 0 zeros 3 3 s₂ hfile₀ (safe_of_plain s _ hp₀) hoff₀ hw₀ (by decide)
  refine ⟨s₀,s,s₁,s₂,h₀,run_of_checked hs,hsize,hw₁,hlaw₁.mpr (hend.trans hsize.symm),hw₀,fun he => ?_⟩
  have hpos := hlaw₀.mp he
  rw [hsize] at hpos
  exact absurd (hstart.symm.trans hpos) (by decide)

/-- Ten bytes are written at the start of the file, and then ten bytes again. -/
def overwriteRun : List Call := [.create (pathArg ['/','a']) .regular,.openFile (pathArg ['/','a']),
  .write 0 (some zeros) 10,.seek 0 0 .set]

theorem fileSize_not_max : ¬ ∀ s s' src nbyte ret, ∀ fd : ℤ, Reach step (fun _ _ => True) fsFormat s → s.Opened fd →
    (s.inode (s.fileOf fd)).fileType = typeRegular → fsWrite s fd src nbyte = some (ret,s') → 0 ≤ ret →
    (s'.inode (s.fileOf fd)).fileSize.toNat =
      max (s.inode (s.fileOf fd)).fileSize.toNat ((s.descriptor fd.toNat).position + ret.toNat) := by
  have hrun : (run step fsFormat overwriteRun).bind (fun s : F19FS => (fsWrite s 0 (some zeros) 10).map (fun r =>
      s.isOpen 0 && decide ((s.inode (s.fileOf 0)).fileType = typeRegular ∧ r.1 = 10) &&
      decide ((s.inode (s.fileOf 0)).fileSize = 10 ∧ (s.descriptor 0).position = 0 ∧
        (r.2.inode (s.fileOf 0)).fileSize = 20))) = some true := by decide +kernel
  intro h
  obtain ⟨s,hs,hw⟩ := Option.bind_eq_some_iff.mp hrun
  obtain ⟨⟨ret,s'⟩,hw,hf⟩ := Option.map_eq_some_iff.mp hw
  simp only [Bool.and_eq_true, decide_eq_true_eq] at hf
  obtain ⟨⟨hopen,hreg,rfl⟩,hold,hpos,hnew⟩ := hf
  have he := h s s' (some zeros) 10 10 0 (reach_of_run hs) ⟨le_rfl,by decide,hopen⟩ hreg hw (by decide)
  rw [hnew, hold, show (0 : ℤ).toNat = 0 from rfl, hpos] at he
  exact absurd he (by decide)

end LiteOSFS
