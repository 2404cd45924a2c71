import LiteOSFS.FileSystem.AppendOnly
import LiteOSFS.FileSystem.ReadRefinement
import LiteOSFS.Properties.Storing

/-! # Reading back what was appended

After a run that only appends, a read from the start of a file returns what was
written to it, however it was cut into writes and between which other calls.
-/
namespace LiteOSFS
open Memory CString Ownership Transition

/-- The run with the data written on the side. -/
abbrev AppendReach : F19FS × Contents → Prop := Reach (ghost step appended) (fun q => AppendOnly q.1) (fsFormat,fun _ => [])

theorem AppendReach.inv {q : F19FS × Contents} (h : AppendReach q) : AppendInv q :=
  h.invariant append_fsFormat (fun hi hg hs => append_step hi hg hs)

section Read
variable {m : Mem} {x : Inode} {bs : List UInt8}

/-- A reader that starts at byte 0 and asks for the whole file gets it. -/
theorem Stores.readFrom (h : Stores m x bs) (hid : ∀ l, nodePtr m x l ≤ 65528) (hlen : bs.length ≤ 65511 * 1024) :
    LiteOSFS.readFrom m x 0 0 bs.length = some bs := by
  have hout := readFrom_outcome hid (show 0 < 65536 by omega) (show 0 ≤ 1024 by omega) (show bs.length < 2 ^ 64 by omega)
  generalize LiteOSFS.readFrom m x 0 0 bs.length = r at hout
  cases hout with
  | overrun ho =>
    have hp := ho.past
    omega
  | @read bytes hr =>
    have hfull := hr.full (by omega) (fun c _ hc => h.block (by omega))
    refine congrArg some (List.ext_getElem hfull (fun k hk hk' => ?_))
    have hb := hr.byte (Nat.zero_le _) hk
    rw [show 0 * 1024 + 0 + k = k by omega, h.byte k hk'] at hb
    exact (Option.some.inj hb).symm

theorem readCount_start {d : FileDescriptor} (hd : d.position = 0) {size nbyte : ℕ} (hsize : size < 2 ^ 64)
    (hn : nbyte < 2 ^ 64) (hle : size ≤ nbyte) : readCount d size nbyte = size := by
  have hp : d.position = d.locateOrder.toNat * 1024 + d.locateOffset.toNat := rfl
  have h0 : getPreviosOffset d = 0 := by
    unfold getPreviosOffset
    simp only
    split_ifs <;> omega
  unfold readCount
  simp only [h0]
  split_ifs <;> omega

end Read

theorem seek_start {s : F19FS} {fd : ℤ} (ho : s.Opened fd) : ∃ s₁, fsSeek s fd 0 .set = some (0,s₁) ∧
    s₁.image = s.image ∧ s₁.Opened fd ∧ s₁.descriptor fd.toNat = (s.descriptor fd.toNat).rewound := by
  have hz : (s.descriptor fd.toNat).rewound.locateOffset.toNat ≤ 1024 := Nat.zero_le 1024
  have hcut : ∀ size, cutBoundary size (0 : Int64).toInt = 0 := fun _ => by simp [cutBoundary]
  have hkeep : updateFD (s.descriptor fd.toNat).rewound 0 = (s.descriptor fd.toNat).rewound := by
    have he := updateFD_eq hz 0
    rw [FileDescriptor.rewound_position, Nat.cast_zero] at he
    exact he
  refine ⟨s.storeDescriptor fd.toNat (s.descriptor fd.toNat).rewound,?_,rfl,?_,?_⟩
  · rw [fsSeek_opened ho 0 (by decide), seekTarget, Option.map_some, hcut, hkeep]
  · rw [storeDescriptor_eq ho.lt]
    refine ⟨ho.1,ho.2.1,?_⟩
    rw [isOpen_putDescriptor _ ho.lt]
    exact ho.2.2
  · rw [storeDescriptor_eq ho.lt, descriptor_putDescriptor, if_pos rfl]

theorem append_read {s : F19FS} {content : Contents} {fd : ℤ} {n : UInt64} (h : AppendReach (s,content))
    (ho : s.Opened fd) (hreg : (s.inode (s.fileOf fd)).fileType = typeRegular)
    (hn : (s.inode (s.fileOf fd)).fileSize ≤ n) : ∃ s₁ s₂, fsSeek s fd 0 .set = some (0,s₁) ∧
      fsRead s₁ fd false n = some (((content (s.fileOf fd)).length : ℤ),content (s.fileOf fd),s₂) := by
  have hi := h.inv.image
  have hfile : (tableOf s.image (s.fileOf fd)).fileType ≠ typeDirectory := by
    show (s.inode (s.fileOf fd)).fileType ≠ typeDirectory
    rw [hreg]
    decide
  have hst : Stores s.image (tableOf s.image (s.fileOf fd)) (content (s.fileOf fd)) := hi.file _ hfile
  have hlen := hst.length_le hi.inv.sound hfile
  have hsize : (s.inode (s.fileOf fd)).fileSize.toNat = (content (s.fileOf fd)).length := hst.size
  obtain ⟨s₁,hs₁,himage,ho₁,hd₁⟩ := seek_start ho
  refine ⟨s₁,?_⟩
  by_cases hn0 : n = 0
  · have hle : (s.inode (s.fileOf fd)).fileSize.toNat ≤ (0 : UInt64).toNat := UInt64.le_iff_toNat_le.mp (hn0 ▸ hn)
    have hempty : content (s.fileOf fd) = [] := List.eq_nil_of_length_eq_zero (by rw [← hsize]; exact Nat.le_zero.mp hle)
    exact ⟨s₁,hs₁,by rw [hn0, fsRead_nothing ho₁, hempty]; rfl⟩
  · have hnum : (s₁.descriptor fd.toNat).inodeNum.toNat = (s.fileOf fd).val := by rw [hd₁]; rfl
    have hcount : readCount (s.descriptor fd.toNat).rewound (s.inode (s.fileOf fd)).fileSize.toNat n.toNat =
        (content (s.fileOf fd)).length := by
      rw [readCount_start (FileDescriptor.rewound_position _) (UInt64.toNat_lt _) (UInt64.toNat_lt _) (UInt64.le_iff_toNat_le.mp hn), hsize]
    have hread := hst.readFrom (hi.inv.sound.nodePtr_le hfile) hlen
    refine ⟨s₁.storeDescriptor fd.toNat (updateFD (s₁.descriptor fd.toNat) (content (s.fileOf fd)).length),hs₁,?_⟩
    rw [fsRead_opened ho₁ hn0, hnum, F19FS.inode, himage, hd₁]
    have hinode : inodeAt s.image (s.fileOf fd) = s.inode (s.fileOf fd) := rfl
    rw [hinode, hcount]
    exact congrArg (Option.map _) hread

/-- A file of two bytes, written through descriptor 0. -/
theorem twoBytes : ∃ s₀ s₁ s₂, call fsFormat (.create (pathArg ['/','a']) .regular) = some (0,s₀) ∧
    call s₀ (.openFile (pathArg ['/','a'])) = some (0,s₁) ∧ call s₁ (.write 0 (some (startsWith 7)) 2) = some (2,s₂) ∧
    AppendOnly s₁ (.write 0 (some (startsWith 7)) 2) ∧ s₁.fileOf 0 = 1 ∧ s₂.Opened 0 ∧ s₂.fileOf 0 = 1 ∧
    (s₂.inode (1 : Fin 256)).fileType = typeRegular ∧ (s₂.inode (1 : Fin 256)).fileSize = 2 := by
  have hrun : (call fsFormat (.create (pathArg ['/','a']) .regular)).bind (fun r₀ =>
      (call r₀.2 (.openFile (pathArg ['/','a']))).bind (fun r₁ =>
      (call r₁.2 (.write 0 (some (startsWith 7)) 2)).map (fun r₂ => decide (r₀.1 = 0 ∧ r₁.1 = 0 ∧ r₂.1 = 2) &&
        decide ((r₁.2.descriptor 0).inodeNum = 1 ∧ (r₁.2.descriptor 0).position = 0) &&
        decide ((r₁.2.inode 1).fileType = typeRegular ∧ (r₁.2.inode 1).fileSize = 0) && r₂.2.isOpen 0 &&
        decide ((r₂.2.descriptor 0).inodeNum = 1) &&
        decide ((r₂.2.inode 1).fileType = typeRegular ∧ (r₂.2.inode 1).fileSize = 2)))) = some true := by decide +kernel
  obtain ⟨⟨_,s₀⟩,h₀,hrun⟩ := Option.bind_eq_some_iff.mp hrun
  obtain ⟨⟨_,s₁⟩,h₁,hrun⟩ := Option.bind_eq_some_iff.mp hrun
  obtain ⟨⟨_,s₂⟩,h₂,hrun⟩ := Option.map_eq_some_iff.mp hrun
  simp only [Bool.and_eq_true, decide_eq_true_eq] at hrun
  obtain ⟨⟨⟨⟨⟨⟨rfl,rfl,rfl⟩,hnum,hpos⟩,hreg,hsize⟩,hopen⟩,hnum'⟩,hreg',hsize'⟩ := hrun
  have hfile : s₁.fileOf 0 = 1 := Fin.ext (congrArg UInt8.toNat hnum)
  refine ⟨s₀,s₁,s₂,h₀,h₁,h₂,⟨?_,by decide,?_,s₂,h₂⟩,hfile,⟨le_rfl,by decide,hopen⟩,
    Fin.ext (congrArg UInt8.toNat hnum'),hreg',hsize'⟩
  · rw [hfile]
    exact hreg
  · rw [hfile, show (0 : ℤ).toNat = 0 from rfl, hpos]
    exact (congrArg UInt64.toNat hsize).symm

theorem append_read_two : ∃ s s₁ s₂, run step fsFormat [.create (pathArg ['/','a']) .regular,
    .openFile (pathArg ['/','a']),.write 0 (some (startsWith 7)) 2] = some s ∧ fsSeek s 0 0 .set = some (0,s₁) ∧
    fsRead s₁ 0 false 100 = some (2,[7,0],s₂) := by
  obtain ⟨s₀,s₁,s,h₀,h₁,h₂,hguard,hfile,ho,hfile',hreg,hsize⟩ := twoBytes
  have hs₀ := step_of_call h₀
  have hs₁ := step_of_call h₁
  have hs := step_of_call h₂
  have hreach : AppendReach (s,appended s₁ (fun _ => []) (.write 0 (some (startsWith 7)) 2)) :=
    ((Reach.refl.tail_ghost trivial hs₀).tail_ghost trivial hs₁).tail_ghost hguard hs
  obtain ⟨s₂,s₃,hseek,hread⟩ := append_read (n := 100) hreach ho (by rw [hfile']; exact hreg)
    (by rw [hfile', hsize]; decide)
  have hbytes : appended s₁ (fun _ => []) (.write 0 (some (startsWith 7)) 2) (s.fileOf 0) = [7,0] := by
    rw [appended, hfile, hfile', Function.update_self]
    rfl
  rw [hbytes] at hread
  exact ⟨s,s₂,s₃,run_cons.mpr ⟨s₀,hs₀,run_cons.mpr ⟨s₁,hs₁,run_cons.mpr ⟨s,hs,rfl⟩⟩⟩,hseek,hread⟩

end LiteOSFS
