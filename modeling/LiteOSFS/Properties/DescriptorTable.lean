import LiteOSFS.FileSystem.Descriptors

/-! # Independence of descriptors

An operation changes the slot of its own descriptor only; for `fs_open` that is
the slot that it takes, which was free.
-/
namespace LiteOSFS
open Memory CString Transition

def SameSlot (s s' : F19FS) (k : ℕ) : Prop := s'.descriptor k = s.descriptor k ∧ s'.isOpen k = s.isOpen k

theorem SameSlot.refl (s : F19FS) (k : ℕ) : SameSlot s s k := ⟨rfl,rfl⟩

theorem SameSlot.trans {s s₁ s₂ : F19FS} {k : ℕ} (h : SameSlot s s₁ k) (h' : SameSlot s₁ s₂ k) : SameSlot s s₂ k :=
  ⟨h'.1.trans h.1,h'.2.trans h.2⟩

section Slots
variable {s s' : F19FS} {k : ℕ}

theorem sameSlot_put {fd : ℕ} (m : Mem) (d : FileDescriptor) (hfd : fd < 256) (hne : fd ≠ k) :
    SameSlot s (F19FS.mk m (putDescriptor s.fdTable fd d)) k := by
  refine ⟨?_,isOpen_putDescriptor m hfd⟩
  rw [descriptor_putDescriptor, if_neg hne]
  rfl

theorem sameSlot_setOpen {fd : ℕ} (hk : k < 256) (hne : fd ≠ k) :
    SameSlot s { s with fdTable := setOpen s.fdTable fd } k := by
  refine ⟨descriptor_setOpen s.image hk,?_⟩
  rw [isOpen_setOpen, decide_eq_false hne, Bool.false_or]

theorem sameSlot_clearOpen {fd : ℕ} (hk : k < 256) (hne : fd ≠ k) :
    SameSlot s { s with fdTable := clearOpen s.fdTable fd } k := by
  refine ⟨descriptor_clearOpen s.image hk,?_⟩
  rw [isOpen_clearOpen, decide_eq_false hne]
  rfl

theorem step_slot {c : Call} {a : ℤ} (hc : c.slot s = some a) (hk : k < 256) (hne : a ≠ k) (h : step s c = some s') :
    SameSlot s s' k := by
  obtain ⟨ret,h⟩ := step_call h
  cases c with
  | openFile path =>
    cases hc
    have hne' : firstFreeSlot s.fdTable ≠ k := fun he => hne (congrArg Int.ofNat he)
    rcases fsOpen_cases h with ⟨_,rfl⟩ | ⟨_,_,_,_,_,_,_,hlt,⟨_,_,rfl⟩ | ⟨_,_,rfl⟩⟩
    · exact SameSlot.refl _ k
    · exact sameSlot_setOpen hk hne'
    · exact (sameSlot_setOpen hk hne').trans (sameSlot_put s.image _ hlt hne')
  | close fd =>
    cases hc
    have he : fsClose s a = (ret,s') := Option.some.inj h
    rcases fsClose_cases s a with ⟨hf,_⟩ | ⟨hf,ho⟩
    · cases hf.symm.trans he
      exact SameSlot.refl _ k
    · cases hf.symm.trans he
      exact sameSlot_clearOpen hk (fun hak => hne (by rw [← hak, Int.toNat_of_nonneg ho.1]))
  | read fd dstNull nbyte =>
    cases hc
    obtain ⟨⟨_,bytes,_⟩,hr,he⟩ := Option.map_eq_some_iff.mp h
    cases he
    rcases fsRead_table hr with rfl | ⟨ho,d,rfl⟩
    · exact SameSlot.refl _ k
    · exact sameSlot_put s.image d ho.lt (fun hak => hne (by rw [← hak, Int.toNat_of_nonneg ho.1]))
  | write fd src nbyte =>
    cases hc
    rcases fsWrite_table h with rfl | ⟨ho,m,d,rfl⟩
    · exact SameSlot.refl _ k
    · exact sameSlot_put m d ho.lt (fun hak => hne (by rw [← hak, Int.toNat_of_nonneg ho.1]))
  | seek fd offset whence =>
    cases hc
    rcases fsSeek_table h with rfl | ⟨ho,d,rfl⟩
    · exact SameSlot.refl _ k
    · exact sameSlot_put s.image d ho.lt (fun hak => hne (by rw [← hak, Int.toNat_of_nonneg ho.1]))
  | _ => cases hc

/-- The slot that `fs_open` takes was free. -/
theorem fsOpen_free {path : Option CStr} {ret : ℤ} (h : fsOpen s path = some (ret,s')) (hret : 0 ≤ ret) :
    ret < 256 ∧ ret = firstFreeSlot s.fdTable ∧ s.isOpen ret.toNat = false ∧ s'.isOpen ret.toNat = true := by
  rcases fsOpen_cases h with ⟨rfl,_⟩ | ⟨_,_,_,_,_,_,_,hlt,⟨rfl,_⟩ | ⟨rfl,_,rfl⟩⟩
  · omega
  · omega
  · rcases firstFreeSlot_spec s.image s.fdTable with he | ⟨_,hfree,_⟩
    · rw [he] at hlt
      exact absurd hlt (by decide)
    · refine ⟨by omega,rfl,hfree,?_⟩
      rw [Int.toNat_natCast, isOpen_putDescriptor _ hlt, isOpen_setOpen, decide_eq_true rfl]
      rfl

/-- The calls of a run that leave descriptor `k` alone: any `fs_open`, and calls about other descriptors. -/
def NotOn (k : ℕ) (s : F19FS) (c : Call) : Prop :=
  (∃ path, c = .openFile path) ∨ ∃ a, c.slot s = some a ∧ a ≠ k

theorem run_slot (hk : k < 256) (hopen : s.isOpen k = true) (h : Reach step (NotOn k) s s') : SameSlot s s' k := by
  induction h with
  | refl => exact SameSlot.refl s k
  | @tail s₁ s₂ c _ hg hs ih =>
    have hk1 : s₁.isOpen k = true := ih.2.trans hopen
    rcases hg with ⟨path,rfl⟩ | ⟨a,hc,hne⟩
    · refine ih.trans (step_slot rfl hk (fun he => ?_) hs)
      have hfk : firstFreeSlot s₁.fdTable = k := Int.ofNat.inj he
      rcases firstFreeSlot_spec s₁.image s₁.fdTable with hf | ⟨_,hfree,_⟩
      · rw [hfk] at hf
        unfold sizeMax at hf
        omega
      · rw [hfk] at hfree
        exact Bool.false_ne_true (hfree.symm.trans hk1)
    · exact ih.trans (step_slot hc hk hne hs)

/-- The calls on a number that is no open descriptor fail and change nothing. -/
theorem closed_fails {fd : ℤ} (h : ¬ s.Opened fd) {c : Call} (hc : c.slot s = some fd) (ho : ∀ path, c ≠ .openFile path) :
    ∃ ret < 0, call s c = some (ret,s) := by
  cases c with
  | openFile path => exact absurd rfl (ho path)
  | close fd =>
    cases hc
    rcases fsClose_cases s fd with ⟨he,_⟩ | ⟨_,hopen⟩
    · exact ⟨-1,by decide,congrArg some he⟩
    · exact absurd hopen h
  | read fd dstNull nbyte =>
    cases hc
    obtain ⟨ret,hlt,he⟩ := fsRead_closed h dstNull nbyte
    exact ⟨ret,hlt,by rw [call, he]; rfl⟩
  | write fd src nbyte =>
    cases hc
    exact fsWrite_closed h src nbyte
  | seek fd offset whence =>
    cases hc
    exact fsSeek_closed h offset whence
  | _ => cases hc

end Slots

/-- In every state a call on one descriptor leaves the others as they are, `fs_open` returns a descriptor
that was closed, and a call on a number that is no open descriptor fails without a change; over a run, an
open descriptor changes by its own calls only. -/
theorem descriptor_independence (s : F19FS) :
    (∀ (c : Call) s' (a : ℤ) (k : ℕ), c.slot s = some a → k < 256 → a ≠ k → step s c = some s' →
      s'.descriptor k = s.descriptor k ∧ s'.isOpen k = s.isOpen k) ∧
    (∀ path ret s', call s (.openFile path) = some (ret,s') → 0 ≤ ret →
      ret < 256 ∧ (Call.openFile path).slot s = some ret ∧ s.isOpen ret.toNat = false ∧ s'.isOpen ret.toNat = true) ∧
    (∀ (c : Call) (fd : ℤ), c.slot s = some fd → (∀ path, c ≠ .openFile path) →
      ¬ (0 ≤ fd ∧ fd < 256 ∧ s.isOpen fd.toNat = true) → ∃ ret < 0, call s c = some (ret,s)) ∧
    ∀ s' k, k < 256 → s.isOpen k = true → Reach step (NotOn k) s s' →
      s'.descriptor k = s.descriptor k ∧ s'.isOpen k = true := by
  refine ⟨fun c s' a k hc hk hne h => step_slot hc hk hne h,fun path ret s' h hret => ?_,
    fun c fd hc ho hclosed => closed_fails hclosed hc ho,fun s' k hk hopen h => ?_⟩
  · obtain ⟨hlt,he,hfree,hset⟩ := fsOpen_free h hret
    exact ⟨hlt,congrArg some he.symm,hfree,hset⟩
  · have hr := run_slot hk hopen h
    exact ⟨hr.1,hr.2.trans hopen⟩

end LiteOSFS
