import LiteOSFS.Properties.BlockLeak
import LiteOSFS.Properties.InodeUse
import LiteOSFS.Properties.Scratch

/-! # After the last name is gone

In runs of calls that store every block they take and keep the inode bitmap, all inodes but
the root and all blocks but at most one are free again as soon as the root has no entry.
-/
namespace LiteOSFS
open Memory CString Ownership EntryGraph Transition Finset

theorem Names.Rooted.only_root {n : Names} (h : n.Rooted) (hempty : ∀ k, n.entries 0 k = none) {i : ℕ}
    (hu : (n.record i).used = true) : i = 0 := by
  obtain ⟨ns,hp⟩ := h.reached i hu
  cases ns with
  | nil => exact (path_nil.mp hp).symm
  | cons a ns =>
    obtain ⟨e,⟨k,hk⟩,_⟩ := path_cons.mp hp
    rw [hempty k] at hk
    cases hk

theorem no_entries {m : Mem} {d : ℕ} (h : isDirectoryEmpty (inodeAt m d) = true) (k : ℕ) : entryAt m d k = none := by
  refine entryAt_eq_none.mpr ?_
  rintro ⟨_,hk,_,hlive⟩
  rw [(isDirectoryEmpty_iff _).mp h k hk] at hlive
  cases hlive

section Drained
variable {m : Mem}

/-- The blocks in use are then that of the root. -/
theorem used_iff_root (hi : ImageInv m) (hc : Covered m) (honly : ∀ i < 256, inodeUsed m i = true → i = 0) {b : ℕ}
    (hb : DataId b) : used m b = true ↔ (inodeAt m 0).dirBlock = b := by
  have hroot : ∀ i : Fin 256, held m (tableOf m) (i,.data 0) = (inodeAt m i).dirBlock := fun _ => owns_data_zero
  constructor
  · intro hu
    obtain ⟨⟨i,n⟩,⟨hused,_⟩,hheld⟩ := hc b hb hu
    have h0 : i.val = 0 := honly i i.isLt hused
    have hdir : (inodeAt m i).fileType = typeDirectory := by
      rw [h0]
      exact hi.root
    have hn : n = .data 0 := held_directory (q := (i,n)) hdir (by
      rw [hheld]
      exact DataId.ne_zero hb)
    rw [hn, hroot, h0] at hheld
    exact hheld
  · rintro rfl
    have hzero : held m (tableOf m) (⟨0,by decide⟩,.data 0) = (inodeAt m 0).dirBlock := hroot _
    rw [← hzero] at hb ⊢
    exact hi.sound.own.isUsed (DataId.ne_zero hb)

theorem usedBlocks_root (hi : ImageInv m) (hc : Covered m) (honly : ∀ i < 256, inodeUsed m i = true → i = 0) :
    blockStoreGetUsedBlocks m wholeStore = if (inodeAt m 0).dirBlock = 0 then 17 else 18 := by
  have hset : (Ico 17 65528).filter (fun b => used m b = true) =
      if (inodeAt m 0).dirBlock = 0 then ∅ else {(inodeAt m 0).dirBlock} := by
    ext b
    rw [mem_filter, mem_Ico]
    constructor
    · rintro ⟨hb,hu⟩
      obtain rfl := (used_iff_root hi hc honly hb).mp hu
      rw [if_neg (DataId.ne_zero hb)]
      exact mem_singleton_self _
    · intro hb
      split_ifs at hb with h0
      · exact absurd hb (notMem_empty b)
      · obtain rfl := mem_singleton.mp hb
        have hid := (hi.dirBlock_dataId (by decide) h0).1
        exact ⟨hid,(used_iff_root hi hc honly hid).mpr rfl⟩
  rw [usedBlocks_eq hi.sound.sys, hset]
  split_ifs
  · rw [card_empty]
  · rw [card_singleton]

end Drained

/-- Calls that store every block they take and keep the inode bitmap. -/
def Thrifty (s : F19FS) (c : Call) : Prop := Tidy s c ∧ BitmapKept s c ∧ KeepsBlocks s c

/-- Once the root is empty, all that the run has taken is free again. -/
theorem drained {s : F19FS} (h : Reach step Thrifty fsFormat s) (hempty : isDirectoryEmpty (s.inode 0) = true) :
    (∀ i < 256, inodeUsed s.image i = true ↔ i = 0) ∧
      blockStoreGetUsedBlocks s.image wholeStore = if (s.inode 0).dirBlock = 0 then 17 else 18 := by
  obtain ⟨_,hn⟩ := names_invariant (I := Names.Rooted) rooted_fsFormat (fun ht _ hg hl => hg.along ht hl)
    (fun n ch hI hok => hI.apply hok.1 hok.2) (h.mono (fun s c hg => (⟨hg.1,hg.2.1⟩ : Tidy s c ∧ BitmapKept s c)))
  obtain ⟨hi,hc⟩ := covered_of_noLeak (h.mono (fun s c hg => (⟨hg.1.1,hg.2.2⟩ : NoLeak s c)))
  have honly : ∀ i < 256, inodeUsed s.image i = true → i = 0 := fun i hlt hu =>
    hn.only_root (no_entries hempty) ((record_used hlt).trans hu)
  refine ⟨fun i hlt => ⟨honly i hlt,?_⟩,usedBlocks_root hi hc honly⟩
  rintro rfl
  exact (record_used hlt).symm.trans hn.root

theorem thrifty_first : Thrifty fsFormat (.create (some fileA) .regular) := by
  have hinode : firstFreeInode fsFormat.image ≠ sizeMax := by decide +kernel
  refine ⟨⟨trivial,fun p hp => ?_⟩,trivial,fun p _ _ tokens d name hc _ => ⟨dirBlock_fsFormat hc.lt,fun hf => absurd hf hinode⟩⟩
  obtain rfl := Option.some.inj hp
  exact scratchReady_fsFormat.create

/-- Removing the only file. -/
theorem thrifty_last {q₁ q₄ : F19FS × LastBytes} {d k b i : ℕ}
    (h : ScratchMade (fsFormat,fun _ _ => none) q₁ fileA [] (ofChars ['a']) d k b i) (ha : Alike q₄.1.image q₁.1.image) :
    Thrifty q₄.1 (.remove (some fileA)) := by
  have hready := scratchReady_fsFormat
  refine ⟨⟨h.removeSafe hready ha,trivial⟩,fun p hp j hfinds _ => ?_,trivial⟩
  obtain rfl := Option.some.inj hp
  obtain ⟨hpar,hbase,hid,_,_⟩ := h.target hready ha
  have hj := removeTarget_eq_some hfinds.target
  rw [hpar, hbase, hid] at hj
  subst hj
  have hentries : entryAt q₄.1.image = update (entryAt fsFormat.image) d k (some (ofChars ['a'],i)) :=
    ha.entries.trans (h.entries tidy_fsFormat)
  have hnone : ∀ e a, ¬ Edge (entryAt fsFormat.image) e a i := by
    rintro e a ⟨j,he⟩
    rw [entryAt_fsFormat] at he
    cases he
  have hvacant : entryAt fsFormat.image d k = none := entryAt_fsFormat d k
  rw [hpar, hbase]
  refine ⟨fun k' hk' j hlt a e he _ => ?_,fun e a he => ?_⟩
  · rw [hentries] at he hk'
    have hone : ∀ l r, update (entryAt fsFormat.image) d k (some (ofChars ['a'],i)) d l = some r → l = k := by
      intro l r hl
      by_contra hne
      rw [update_of_ne (fun hc => hne hc.2), entryAt_fsFormat] at hl
      cases hl
    have hlk := hone j _ he
    have hkk := hone k' _ hk'
    omega
  · rw [hentries, edge_update_some hvacant] at he
    exact he.elim (fun h => ⟨h.1,h.2.1⟩) (fun h => absurd h (hnone e a))

theorem drained_once : ∃ s, run step fsFormat scratchCalls = some s ∧
    (∀ i < 256, inodeUsed s.image i = true ↔ i = 0) ∧
      blockStoreGetUsedBlocks s.image wholeStore = if (s.inode 0).dirBlock = 0 then 17 else 18 := by
  obtain ⟨q₁,q₂,q₃,q₄,q',h⟩ := scratchRun
  have hready := scratchReady_fsFormat
  have hthrough : Through 0 q₂ (.write 0 (some (startsWith 7)) 2) := ⟨rfl,h.kept⟩
  obtain ⟨d,k,b,i,hmade⟩ := hready.made h.create
  obtain ⟨ha,_⟩ := hmade.closed hready h.create le_rfl h.opened (Reach.refl.tail hthrough h.written) h.close
  obtain ⟨⟨ret,s₃⟩,hw,he⟩ := Option.map_eq_some_iff.mp h.written
  have h₃ : step q₂.1 (.write 0 (some (startsWith 7)) 2) = some q₃.1 := by
    rw [← he]
    exact step_of_call hw
  have h₁ := step_of_call h.create.eq.1
  have h₂ := step_of_call h.opened.eq.1
  have h₄ := step_of_call h.close.eq.1
  have h₅ := step_of_call h.remove.eq.1
  have hwrite : Thrifty q₂.1 (.write 0 (some (startsWith 7)) 2) :=
    ⟨⟨h.kept.1,trivial⟩,trivial,fun ho => ⟨(h.kept.2 ho rfl).1,(h.kept.2 ho rfl).2.1⟩⟩
  have hopen : Thrifty q₁.1 (.openFile (some fileA)) := ⟨⟨trivial,trivial⟩,trivial,trivial⟩
  have hclose : Thrifty q₃.1 (.close 0) := ⟨⟨trivial,trivial⟩,trivial,trivial⟩
  have hreach : Reach step Thrifty fsFormat q'.1 :=
    ((((Reach.refl.tail thrifty_first h₁).tail hopen h₂).tail hwrite h₃).tail hclose h₄).tail (thrifty_last hmade ha) h₅
  refine ⟨q'.1,?_,drained hreach h.empty⟩
  exact run_cons.mpr ⟨_,h₁,run_cons.mpr ⟨_,h₂,run_cons.mpr ⟨_,h₃,run_cons.mpr ⟨_,h₄,run_cons.mpr ⟨_,h₅,rfl⟩⟩⟩⟩⟩

end LiteOSFS
