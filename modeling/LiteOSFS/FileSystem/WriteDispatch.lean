import LiteOSFS.FileSystem.Afford

/-! # The direct blocks and the dispatch of fs_write

`write_direct_block` counts the bytes that it stored, except when the indirect
block is refused after the last direct block: `SpillDrops` is when that happens.
-/
namespace LiteOSFS
open Memory Ownership

/-- Of the `len` data blocks from `b` on, those still to be allocated. -/
def missingFrom (m : Mem) (x : Inode) (b len : ℕ) : ℕ := (List.range' b len).countP (fun c => !hasNode m x (.data c))

/-- The direct blocks from `b` on that are still to be allocated. -/
def missingDirect (m : Mem) (x : Inode) (b : ℕ) : ℕ :=
  (List.range' b (6 - b)).countP (fun c => !hasNode m x (.data c))

/-- The write goes past the direct blocks, and they take the last free blocks. -/
def SpillDrops (m : Mem) (x : Inode) (b off n : ℕ) : Prop :=
  b < 6 ∧ 6144 < b * 1024 + off + n ∧ nodePtr m x .ind = 0 ∧ (freeBlocks m).length = missingDirect m x b

section Direct
variable {i : Fin 256} {t : Table} {m m' : Mem} {x' : Inode} {b off n r : ℕ} {src : Mem}

theorem Ready.touch {m₁ : Mem} {x₁ : Inode} (hr : Ready m t i b off n) (hb : b + 1 < 65536)
    (h : growPath m (t i) (pathTo b) = (true,m₁,x₁)) (c : Mem) (hn : 0 < n - min (1024 - off) n) :
    Ready (storeAt m₁ x₁ b c) (Function.update t i x₁) i (b + 1) 0 (n - min (1024 - off) n) := by
  have hlt := hr.nLt
  obtain ⟨rest,htouch,hrest⟩ := touchedNodes_step (b := b) (n := n) hr.offLt
  have hc := hr.clean
  rw [htouch] at hc
  obtain ⟨_,htype,_,hext,hclean,_⟩ := touch_spec hr.sound hr.file (by omega) hc h c
  have hs := hext.sound
  rw [Function.update_idem] at hs
  refine ⟨hs,by rwa [Function.update_self],hb,by omega,by omega,?_⟩
  rw [Function.update_self, ← hrest hn]
  exact hclean

/-- The indirect block, grown when it was missing. -/
theorem indirectTarget_some {m₁ : Mem} {x₁ : Inode} {id : ℕ} (hr : Ready m t i b off n) (h6 : 6 ≤ b) (h518 : b < 518)
    (ht : indirectTarget m (t i) = some (id,m₁,x₁)) :
    growPath m (t i) (pathTo b).dropLast = (true,m₁,x₁) ∧ AtIndex m₁ x₁ .ind 6 id := by
  have hup : (pathTo b).dropLast = [.ind] := by
    rw [pathTo, if_neg (by omega), if_pos h518]
    rfl
  rw [indirectTarget_eq hr.sound.sys] at ht
  obtain ⟨⟨m₂,x₂⟩,hg,he⟩ := Option.map_eq_some_iff.mp ht
  obtain ⟨rfl,rfl,rfl⟩ : nodePtr m₂ x₂ .ind = id ∧ m₂ = m₁ ∧ x₂ = x₁ := by simpa using he
  have hg₁ : growPath m (t i) (pathTo b).dropLast = (true,m₂,x₂) := by
    rw [hup]
    exact growPath_some hg
  exact ⟨hg₁,atIndex_ind ((hr.grow_up hg₁).2 .ind (by simp [hup]))⟩

theorem enterIndirect_wrote {m₁ : Mem} {x₁ : Inode} {id : ℕ} (hr : Ready m t i b off n) (h6 : 6 ≤ b) (h518 : b < 518)
    (ht : indirectTarget m (t i) = some (id,m₁,x₁))
    (h : writeIndirectBlock indexRounds m₁ x₁ b off src n id = some (r,m',x')) :
    WriteCall m (t i) b off src n r m' x' := by
  obtain ⟨hg,hat⟩ := indirectTarget_some hr h6 h518 ht
  obtain ⟨hr₁,hup⟩ := hr.grow_up hg
  have hupd : (Function.update t i x₁) i = x₁ := Function.update_self ..
  have hw := writeIndirectBlock_wrote indexRounds hr₁ (by rw [hupd]; exact hat) h6 (by omega) (by rw [hupd]; exact h)
  rw [hupd] at hw
  exact Wrote.of_up h6 (by omega) hg hup hw

theorem indirectTarget_none (hs : SysUsed m) {x : Inode} (h : indirectTarget m x = none) :
    nodePtr m x .ind = 0 ∧ firstFree m = sizeMax := by
  rw [indirectTarget_eq hs] at h
  have hg := Option.map_eq_none_iff.mp h
  by_cases hn : nodePtr m x .ind = 0
  · refine ⟨hn,?_⟩
    by_contra hf
    rw [grow_fresh hn hf] at hg
    cases hg
  · rw [grow_present hn] at hg
    cases hg

theorem indirectTarget_none_path (hs : SysUsed m) {x : Inode} (h6 : 6 ≤ b) (h518 : b < 518)
    (h : indirectTarget m x = none) : growPath m x (pathTo b) = (false,m,x) := by
  obtain ⟨hn,hf⟩ := indirectTarget_none hs h
  rw [pathTo, if_neg (by omega), if_pos h518]
  exact growPath_none (grow_full hn hf)

/-- The block that the direct writer prepares. -/
theorem directTarget_spec (hr : Ready m t i b off n) (src : Mem) (hb : b < 6) :
    (directTarget m (t i) ⟨b,hb⟩ off src (min (1024 - off) n) = some none ∧
      growPath m (t i) (pathTo b) = (false,m,t i)) ∨
    ∃ m₁ x₁, growPath m (t i) (pathTo b) = (true,m₁,x₁) ∧
      directTarget m (t i) ⟨b,hb⟩ off src (min (1024 - off) n) = some (some (nodePtr m₁ x₁ (.data b),
        piece m (t i) m₁ x₁ b off src (min (1024 - off) n),m₁,x₁)) := by
  have hoff := hr.offLt
  have hptr : nodePtr m (t i) (.data b) = ((t i).directPointer ⟨b,hb⟩).toNat := by
    rw [nodePtr, if_pos hb, Inode.top, dif_pos hb]
  have hpath : pathTo b = [.data b] := if_pos hb
  rw [hpath]
  by_cases hz : (t i).directPointer ⟨b,hb⟩ = 0
  · have hn : nodePtr m (t i) (.data b) = 0 := by
      rw [hptr, hz]
      rfl
    by_cases hf : firstFree m = sizeMax
    · left
      refine ⟨?_,growPath_none (grow_full hn hf)⟩
      simp only [directTarget, hz, if_true, blockStoreAllocate_whole, hf]
    · right
      have hlt := (firstFree_spec hr.sound.sys hf).1.2
      have hset : (t i).setTop (firstFree m) (.data b) = { t i with
          directPointer := Function.update (t i).directPointer ⟨b,hb⟩ (UInt16.ofNat (firstFree m)) } := by
        rw [Inode.setTop, dif_pos hb]
      have hg : grow m (t i) (.data b) = some (setUsed m (firstFree m),(t i).setTop (firstFree m) (.data b)) := by
        rw [grow_fresh hn hf]
        simp only [Node.isCleared, Bool.false_eq_true, if_false, assign, Node.parent, hb, if_true]
      have hid : nodePtr (setUsed m (firstFree m)) ((t i).setTop (firstFree m) (.data b)) (.data b) = firstFree m := by
        rw [nodePtr, if_pos hb, Inode.top_setTop (by rw [Node.parent, if_pos hb]) (by rw [Node.parent, if_pos hb])
          (by omega), if_pos rfl]
      refine ⟨_,_,growPath_some hg,?_⟩
      rw [hid, piece, if_pos ⟨hb,hn⟩, hset]
      simp only [directTarget, hz, if_true, blockStoreAllocate_whole, hf, if_false]
  · right
    have hn : nodePtr m (t i) (.data b) ≠ 0 := by
      rw [hptr]
      exact fun he => hz (UInt16.toNat_inj.mp he)
    have hid := (dataId_of_node hr.sound hr.file hn).1
    rw [hptr] at hid
    refine ⟨m,t i,growPath_some (grow_present hn),?_⟩
    rw [piece, if_neg (fun h => hn h.2), hptr, directTarget, if_neg hz]
    simp only [blockStoreRead_data hid.2.le, Option.getD_some, memcpyInto_eq (c := blockAt m _) (s := src)
      (show off + min (1024 - off) n ≤ 1024 by omega), Option.map_some]

theorem missingFrom_succ {x : Inode} {len : ℕ} : missingFrom m x b (len + 1) =
    (if hasNode m x (.data b) then 0 else 1) + missingFrom m x (b + 1) len := by
  rw [missingFrom, List.range'_succ, List.countP_cons, missingFrom, Nat.add_comm]
  cases hasNode m x (.data b) <;> rfl

theorem missingDirect_succ {x : Inode} (hb : b < 6) :
    missingDirect m x b = (if hasNode m x (.data b) then 0 else 1) + missingDirect m x (b + 1) := by
  have hall : ∀ b, missingDirect m x b = missingFrom m x b (6 - b) := fun _ => rfl
  rw [hall, hall, show 6 - b = (6 - (b + 1)) + 1 by omega, missingFrom_succ]

/-- The blocks missing among `len` from `b` on against the free ones, before and after a direct block. -/
theorem missingFrom_step {m₁ : Mem} {x₁ : Inode} {c : Mem} (hr : Ready m t i b off n) (hb : b < 6)
    (h : growPath m (t i) (pathTo b) = (true,m₁,x₁)) (len : ℕ) :
    (freeBlocks (storeAt m₁ x₁ b c)).length + missingFrom m (t i) b (len + 1) =
      (freeBlocks m).length + missingFrom (storeAt m₁ x₁ b c) x₁ (b + 1) len := by
  obtain ⟨rest,hv⟩ := hr.visitable
  obtain ⟨hfree,hhas⟩ := hv.stored h c
  have hpath : pathTo b = [.data b] := if_pos hb
  have hcount := (hv.count h).1 rfl
  rw [card_absent_list hv.nodup, hpath, List.countP_singleton] at hcount
  have hrest : missingFrom (storeAt m₁ x₁ b c) x₁ (b + 1) len = missingFrom m (t i) (b + 1) len := by
    apply List.countP_congr
    intro k hk
    have hkb : k ≠ b := by
      have hmem := List.mem_range'_1.mp hk
      omega
    rw [hhas, hv.grown h]
    simp [hpath, hkb]
  rw [hrest, hfree, hcount, missingFrom_succ]
  cases hasNode m (t i) (.data b)
  · simp only [Bool.not_false, if_true, Bool.false_eq_true, if_false]
    omega
  · simp

/-- The count of all the blocks still missing against the free ones. -/
theorem missingDirect_step {m₁ : Mem} {x₁ : Inode} {c : Mem} (hr : Ready m t i b off n) (hb : b < 6)
    (h : growPath m (t i) (pathTo b) = (true,m₁,x₁)) :
    (freeBlocks m).length = missingDirect m (t i) b ↔
      (freeBlocks (storeAt m₁ x₁ b c)).length = missingDirect (storeAt m₁ x₁ b c) x₁ (b + 1) := by
  have hstep := missingFrom_step (c := c) hr hb h (6 - (b + 1))
  rw [show 6 - (b + 1) + 1 = 6 - b by omega] at hstep
  have hall : ∀ m x b, missingDirect m x b = missingFrom m x b (6 - b) := fun _ _ _ => rfl
  rw [hall, hall]
  omega

/-- `write_direct_block` stores one block and goes on with the next, or stops where it is. -/
theorem writeDirectBlock_cases (fuel : ℕ) (src : Mem) (hr : Ready m t i b off n) (hb : b < 6) :
    (growPath m (t i) (pathTo b) = (false,m,t i) ∧ writeDirectBlock (fuel + 1) m (t i) b off src n = some (0,m,t i)) ∨
    ∃ m₁ x₁ m₂, growPath m (t i) (pathTo b) = (true,m₁,x₁) ∧
      m₂ = storeAt m₁ x₁ b (piece m (t i) m₁ x₁ b off src (min (1024 - off) n)) ∧
      writeDirectBlock (fuel + 1) m (t i) b off src n =
        if n - min (1024 - off) n = 0 then some (min (1024 - off) n,m₂,x₁)
        else if b + 1 < 6 then addSum (min (1024 - off) n) (writeDirectBlock fuel m₂ x₁ (b + 1) 0
          (shift src (min (1024 - off) n)) (n - min (1024 - off) n))
        else match indirectTarget m₂ x₁ with
          | none => some (0,m₂,x₁)
          | some (indirectID,m₃,x₃) => addSum (min (1024 - off) n) (writeIndirectBlock indexRounds m₃ x₃ (b + 1) 0
            (shift src (min (1024 - off) n)) (n - min (1024 - off) n) indirectID) := by
  have hoff := hr.offLt
  rw [writeDirectBlock, dif_pos hb]
  simp only [blankSpace_eq hoff hr.nLt]
  obtain ⟨ht,hg⟩ | ⟨m₁,x₁,hg,ht⟩ := directTarget_spec hr src hb
  · rw [ht]
    exact Or.inl ⟨hg,rfl⟩
  · right
    obtain ⟨rest,htouch,_⟩ := touchedNodes_step (b := b) (n := n) hoff
    have hc := hr.clean
    rw [htouch] at hc
    obtain ⟨hgr,htype,hdata,_,_,_⟩ := touch_spec hr.sound hr.file (by omega) hc hg zeros
    have hupd : (Function.update t i x₁) i = x₁ := Function.update_self ..
    have hid : DataId (nodePtr m₁ x₁ (.data b)) := by
      have hd := dataId_of_node (i := i) (n := .data b) hgr.sound (by rwa [hupd]) (by rwa [hupd])
      rw [hupd] at hd
      exact hd.1
    refine ⟨m₁,x₁,_,hg,rfl,?_⟩
    rw [ht]
    simp only [blockStoreWrite_data hid.2.le]
    rfl

theorem writeDirectBlock_wrote {fuel : ℕ} (hr : Ready m t i b off n)
    (h : writeDirectBlock fuel m (t i) b off src n = some (r,m',x')) :
    ∃ sum, WriteCall m (t i) b off src n sum m' x' ∧ (r = sum ∨ SpillDrops m (t i) b off n ∧
      sum = 6144 - (b * 1024 + off) ∧ r = 5120 - (b * 1024 + off)) := by
  induction fuel generalizing m t b off src n r with
  | zero => cases h
  | succ fuel ih =>
    have hoff := hr.offLt
    by_cases hb : b < 6
    case neg =>
      rw [writeDirectBlock, dif_neg hb] at h
      cases h
    rcases writeDirectBlock_cases fuel src hr hb with ⟨hg,he⟩ | ⟨m₁,x₁,m₂,hg,hm₂,he⟩
    · rw [he] at h
      cases h
      by_cases hn : n = 0
      · rw [hn]
        exact ⟨0,WriteCall.wrote Wrote.done,Or.inl rfl⟩
      · exact ⟨0,WriteCall.wrote (Wrote.full (by omega) (by omega) hg),Or.inl rfl⟩
    · rw [he] at h
      obtain ⟨rest,htouch,_⟩ := touchedNodes_step (b := b) (n := n) hoff
      have hc := hr.clean
      rw [htouch] at hc
      obtain ⟨hgr,_,_,_,_,hkeep⟩ := touch_spec hr.sound hr.file (by omega) hc hg
        (piece m (t i) m₁ x₁ b off src (min (1024 - off) n))
      rw [← hm₂] at hkeep
      have hupd : (Function.update t i x₁) i = x₁ := Function.update_self ..
      by_cases hz : n - min (1024 - off) n = 0
      · rw [if_pos hz] at h
        cases h
        by_cases hn : n = 0
        · subst hn
          simp only [Nat.min_zero] at hm₂ ⊢
          exact ⟨0,WriteCall.touch hb rfl rfl hg hm₂,Or.inl rfl⟩
        · refine ⟨min (1024 - off) n + 0,WriteCall.wrote (Wrote.step (by omega) (by omega) hg ?_),Or.inl rfl⟩
          rw [hz, ← hm₂]
          exact Wrote.done
      rw [if_neg hz] at h
      have hnext := hr.touch (by omega) hg (piece m (t i) m₁ x₁ b off src (min (1024 - off) n)) (by omega)
      have hstep : ∀ r' m'' x'', Wrote (storeAt m₁ x₁ b (piece m (t i) m₁ x₁ b off src (min (1024 - off) n))) x₁ (b + 1) 0
          (shift src (min (1024 - off) n)) (n - min (1024 - off) n) r' m'' x'' →
          Wrote m (t i) b off src n (min (1024 - off) n + r') m'' x'' :=
        fun _ _ _ hw => Wrote.step (by omega) (by omega) hg hw
      have hmissing := (missingDirect_step (c := piece m (t i) m₁ x₁ b off src (min (1024 - off) n)) hr hb hg).mpr
      rw [← hm₂] at hnext hstep hmissing
      by_cases h5 : b + 1 < 6
      · rw [if_pos h5] at h
        obtain ⟨⟨r',m'',x''⟩,hd,hres⟩ := Option.map_eq_some_iff.mp h
        cases hres
        obtain ⟨sum,hw,hsum⟩ := ih hnext (by rw [hupd]; exact hd)
        rw [hupd] at hw hsum
        refine ⟨_,WriteCall.wrote (hstep _ _ _ (hw.wrote_of_pos (by omega))),?_⟩
        rcases hsum with rfl | ⟨⟨_,hlt,hind,hcount⟩,hsum,hr'⟩
        · exact Or.inl rfl
        · right
          rw [Nat.add_zero] at hlt hsum hr'
          refine ⟨⟨hb,by omega,?_,hmissing hcount⟩,by omega,by simp only; omega⟩
          by_contra hne
          rw [hkeep, hgr.nodePtr_eq hr.file hne] at hind
          exact hne hind
      · rw [if_neg h5] at h
        have hb5 : b = 5 := by omega
        cases hi : indirectTarget m₂ x₁ with
        | none =>
          rw [hi] at h
          cases h
          obtain ⟨hind,hfull⟩ := indirectTarget_none hnext.sound.sys hi
          have hcount : (freeBlocks m').length = missingDirect m' x' (b + 1) := by
            rw [freeBlocks_eq_nil hfull, missingDirect, hb5]
            rfl
          refine ⟨min (1024 - off) n + 0,WriteCall.wrote (hstep _ _ _ (Wrote.full (by omega) (by omega)
              (indirectTarget_none_path hnext.sound.sys (by omega) (by omega) hi))),Or.inr
            ⟨⟨hb,by omega,?_,hmissing hcount⟩,by omega,by omega⟩⟩
          by_contra hne
          rw [hkeep, hgr.nodePtr_eq hr.file hne] at hind
          exact hne hind
        | some res =>
          obtain ⟨id,m₃,x₃⟩ := res
          rw [hi] at h
          obtain ⟨⟨r',m'',x''⟩,hd,hres⟩ := Option.map_eq_some_iff.mp h
          cases hres
          have hw := enterIndirect_wrote hnext (by omega) (by omega) (by rw [hupd]; exact hi) hd
          rw [hupd] at hw
          exact ⟨_,WriteCall.wrote (hstep _ _ _ (hw.wrote_of_pos (by omega))),Or.inl rfl⟩

end Direct

/-- `fs_write` writes block by block, whatever the level that the cursor stands in. -/
theorem writeFrom_wrote {i : Fin 256} {t : Table} {m m' : Mem} {x' : Inode} {b off n r : ℕ} {src : Mem}
    (hr : Ready m t i b off n) (h : writeFrom m (t i) b off src n = some (some (r,m',x'))) :
    ∃ sum, WriteCall m (t i) b off src n sum m' x' ∧ (r = sum ∨ SpillDrops m (t i) b off n ∧
      sum = 6144 - (b * 1024 + off) ∧ r = 5120 - (b * 1024 + off)) := by
  unfold writeFrom at h
  split_ifs at h with h6 h518
  · obtain ⟨_,hd,he⟩ := Option.map_eq_some_iff.mp h
    cases he
    exact writeDirectBlock_wrote hr hd
  · cases ht : indirectTarget m (t i) with
    | none =>
      rw [ht] at h
      cases h
    | some res =>
      obtain ⟨id,m₁,x₁⟩ := res
      rw [ht] at h
      obtain ⟨_,hd,he⟩ := Option.map_eq_some_iff.mp h
      cases he
      exact ⟨r,enterIndirect_wrote hr (by omega) h518 ht hd,Or.inl rfl⟩
  · obtain ⟨_,hd,he⟩ := Option.map_eq_some_iff.mp h
    cases he
    exact ⟨r,writeDouble_wrote (writeIndirectBlock_wrote indexRounds) hr (by omega) hd,Or.inl rfl⟩

/-- The early return: nothing was written. -/
theorem writeFrom_none {i : Fin 256} {t : Table} {m : Mem} {b off n : ℕ} {src : Mem}
    (hr : Ready m t i b off n) (h : writeFrom m (t i) b off src n = some none) :
    WriteCall m (t i) b off src n 0 m (t i) := by
  unfold writeFrom at h
  split_ifs at h with h6 h518
  · obtain ⟨_,_,he⟩ := Option.map_eq_some_iff.mp h
    cases he
  · cases ht : indirectTarget m (t i) with
    | none =>
      by_cases hn : n = 0
      · rw [hn]
        exact WriteCall.wrote Wrote.done
      · exact WriteCall.wrote (Wrote.full (by omega) (by omega)
          (indirectTarget_none_path hr.sound.sys (by omega) h518 ht))
    | some res =>
      obtain ⟨id,m₁,x₁⟩ := res
      rw [ht] at h
      obtain ⟨_,_,he⟩ := Option.map_eq_some_iff.mp h
      cases he
  · obtain ⟨_,_,he⟩ := Option.map_eq_some_iff.mp h
    cases he

end LiteOSFS
