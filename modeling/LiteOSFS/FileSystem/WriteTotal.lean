import LiteOSFS.FileSystem.WriteDispatch

/-! # When the writers return

With the cursor inside its block there is one thing that the writers cannot do: go
on past the last block that a 16-bit locator reaches. They come that far only when
the free blocks pay for all of it.
-/
namespace LiteOSFS
open Memory Ownership

/-- Within `n` bytes from offset `off` of block `b`, the free blocks reach the end of block 65541. -/
def Overruns (m : Mem) (x : Inode) (b off n : ℕ) : Prop :=
  ∃ r ≤ n, Affordable m x (b * 1024 + off) r ∧ 65542 * 1024 ≤ b * 1024 + off + r

section Lift
variable {i : Fin 256} {t : Table} {m m₁ : Mem} {x₁ : Inode} {b off n : ℕ} {rest : List Node}

theorem Overruns.of_next {c : Mem} (hv : Visitable m t i (pathTo b) rest)
    (hg : growPath m (t i) (pathTo b) = (true,m₁,x₁)) (hoff : off < 1024) (hpos : 0 < n - min (1024 - off) n)
    (h : Overruns (storeAt m₁ x₁ b c) x₁ (b + 1) 0 (n - min (1024 - off) n)) : Overruns m (t i) b off n := by
  obtain ⟨r,hr,haff,hend⟩ := h
  rw [Nat.add_zero] at haff hend
  exact ⟨1024 - off + r,by omega,(hv.affordable_succ hg hoff c).mp haff,by omega⟩

theorem Overruns.of_up (hr : Ready m t i b off n) (hoff : off < 1024)
    (hg : growPath m (t i) (pathTo b).dropLast = (true,m₁,x₁)) (h : Overruns m₁ x₁ b off n) : Overruns m (t i) b off n := by
  obtain ⟨r,hle,haff,hend⟩ := h
  obtain ⟨rest,hv⟩ := hr.visitable_up
  exact ⟨r,hle,(hv.affordable_up hg hoff).mp haff,hend⟩

end Lift

section Loop
variable {t : Table} {i : Fin 256} {p : Node} {base id : ℕ} {st st' : IndirectWrite}

/-- The loop leaves no more bytes to write, and the cursor inside its block. -/
theorem writeIndirectLoop_bounds {fuel : ℕ} {done : Bool} (h : writeIndirectLoop fuel st = some (done,st'))
    (hoff : st.fdOffset < 1024) : st'.nbyte ≤ st.nbyte ∧ st'.fdOffset < 1024 := by
  induction fuel generalizing st with
  | zero =>
    cases h
    exact ⟨le_rfl,hoff⟩
  | succ fuel ih =>
    rw [writeIndirectLoop] at h
    split_ifs at h
    · cases htarget : slotTarget st with
      | none =>
        rw [htarget] at h
        cases h
        exact ⟨le_rfl,hoff⟩
      | some r =>
        simp only [htarget] at h
        cases hblock : memcpyInto ((blockStoreRead r.2.1 wholeStore r.1).getD zeros) st.fdOffset st.src
            (blankSpace st.fdOffset st.nbyte) with
        | none =>
          rw [hblock] at h
          cases h
        | some block =>
          rw [hblock] at h
          obtain ⟨hle,hlt⟩ := ih h (Nat.zero_lt_succ _)
          exact ⟨hle.trans (Nat.sub_le _ _),hlt⟩
    · cases h
      exact ⟨le_rfl,hoff⟩

theorem writeIndirectLoop_overruns {fuel : ℕ} {done : Bool} (hs : Sound (st.flushed id) t)
    (hfile : (t i).fileType ≠ typeDirectory) (hat : AtIndex (st.flushed id) (t i) p base id)
    (hoff : st.fdOffset < 1024) (hn : st.nbyte < 2 ^ 64)
    (hc : 0 < st.nbyte →
      Clean (st.flushed id) (t i) (touchedNodes (base + st.indirectPtrID) st.fdOffset st.nbyte))
    (h : writeIndirectLoop fuel st = some (done,st')) (hpos : 0 < st'.nbyte)
    (hover : Overruns (st'.flushed id) (t i) (base + st'.indirectPtrID) st'.fdOffset st'.nbyte) :
    Overruns (st.flushed id) (t i) (base + st.indirectPtrID) st.fdOffset st.nbyte := by
  induction fuel generalizing st with
  | zero =>
    cases h
    exact hover
  | succ fuel ih =>
    rw [writeIndirectLoop] at h
    by_cases hcond : st.indirectPtrID < 512 ∧ st.nbyte > 0
    swap
    · rw [if_neg hcond] at h
      cases h
      exact hover
    rw [if_pos hcond] at h
    obtain ⟨hj,hpos₀⟩ := hcond
    cases htarget : slotTarget st with
    | none =>
      rw [htarget] at h
      cases h
      exact hover
    | some r =>
      obtain ⟨blk,image,ptrs⟩ := r
      simp only [htarget] at h
      cases hblock : memcpyInto ((blockStoreRead image wholeStore blk).getD zeros) st.fdOffset st.src
          (blankSpace st.fdOffset st.nbyte) with
      | none =>
        rw [hblock] at h
        cases h
      | some block =>
        rw [hblock] at h
        obtain ⟨st₁,hst₁⟩ : ∃ st₁ : IndirectWrite, st₁ = ⟨(blockStoreWrite image wholeStore blk block).2,ptrs,
          st.indirectPtrID + 1,(st.fdLocator + 1) % 65536,0,shift st.src (blankSpace st.fdOffset st.nbyte),
          st.nbyte - blankSpace st.fdOffset st.nbyte,st.sum + blankSpace st.fdOffset st.nbyte⟩ := ⟨_,rfl⟩
        have hc := hc hpos₀
        have hstep := slotStep_spec hs hfile hat hj hoff.le hpos₀ hn hc htarget hblock hst₁
        obtain ⟨m₁,hg,hflush⟩ := slotStep_touch hs hfile hat hj hoff.le hn hc htarget hblock hst₁
        have hs₁ : Sound (st₁.flushed id) t := by
          have hs₁ := hstep.ext.sound
          rwa [Function.update_eq_self] at hs₁
        rw [blankSpace_eq hoff.le hn] at hst₁
        have hst : st₁.indirectPtrID = st.indirectPtrID + 1 ∧ st₁.fdOffset = 0 ∧
            st₁.nbyte = st.nbyte - min (1024 - st.fdOffset) st.nbyte := by
          rw [hst₁]
          exact ⟨rfl,rfl,rfl⟩
        obtain ⟨hslot,hoff₁,hn₁⟩ := hst
        have hrun : writeIndirectLoop fuel st₁ = some (done,st') := by
          rw [hst₁, ← blankSpace_eq hoff.le hn]
          exact h
        have hle := hstep.nbyteLe
        have hrest := ih hs₁ hstep.index (by omega) (by omega) hstep.clean hrun
        have hpos₁ : 0 < st₁.nbyte := by
          have hle := (writeIndirectLoop_bounds hrun (by omega)).1
          omega
        rw [hflush, hslot, hoff₁, hn₁] at hrest
        rw [hn₁] at hpos₁
        have hbound := hat.bound
        obtain ⟨rest,htouch,_⟩ := touchedNodes_step (b := base + st.indirectPtrID) (n := st.nbyte) hoff.le
        have hv := visitable_path hs hfile (show base + st.indirectPtrID < 262662 by omega) (htouch ▸ hc)
        exact Overruns.of_next hv hg hoff hpos₁ hrest

end Loop

/-- A writer of index blocks, with `fuel` of them left, stops only past the last block. -/
def IndexWriter.Stops (w : IndexWriter) (i : Fin 256) (fuel : ℕ) : Prop :=
  ∀ {m : Mem} {t : Table} {b off n base id : ℕ} {p : Node} {src : Mem}, Ready m t i b off n → off < 1024 →
    AtIndex m (t i) p base id → base ≤ b → b < base + 512 → 65542 ≤ base + 512 * fuel →
    w m (t i) b off src n id = none → Overruns m (t i) b off n

section Levels
variable {i : Fin 256} {t : Table} {m : Mem} {b off n : ℕ} {src : Mem}

theorem writeDouble_overruns {w : IndexWriter} {fuel : ℕ} (hw : w.Stops i fuel) (hr : Ready m t i b off n)
    (hoff : off < 1024) (hb : 518 ≤ b) (hfuel : 65542 ≤ 518 + 512 * ((b - 518) / 512) + 512 * fuel)
    (h : writeDoubleDirectBlock w m (t i) b off src n = none) : Overruns m (t i) b off n := by
  rcases writeDouble_cases w src hr hb with ⟨m₁,x₁,_,_,he⟩ | ⟨m₁,x₁,hg,he⟩
  · rw [he] at h
    cases h
  · rw [he] at h
    have hupd : (Function.update t i x₁) i = x₁ := Function.update_self ..
    have hat := hr.atIndex_sec hb hg
    have hover := hw (hr.grow_up hg).1 hoff (by rw [hupd]; exact hat) (by omega) (by omega) hfuel
      (by rw [hupd]; exact h)
    rw [hupd] at hover
    exact hover.of_up hr hoff hg

theorem writeIndirectBlock_overruns (fuel : ℕ) : IndexWriter.Stops (writeIndirectBlock fuel) i fuel := by
  induction fuel with
  | zero =>
    intro m t b off n base id p src _ _ hat _ _ hfuel _
    have hbound := hat.bound
    omega
  | succ fuel ih =>
    intro m t b off n base id p src hr hoff hat hlo hhi hfuel h
    have halign := hat.align
    have hbound := hat.bound
    have hblt := hr.bLt
    obtain ⟨st,done,st',hst,hflush,hl,hspec,_,hfin,he⟩ := writeIndirectBlock_loop fuel src hr hat hlo hhi
    rw [he] at h
    have hst₀ : base + st.indirectPtrID = b ∧ st.fdLocator = b ∧ st.fdOffset = off ∧ st.nbyte = n := by
      rw [hst]
      exact ⟨by simp only; omega,rfl,rfl,rfl⟩
    obtain ⟨hslot,hloc₀,hoff₀,hn₀⟩ := hst₀
    split_ifs at h with hstop
    obtain ⟨hdone,hz⟩ : done = true ∧ st'.nbyte ≠ 0 := by simpa using hstop
    have hend : st'.indirectPtrID = 512 := (hfin hdone).resolve_left hz
    have hlift := writeIndirectLoop_overruns (hflush.symm ▸ hr.sound) hr.file (hflush.symm ▸ hat) (hoff₀ ▸ hoff)
      (hn₀ ▸ hr.nLt) (fun _ => by rw [hflush, hslot, hoff₀, hn₀]; exact hr.clean) hl (by omega)
    rw [hflush, hslot, hoff₀, hn₀, hend] at hlift
    apply hlift
    have hloc := hspec.locator
    have hlt := hspec.locatorLt (by omega)
    rw [hloc₀, hend] at hloc
    by_cases hwrap : base + 512 < 65536
    · have hoff' := (writeIndirectLoop_bounds hl (hoff₀ ▸ hoff)).2
      have hnext := hspec.next hr.file hend (by omega) (hn₀ ▸ hr.nLt) hwrap
      rw [show st'.fdLocator = base + 512 by omega] at h
      exact writeDouble_overruns ih hnext hoff' (by omega) (by omega) (Option.map_eq_none_iff.mp h)
    · exact ⟨0,Nat.zero_le _,affordable_zero,by omega⟩

theorem enterIndirect_overruns {m₁ : Mem} {x₁ : Inode} {id : ℕ} (hr : Ready m t i b off n) (hoff : off < 1024)
    (h6 : 6 ≤ b) (h518 : b < 518) (ht : indirectTarget m (t i) = some (id,m₁,x₁))
    (h : writeIndirectBlock indexRounds m₁ x₁ b off src n id = none) : Overruns m (t i) b off n := by
  obtain ⟨hg,hat⟩ := indirectTarget_some hr h6 h518 ht
  have hupd : (Function.update t i x₁) i = x₁ := Function.update_self ..
  have hover := writeIndirectBlock_overruns indexRounds (hr.grow_up hg).1 hoff (by rw [hupd]; exact hat) h6 (by omega)
    (by decide) (by rw [hupd]; exact h)
  rw [hupd] at hover
  exact hover.of_up hr hoff hg

theorem writeDirectBlock_overruns {fuel : ℕ} (hr : Ready m t i b off n) (hoff : off < 1024) (hb : b < 6)
    (hfuel : 6 ≤ b + fuel) (h : writeDirectBlock fuel m (t i) b off src n = none) : Overruns m (t i) b off n := by
  induction fuel generalizing m t b off src n with
  | zero => omega
  | succ fuel ih =>
    rcases writeDirectBlock_cases fuel src hr hb with ⟨_,he⟩ | ⟨m₁,x₁,m₂,hg,hm₂,he⟩
    · rw [he] at h
      cases h
    rw [he] at h
    split_ifs at h with hz h5
    all_goals
      obtain ⟨rest,hv⟩ := hr.visitable
      have hnext := hr.touch (by omega) hg (piece m (t i) m₁ x₁ b off src (min (1024 - off) n)) (by omega)
      have hupd : (Function.update t i x₁) i = x₁ := Function.update_self ..
      apply Overruns.of_next (c := piece m (t i) m₁ x₁ b off src (min (1024 - off) n)) hv hg hoff (by omega)
      rw [← hm₂] at hnext ⊢
    · have hover := ih hnext (Nat.zero_lt_succ _) h5 (by omega) (by rw [hupd]; exact Option.map_eq_none_iff.mp h)
      rwa [hupd] at hover
    · cases hi : indirectTarget m₂ x₁ with
      | none =>
        rw [hi] at h
        cases h
      | some res =>
        obtain ⟨id,m₃,x₃⟩ := res
        rw [hi] at h
        have hover := enterIndirect_overruns hnext (Nat.zero_lt_succ _) (by omega) (by omega) (by rw [hupd]; exact hi)
          (Option.map_eq_none_iff.mp h)
        rwa [hupd] at hover

/-- `fs_write` returns, unless the free blocks reach past the last block. -/
theorem writeFrom_overruns (hr : Ready m t i b off n) (hoff : off < 1024)
    (h : writeFrom m (t i) b off src n = none) : Overruns m (t i) b off n := by
  have hblt := hr.bLt
  unfold writeFrom at h
  split_ifs at h with h6 h518
  · exact writeDirectBlock_overruns hr hoff h6 (by omega) (Option.map_eq_none_iff.mp h)
  · cases ht : indirectTarget m (t i) with
    | none =>
      rw [ht] at h
      cases h
    | some res =>
      obtain ⟨id,m₁,x₁⟩ := res
      rw [ht] at h
      exact enterIndirect_overruns hr hoff (by omega) h518 ht (Option.map_eq_none_iff.mp h)
  · refine writeDouble_overruns (writeIndirectBlock_overruns indexRounds) hr hoff (by omega) ?_
      (Option.map_eq_none_iff.mp h)
    rw [indexRounds]
    omega

/-- The direct blocks take the last free ones: the count of the last of them is dropped. -/
theorem writeDirectBlock_spill {fuel r : ℕ} {m' : Mem} {x' : Inode} (hr : Ready m t i b off n) (hoff : off < 1024)
    (hs : SpillDrops m (t i) b off n) (h : writeDirectBlock fuel m (t i) b off src n = some (r,m',x')) :
    r = 5120 - (b * 1024 + off) := by
  induction fuel generalizing m t b off src n r with
  | zero => cases h
  | succ fuel ih =>
    obtain ⟨hb,hlong,hind,hcount⟩ := hs
    have hpath : pathTo b = [.data b] := if_pos hb
    obtain ⟨rest,hv⟩ := hr.visitable
    rcases writeDirectBlock_cases fuel src hr hb with ⟨hg,_⟩ | ⟨m₁,x₁,m₂,hg,hm₂,he⟩
    · have hlt := (hv.count hg).2 rfl
      rw [card_absent_list hv.nodup, hpath, List.countP_singleton, hcount, missingDirect_succ hb] at hlt
      cases hhas : hasNode m (t i) (.data b) <;> simp [hhas] at hlt
    rw [he, if_neg (by omega)] at h
    have hnext := hr.touch (by omega) hg (piece m (t i) m₁ x₁ b off src (min (1024 - off) n)) (by omega)
    have hstep := (missingDirect_step (c := piece m (t i) m₁ x₁ b off src (min (1024 - off) n)) hr hb hg).mp hcount
    have hhas := hv.grown hg .ind
    rw [← (hv.stored hg (piece m (t i) m₁ x₁ b off src (min (1024 - off) n))).2] at hhas
    rw [← hm₂] at hnext hstep hhas
    have hind₂ : nodePtr m₂ x₁ .ind = 0 := by simpa [hind, hpath, hasNode] using hhas
    have hupd : (Function.update t i x₁) i = x₁ := Function.update_self ..
    by_cases h5 : b + 1 < 6
    · rw [if_pos h5] at h
      obtain ⟨⟨r',m'',x''⟩,hd,hres⟩ := Option.map_eq_some_iff.mp h
      cases hres
      have hspill : SpillDrops m₂ x₁ (b + 1) 0 (n - min (1024 - off) n) :=
        ⟨h5,by rw [Nat.add_zero]; omega,hind₂,hstep⟩
      have hr' := ih hnext (Nat.zero_lt_succ _) (by rw [hupd]; exact hspill) (by rw [hupd]; exact hd)
      rw [Nat.add_zero] at hr'
      simp only
      omega
    · rw [if_neg h5] at h
      have hfull : firstFree m₂ = sizeMax := by
        by_contra hf
        have hb5 : b = 5 := by omega
        rw [freeBlocks_cons hnext.sound.sys hf (fun k _ => used_setUsed _), hb5] at hstep
        cases hstep
      have ht : indirectTarget m₂ x₁ = none := by
        rw [indirectTarget_eq hnext.sound.sys, grow_full hind₂ hfull]
        rfl
      rw [ht] at h
      cases h
      omega

end Levels

end LiteOSFS
