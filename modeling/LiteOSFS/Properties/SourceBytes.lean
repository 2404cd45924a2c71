import LiteOSFS.Properties.ZeroWrite

/-! # The source bytes that a write uses

Two sources that agree on the first `nbyte` bytes leave the same state, unless a
fresh direct block is filled when fewer than 1024 bytes remain: it takes 1024
bytes of the source all the same.
-/
namespace LiteOSFS
open Memory Transition Ownership

/-- The bytes of the source that are used up before block `c`, from offset `off` of block `b`. -/
def usedUp (b off c : ℕ) : ℕ := if c = b then 0 else c * 1024 - (b * 1024 + off)

/-- The write comes to direct block `c`, which is missing and can be allocated, with fewer than 1024 bytes left. -/
structure OverreadsAt (m : Mem) (x : Inode) (b off n c : ℕ) : Prop where
  range : b ≤ c ∧ c < 6
  missing : nodePtr m x (.data c) = 0
  visited : c = b ∨ c * 1024 < b * 1024 + off + n
  short : n < usedUp b off c + 1024
  free : missingFrom m x b (c + 1 - b) ≤ (freeBlocks m).length

/-- The sources give the same bytes as far as `n`. -/
def SameBytes (n : ℕ) (src src' : Mem) : Prop := ∀ k < n, src k = src' k

theorem SameBytes.shift {n k : ℕ} {src src' : Mem} (h : SameBytes n src src') : SameBytes (n - k) (shift src k) (shift src' k) :=
  fun j hj => h (k + j) (by omega)

section Congruence
variable {m : Mem} {x : Inode} {b off n id : ℕ} {src src' : Mem}

/-- The same variables but for the source. -/
def SameButSource (st st' : IndirectWrite) : Prop := st' = { st with src := st'.src } ∧ SameBytes st.nbyte st.src st'.src

theorem memcpyInto_congr {block : Mem} {len : ℕ} (off : ℕ) (h : SameBytes len src src') :
    memcpyInto block off src len = memcpyInto block off src' len := by
  rw [memcpyInto, memcpyInto, copyIn_congr h]

theorem blankSpace_le (off n : ℕ) : blankSpace off n ≤ n := by
  simp only [blankSpace]
  split_ifs <;> omega

theorem SameBytes.mono {k : ℕ} (h : SameBytes n src src') (hk : k ≤ n) : SameBytes k src src' :=
  fun j hj => h j (by omega)

/-- One slot after the other the loop uses the next of the `nbyte` bytes. -/
theorem writeIndirectLoop_congr (fuel : ℕ) {st st' : IndirectWrite} (h : SameButSource st st') :
    (writeIndirectLoop fuel st = none ∧ writeIndirectLoop fuel st' = none) ∨
    ∃ done st₁ st₁', writeIndirectLoop fuel st = some (done,st₁) ∧ writeIndirectLoop fuel st' = some (done,st₁') ∧
      SameButSource st₁ st₁' := by
  induction fuel generalizing st st' with
  | zero => exact Or.inr ⟨true,st,st',rfl,rfl,h⟩
  | succ fuel ih =>
    obtain ⟨he,hsrc⟩ := h
    have hslot : slotTarget st' = slotTarget st := by rw [he]; rfl
    have hid : st'.indirectPtrID = st.indirectPtrID := by rw [he]
    have hn : st'.nbyte = st.nbyte := by rw [he]
    have hoff : st'.fdOffset = st.fdOffset := by rw [he]
    simp only [writeIndirectLoop, hslot, hid, hn, hoff]
    split_ifs with hcond
    · cases slotTarget st with
      | none => exact Or.inr ⟨false,st,st',rfl,rfl,he,hsrc⟩
      | some r =>
        obtain ⟨blockID,image,ptrs⟩ := r
        simp only [← memcpyInto_congr st.fdOffset (hsrc.mono (blankSpace_le st.fdOffset st.nbyte))]
        cases memcpyInto ((blockStoreRead image wholeStore blockID).getD zeros) st.fdOffset st.src
            (blankSpace st.fdOffset st.nbyte) with
        | none => exact Or.inl ⟨rfl,rfl⟩
        | some block =>
          apply ih
          rw [he]
          exact ⟨rfl,hsrc.shift⟩
    · exact Or.inr ⟨true,st,st',rfl,rfl,he,hsrc⟩

theorem writeDouble_congr {w : IndexWriter} (h : ∀ m x id, w m x b off src n id = w m x b off src' n id) :
    writeDoubleDirectBlock w m x b off src n = writeDoubleDirectBlock w m x b off src' n := by
  simp only [writeDoubleDirectBlock, h]

/-- The indirect levels use the `nbyte` bytes only, whatever the image. -/
theorem writeIndirectBlock_congr (fuel : ℕ) (h : SameBytes n src src') :
    writeIndirectBlock fuel m x b off src n id = writeIndirectBlock fuel m x b off src' n id := by
  induction fuel generalizing m x b off n id src src' with
  | zero => rfl
  | succ fuel ih =>
    simp only [writeIndirectBlock]
    cases blockStoreRead m wholeStore id with
    | none => rfl
    | some buffer =>
      have hsame : SameButSource ⟨m,pointersOf buffer,indirectIndex b,b,off,src,n,0⟩
          ⟨m,pointersOf buffer,indirectIndex b,b,off,src',n,0⟩ := ⟨rfl,h⟩
      rcases writeIndirectLoop_congr 512 hsame with ⟨hl,hl'⟩ | ⟨done,st,st',hl,hl',he,hsrc⟩
      · simp only [hl, hl']
      · have hd : ∀ m, writeDoubleDirectBlock (writeIndirectBlock fuel) m x st.fdLocator st.fdOffset st.src st.nbyte =
            writeDoubleDirectBlock (writeIndirectBlock fuel) m x st.fdLocator st.fdOffset st'.src st.nbyte :=
          fun _ => writeDouble_congr (fun _ _ _ => ih hsrc)
        simp only [hl, hl', hd]
        rw [he]

end Congruence

section Direct
variable {i : Fin 256} {t : Table} {m m' : Mem} {x' : Inode} {b off n r c : ℕ} {src src' : Mem}

theorem usedUp_next (hoff : off ≤ 1024) (hc : b + 1 ≤ c) (hn : 0 < n - min (1024 - off) n) :
    usedUp b off c = min (1024 - off) n + usedUp (b + 1) 0 c := by
  unfold usedUp
  split_ifs <;> omega

/-- Past the first block the condition is the same after the block has been stored. -/
theorem OverreadsAt.next {m₁ : Mem} {x₁ : Inode} (buf : Mem) (hr : Ready m t i b off n) (hc : b + 1 ≤ c) (hb : b < 6)
    (hg : growPath m (t i) (pathTo b) = (true,m₁,x₁)) (hn : 0 < n - min (1024 - off) n) :
    OverreadsAt m (t i) b off n c ↔
      OverreadsAt (storeAt m₁ x₁ b buf) x₁ (b + 1) 0 (n - min (1024 - off) n) c := by
  obtain ⟨rest,hv⟩ := hr.visitable
  have hoff := hr.offLt
  have hused := usedUp_next hoff hc hn
  have hmiss : nodePtr (storeAt m₁ x₁ b buf) x₁ (.data c) = 0 ↔ nodePtr m (t i) (.data c) = 0 := by
    have hhas := congrFun (hv.stored hg buf).2 (.data c)
    have hne : ¬ c = b := by omega
    rw [hv.grown hg] at hhas
    simp only [List.mem_toFinset, mem_pathTo_data, hne, decide_false, Bool.or_false, hasNode] at hhas
    rw [Bool.eq_iff_iff, bne_iff_ne, bne_iff_ne] at hhas
    exact not_iff_not.mp hhas
  have hcount := missingFrom_step (c := buf) hr hb hg (c - b)
  constructor
  · rintro ⟨_,hz,hvis,hshort,hfree⟩
    rw [show c + 1 - b = c - b + 1 by omega] at hfree
    refine ⟨by omega,hmiss.mpr hz,by omega,by omega,?_⟩
    rw [show c + 1 - (b + 1) = c - b by omega]
    omega
  · rintro ⟨_,hz,hvis,hshort,hfree⟩
    rw [show c + 1 - (b + 1) = c - b by omega] at hfree
    refine ⟨by omega,hmiss.mp hz,by omega,by omega,?_⟩
    rw [show c + 1 - b = c - b + 1 by omega]
    omega

/-- The piece for a block is the same for both sources. -/
theorem piece_congr {m₁ : Mem} {x₁ : Inode} (hr : Ready m t i b off n) (hb : b < 6)
    (hg : growPath m (t i) (pathTo b) = (true,m₁,x₁)) (hno : ¬ OverreadsAt m (t i) b off n b)
    (h : SameBytes n src src') :
    piece m (t i) m₁ x₁ b off src (min (1024 - off) n) = piece m (t i) m₁ x₁ b off src' (min (1024 - off) n) := by
  unfold piece
  split_ifs with hfresh
  · apply copyIn_congr
    by_cases hn : n < 1024
    · refine absurd ⟨⟨le_rfl,hb⟩,hfresh.2,Or.inl rfl,?_,?_⟩ hno
      · rw [usedUp, if_pos rfl]
        omega
      · obtain ⟨rest,hv⟩ := hr.visitable
        have hcount := (hv.count hg).1 rfl
        rw [card_absent_list hv.nodup, pathTo, if_pos hb, List.countP_singleton, hasNode_false hfresh.2] at hcount
        rw [show b + 1 - b = 0 + 1 by omega, missingFrom_succ, hasNode_false hfresh.2]
        simp only [missingFrom, List.range'_zero, List.countP_nil, Bool.not_false, if_true] at hcount ⊢
        simp only [Bool.false_eq_true, if_false]
        omega
    · exact h.mono (by omega)
  · exact copyIn_congr (h.mono (min_le_right _ _))

theorem writeDirectBlock_congr {fuel : ℕ} (hr : Ready m t i b off n) (hno : ∀ c, ¬ OverreadsAt m (t i) b off n c)
    (h : SameBytes n src src') :
    writeDirectBlock fuel m (t i) b off src n = writeDirectBlock fuel m (t i) b off src' n := by
  induction fuel generalizing m t b off n src src' with
  | zero => rfl
  | succ fuel ih =>
    by_cases hb : b < 6
    case neg => rw [writeDirectBlock, writeDirectBlock, dif_neg hb, dif_neg hb]
    rcases writeDirectBlock_cases fuel src hr hb with ⟨hg,he⟩ | ⟨m₁,x₁,m₂,hg,hm₂,he⟩
    · rcases writeDirectBlock_cases fuel src' hr hb with ⟨_,he'⟩ | ⟨m₁',x₁',_,hg',_,_⟩
      · rw [he, he']
      · rw [hg] at hg'
        cases hg'
    · rcases writeDirectBlock_cases fuel src' hr hb with ⟨hg',_⟩ | ⟨m₁',x₁',m₂',hg',hm₂',he'⟩
      · rw [hg] at hg'
        cases hg'
      rw [hg] at hg'
      cases hg'
      rw [← piece_congr hr hb hg (hno b) h, ← hm₂] at hm₂'
      rw [he, he', hm₂']
      split_ifs with hz h5
      · rfl
      · have hnext := hr.touch (by omega) hg (piece m (t i) m₁ x₁ b off src (min (1024 - off) n)) (by omega)
        have hno' : ∀ c, ¬ OverreadsAt (storeAt m₁ x₁ b (piece m (t i) m₁ x₁ b off src (min (1024 - off) n))) x₁
            (b + 1) 0 (n - min (1024 - off) n) c :=
          fun c ho => hno c ((OverreadsAt.next _ hr ho.range.1 hb hg (by omega)).mpr ho)
        have hrec := ih hnext (by rw [Function.update_self]; exact hno') (h.shift (k := min (1024 - off) n))
        rw [Function.update_self, ← hm₂] at hrec
        rw [hrec]
      · cases indirectTarget m₂ x₁ with
        | none => rfl
        | some res => simp only [writeIndirectBlock_congr indexRounds (h.shift (k := min (1024 - off) n))]

theorem writeFrom_congr (hr : Ready m t i b off n) (hno : ∀ c, ¬ OverreadsAt m (t i) b off n c)
    (h : SameBytes n src src') : writeFrom m (t i) b off src n = writeFrom m (t i) b off src' n := by
  unfold writeFrom
  split_ifs
  · rw [writeDirectBlock_congr hr hno h]
  · cases indirectTarget m (t i) with
    | none => rfl
    | some res => simp only [writeIndirectBlock_congr indexRounds h]
  · rw [writeDouble_congr (fun _ _ _ => writeIndirectBlock_congr indexRounds h)]

/-- A direct block can be grown while there is a free block. -/
theorem Ready.grows_direct {x₁ : Inode} (hr : Ready m t i b off n) (hb : b < 6) (hfree : freeBlocks m ≠ []) :
    growPath m (t i) (pathTo b) ≠ (false,m',x₁) := by
  intro hg
  obtain ⟨rest,hv⟩ := hr.visitable
  have hlt := (hv.count hg).2 rfl
  rw [card_absent_list hv.nodup, pathTo, if_pos hb, List.countP_singleton] at hlt
  have hpos := List.length_pos_iff.mpr hfree
  split_ifs at hlt <;> omega

/-- A direct block that the write starts in and that is fresh holds 1024 bytes of the source. -/
theorem Wrote.fresh_block {sum : ℕ} (h : Wrote m (t i) b off src n sum m' x') (hr : Ready m t i b off n) (hn : 0 < n)
    (hb : b < 6) (hfresh : nodePtr m (t i) (.data b) = 0) (hfree : freeBlocks m ≠ []) :
    ∀ k < 1024, fileByte m' x' (b * 1024 + k) = some (src k) := by
  intro k hk
  have hoff := hr.offLt
  cases h with
  | done => cases hn
  | full _ _ hg => exact absurd hg (hr.grows_direct hb hfree)
  | @step _ _ _ _ _ _ sum m₁ x₁ _ _ _ _ hg hrest =>
    obtain ⟨rest,htouch,hnext⟩ := touchedNodes_step (b := b) (n := n) hoff
    have hc := hr.clean
    rw [htouch] at hc
    obtain ⟨hgr,htype,_,hext,hclean,_⟩ := touch_spec hr.sound hr.file (by omega) hc hg
      (piece m (t i) m₁ x₁ b off src (min (1024 - off) n))
    have hbyte := fileByte_touch (piece m (t i) m₁ x₁ b off src (min (1024 - off) n)) hr.sound hr.file (by omega) hc hg
      (b * 1024 + k)
    have hupd : (Function.update t i x₁) i = x₁ := Function.update_self ..
    have he := hrest.effect hupd.symm (hgr.toExtends.trans hext).sound (by rwa [hupd]) (Nat.zero_le _)
      (fun hpos => by rw [hupd, ← hnext hpos]; exact hclean)
    have hpiece : piece m (t i) m₁ x₁ b off src (min (1024 - off) n) k = src k := by
      rw [piece, if_pos ⟨hb,hfresh⟩, copyIn_inside (by omega) (by omega), Nat.sub_zero]
    rw [if_pos (by omega), show (b * 1024 + k) % 1024 = k by omega, hpiece] at hbyte
    exact he.outside _ _ (by rw [hupd]; exact hbyte) (by omega)

theorem OverreadsAt.freeBlocks_ne_nil {x : Inode} (h : OverreadsAt m x b off n c) : freeBlocks m ≠ [] := by
  intro hnil
  have hfree := h.free
  have hmem : c ∈ List.range' b (c + 1 - b) := List.mem_range'_1.mpr (by have := h.range; omega)
  rw [hnil, List.length_nil, Nat.le_zero, missingFrom, List.countP_eq_zero] at hfree
  exact hfree c hmem (by simp [hasNode_false h.missing])

/-- The block that the condition speaks of holds source bytes from beyond `n`. -/
theorem Wrote.overread {sum : ℕ} (h : Wrote m (t i) b off src n sum m' x') (hr : Ready m t i b off n) (hn : 0 < n)
    (ho : OverreadsAt m (t i) b off n c) : ∀ k < 1024, fileByte m' x' (c * 1024 + k) = some (src (usedUp b off c + k)) := by
  obtain ⟨d,hd⟩ : ∃ d, c = b + d := ⟨c - b,by have := ho.range; omega⟩
  induction d generalizing m t b off n src sum with
  | zero =>
    obtain rfl : c = b := hd
    intro k hk
    rw [usedUp, if_pos rfl, Nat.zero_add]
    exact h.fresh_block hr hn ho.range.2 ho.missing ho.freeBlocks_ne_nil k hk
  | succ d ih =>
    have hoff := hr.offLt
    have hc6 := ho.range.2
    have hb : b < 6 := by omega
    cases h with
    | done => cases hn
    | full _ _ hg => exact absurd hg (hr.grows_direct hb ho.freeBlocks_ne_nil)
    | @step _ _ _ _ _ _ sum m₁ x₁ _ _ _ _ hg hrest =>
      have hvis := ho.visited
      have hpos : 0 < n - min (1024 - off) n := by omega
      have hnext := hr.touch (by omega) hg (piece m (t i) m₁ x₁ b off src (min (1024 - off) n)) hpos
      have hon := (OverreadsAt.next (piece m (t i) m₁ x₁ b off src (min (1024 - off) n)) hr (by omega) hb hg
        hpos).mp ho
      have hupd : (Function.update t i x₁) i = x₁ := Function.update_self ..
      intro k hk
      have hk' := ih (by rw [hupd]; exact hrest) hnext hpos (by rw [hupd]; exact hon) (by omega) k hk
      rw [hk', shift, ← Nat.add_assoc, ← usedUp_next hoff (by omega) hpos]

end Direct

section Write
variable {s s' : F19FS} {fd : ℤ} {src : Mem} {nbyte : UInt64} {ret : ℤ} {c : ℕ}

/-- `fs_write` meets a direct block that it fills from beyond `nbyte`. -/
def Overreads (s : F19FS) (fd : ℤ) (nbyte : UInt64) : Prop :=
  ∃ c, OverreadsAt s.image (s.inode (s.fileOf fd)) (s.descriptor fd.toNat).locateOrder.toNat
    (s.descriptor fd.toNat).locateOffset.toNat nbyte.toNat c

/-- A write of no bytes to a direct block, done by hand since `Wrote` has no step for it. -/
theorem writeDone_nothing (hi : ImageInv s.image) (ho : s.Opened fd) (hsafe : WriteSafe s fd nbyte)
    (hoff : (s.descriptor fd.toNat).locateOffset.toNat ≤ 1024) (hn : nbyte.toNat = 0)
    (hb : (s.descriptor fd.toNat).locateOrder.toNat < 6) (hfree : freeBlocks s.image ≠ [])
    (h : fsWrite s fd (some src) nbyte = some (ret,s')) :
    ∃ m₁ x₁, growPath s.image (s.inode (s.fileOf fd)) (pathTo (s.descriptor fd.toNat).locateOrder.toNat) =
        (true,m₁,x₁) ∧
      WriteDone s fd src nbyte 0 0 (storeAt m₁ x₁ (s.descriptor fd.toNat).locateOrder.toNat
        (piece s.image (s.inode (s.fileOf fd)) m₁ x₁ (s.descriptor fd.toNat).locateOrder.toNat
          (s.descriptor fd.toNat).locateOffset.toNat src 0)) x₁ s' := by
  have hr := ready_of_writeSafe hi ho hsafe hoff
  rw [fsWrite_opened ho, writeFrom, if_pos hb] at h
  rcases writeDirectBlock_cases 5 src hr hb with ⟨hg,_⟩ | ⟨m₁,x₁,m₂,hg,hm₂,he⟩
  · exact absurd hg (hr.grows_direct hb hfree)
  · have he' : writeDirectBlock 6 s.image (s.inode (s.fileOf fd)) (s.descriptor fd.toNat).locateOrder.toNat
        (s.descriptor fd.toNat).locateOffset.toNat src nbyte.toNat = some (0,m₂,x₁) := by
      have hmin : min (1024 - (s.descriptor fd.toNat).locateOffset.toNat) nbyte.toNat = 0 := by omega
      rw [hmin, hn, if_pos rfl] at he
      rw [hn]
      exact he
    rw [he'] at h
    cases h
    rw [hn, Nat.min_zero] at hm₂
    have hcall : WriteCall s.image (s.inode (s.fileOf fd)) (s.descriptor fd.toNat).locateOrder.toNat
        (s.descriptor fd.toNat).locateOffset.toNat src nbyte.toNat 0 m₂ x₁ := WriteCall.touch hb hn rfl hg hm₂
    subst hm₂
    exact ⟨m₁,x₁,hg,ho,hcall,hcall.effect hr,Or.inl rfl,rfl,Or.inl rfl⟩

/-- The last byte of such a block is one from beyond `nbyte`. -/
theorem overread_byte (hi : ImageInv s.image) (ho : s.Opened fd) (hsafe : WriteSafe s fd nbyte)
    (hoff : (s.descriptor fd.toNat).locateOffset.toNat ≤ 1024)
    (hover : OverreadsAt s.image (s.inode (s.fileOf fd)) (s.descriptor fd.toNat).locateOrder.toNat
      (s.descriptor fd.toNat).locateOffset.toNat nbyte.toNat c)
    (h : fsWrite s fd (some src) nbyte = some (ret,s')) :
    fileByte s'.image (s'.inode (s.fileOf fd)) (c * 1024 + 1023) =
      some (src (usedUp (s.descriptor fd.toNat).locateOrder.toNat (s.descriptor fd.toNat).locateOffset.toNat c + 1023)) := by
  have hr := ready_of_writeSafe hi ho hsafe hoff
  by_cases hn : nbyte.toNat = 0
  · obtain ⟨⟨hle,h6⟩,hmiss,hvis,_,_⟩ := id hover
    obtain rfl : c = (s.descriptor fd.toNat).locateOrder.toNat := by omega
    obtain ⟨m₁,x₁,hg,hd⟩ := writeDone_nothing hi ho hsafe hoff hn h6 hover.freeBlocks_ne_nil h
    obtain ⟨rest,hv⟩ := hr.visitable
    rw [hd.fileByte_eq hr.file, usedUp, if_pos rfl, Nat.zero_add]
    generalize (s.descriptor fd.toNat).locateOrder.toNat = b at *
    have hdiv : (b * 1024 + 1023) / 1024 = b := by omega
    have hmod : (b * 1024 + 1023) % 1024 = 1023 := by omega
    have hbyte := fileByte_touch (piece s.image (s.inode (s.fileOf fd)) m₁ x₁ b
      (s.descriptor fd.toNat).locateOffset.toNat src 0) hr.sound hr.file (by omega) hv.clean hg (b * 1024 + 1023)
    rw [if_pos hdiv, hmod, piece, if_pos ⟨h6,hmiss⟩, copyIn_inside (Nat.zero_le _) (by omega), Nat.sub_zero] at hbyte
    rw [piece, if_pos ⟨h6,hmiss⟩]
    exact hbyte
  · rcases fsWrite_done hi hsafe hoff h with ⟨_,_,hclosed⟩ | ⟨r,sum,m',x',_,hd⟩
    · exact absurd ho hclosed
    · have hwrote : Wrote s.image (tableOf s.image (s.fileOf fd)) (s.descriptor fd.toNat).locateOrder.toNat
          (s.descriptor fd.toNat).locateOffset.toNat src nbyte.toNat sum m' x' := hd.wrote.wrote_of_pos (by omega)
      rw [hd.fileByte_eq hr.file]
      exact hwrote.overread hr (by omega) hover 1023 (by omega)

end Write

/-- In a state reached by safe calls, a safe write through a cursor inside its block depends on the `nbyte`
bytes alone if and only if no fresh direct block takes in more. -/
theorem source_bytes {s : F19FS} {fd : ℤ} {nbyte : UInt64} (hs : Reachable s) (ho : s.Opened fd)
    (hsafe : WriteSafe s fd nbyte) (hoff : (s.descriptor fd.toNat).locateOffset.toNat < 1024) :
    (∀ src src', SameBytes nbyte.toNat src src' → fsWrite s fd (some src) nbyte = fsWrite s fd (some src') nbyte) ↔
      ¬ Overreads s fd nbyte := by
  constructor
  · rintro hlaw ⟨c,hover⟩
    have hrange : ∀ r ∈ affordableCounts s fd nbyte, (s.descriptor fd.toNat).position + r < 65536 * 1024 := by
      intro r hr
      have hle : r ≤ nbyte.toNat := hr.1
      obtain ⟨⟨_,h6⟩,_,_,hshort,_⟩ := hover
      unfold usedUp at hshort
      rw [FileDescriptor.position]
      split_ifs at hshort <;> omega
    obtain ⟨r,s',hw⟩ := fsWrite_isSome zeros hs.inv ho hsafe hoff hrange
    have hw' := hw
    rw [hlaw zeros (fun k => if k < nbyte.toNat then 0 else 1) (fun k hk => (if_pos hk).symm)] at hw'
    have hb := overread_byte hs.inv ho hsafe hoff.le hover hw
    have hb' := overread_byte hs.inv ho hsafe hoff.le hover hw'
    have hshort := hover.short
    rw [hb, if_neg (by omega)] at hb'
    have hbit : (0 : UInt8) = 1 := Option.some.inj hb'
    exact absurd hbit (by decide)
  · intro hno src src' h
    rw [fsWrite_opened ho, fsWrite_opened ho]
    have hr := ready_of_writeSafe hs.inv ho hsafe hoff.le
    have hsame := writeFrom_congr hr (fun c hc => hno ⟨c,hc⟩) h
    exact congrArg (Option.map (written s fd)) hsame

theorem source_bytes_block : ∃ s : F19FS, run step fsFormat [.create (pathArg ['/','a']) .regular,
    .openFile (pathArg ['/','a'])] = some s ∧
    fsWrite s 0 (some zeros) 1024 = fsWrite s 0 (some (fun k => if k < 1024 then 0 else 1)) 1024 := by
  have hs : (run step fsFormat [.create (pathArg ['/','a']) .regular,.openFile (pathArg ['/','a'])]).map
      (fun s : F19FS => s.isOpen 0 && decide ((s.descriptor 0).inodeNum = 1 ∧ (s.descriptor 0).locateOrder = 0 ∧
          (s.descriptor 0).locateOffset = 0) && decide ((s.inode 1).fileType = typeRegular)) = some true := by
    decide +kernel
  obtain ⟨s,hs,hf⟩ := Option.map_eq_some_iff.mp hs
  simp only [Bool.and_eq_true, decide_eq_true_eq] at hf
  obtain ⟨⟨hopen,hnum,horder,hoffset⟩,hreg⟩ := hf
  have hn : (s.descriptor (0 : ℤ).toNat).inodeNum.toNat = 1 := congrArg UInt8.toNat hnum
  have ho : (s.descriptor (0 : ℤ).toNat).locateOrder.toNat = 0 := congrArg UInt16.toNat horder
  have hf : (s.descriptor (0 : ℤ).toNat).locateOffset.toNat = 0 := congrArg UInt16.toNat hoffset
  have hsafe : WriteSafe s 0 1024 := by
    refine writeSafe_of_low ?_ ?_ ?_
    · rw [hn, hreg]
      decide
    · rw [hf]
      decide
    · rw [ho, hf]
      decide
  refine ⟨s,hs,(source_bytes (reach_of_guarded_run (by simp [Safe]) hs) ⟨le_rfl,by decide,hopen⟩ hsafe
    (by rw [hf]; decide)).mpr ?_ _ _ (fun k hk => (if_pos hk).symm)⟩
  rintro ⟨c,⟨hrange,_,hvis,hshort,_⟩⟩
  have h1024 : (1024 : UInt64).toNat = 1024 := rfl
  rw [ho, hf, h1024] at hvis
  rw [ho, hf, h1024, usedUp] at hshort
  split_ifs at hshort <;> omega

/-- Five bytes written to a new file bring 1019 more from behind them into the image. -/
theorem source_bytes_fail : ¬ ∀ (s : F19FS) (fd : ℤ) (nbyte : UInt64), Reachable s → s.Opened fd →
    ∀ src src', SameBytes nbyte.toNat src src' → fsWrite s fd (some src) nbyte = fsWrite s fd (some src') nbyte := by
  intro h
  have hs : (run step fsFormat [.create (pathArg ['/','a']) .regular,.openFile (pathArg ['/','a'])]).map
      (fun s : F19FS => s.isOpen 0 &&
        (fsWrite s 0 (some zeros) 5).any (fun r => decide (blockAt r.2.image 18 5 = 0)) &&
        (fsWrite s 0 (some (fun k => if k < 5 then 0 else 1)) 5).all (fun r => decide (blockAt r.2.image 18 5 = 1))) =
      some true := by
    decide +kernel
  obtain ⟨s,hs,hf⟩ := Option.map_eq_some_iff.mp hs
  simp only [Bool.and_eq_true] at hf
  obtain ⟨⟨hopen,hzero⟩,hone⟩ := hf
  have hsame := h s 0 5 (reach_of_guarded_run (by simp [Safe]) hs) ⟨le_rfl,by decide,hopen⟩ zeros
    (fun k => if k < 5 then 0 else 1) (fun k hk => (if_pos hk).symm)
  obtain ⟨r,hr,hbyte⟩ := (Option.any_eq_true _ _).mp hzero
  rw [← hsame, hr, Option.all_some, decide_eq_true_eq, of_decide_eq_true hbyte] at hone
  exact absurd hone (by decide)

end LiteOSFS
