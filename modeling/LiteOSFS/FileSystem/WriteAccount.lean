import LiteOSFS.FileSystem.FileCalls

/-! # The blocks that a write takes

The blocks newly marked are held by the file, those that stay free keep their
bytes, and the new nodes lie on the way to the blocks written.
-/
namespace LiteOSFS
open Memory Ownership

structure Account (m : Mem) (t : Table) (i : Fin 256) (m' : Mem) (x' : Inode) : Prop where
  marks : ∀ b, DataId b → used m' b = true → used m b = true ∨ ∃ n, nodePtr m' x' n = b
  untouched : ∀ b, DataId b → used m' b = false → blockAt m' b = blockAt m b

/-- A path is grown by filling its empty nodes one after the other. -/
inductive GrowSteps (i : Fin 256) : Mem → Table → Mem → Inode → Prop where
  | refl {m t} : GrowSteps i m t m (t i)
  | step {m t n id m₁ x₁ m' x'} (hs : Sound m t) (hfile : (t i).fileType ≠ typeDirectory)
      (hn : nodePtr m (t i) n = 0) (g : GrownAt m t i n id m₁ x₁)
      (hr : GrowSteps i m₁ (Function.update t i x₁) m' x') : GrowSteps i m t m' x'

theorem growPath_steps {m : Mem} {t : Table} {i : Fin 256} {before ns rest : List Node} (hs : Sound m t)
    (hfile : (t i).fileType ≠ typeDirectory) (hroot : Rooted before ns)
    (hbefore : ∀ p ∈ before, nodePtr m (t i) p ≠ 0) (hc : Clean m (t i) (ns ++ rest))
    {ok : Bool} {m' : Mem} {x' : Inode} (h : growPath m (t i) ns = (ok,m',x')) : GrowSteps i m t m' x' := by
  induction ns generalizing m t before with
  | nil =>
    cases h
    exact GrowSteps.refl
  | cons n ns ih =>
    obtain ⟨hpar,hroot'⟩ := hroot
    have hbelow : nodePtr m (t i) n ≠ 0 → ∀ p ∈ n :: before, nodePtr m (t i) p ≠ 0 := by
      intro hn p hp
      rcases List.mem_cons.mp hp with rfl | hp
      · exact hn
      · exact hbefore p hp
    by_cases hn : nodePtr m (t i) n = 0
    swap
    · rw [growPath_some (grow_present hn)] at h
      exact ih hs hfile hroot' (hbelow hn) (hc.skip hn) h
    cases hg : grow m (t i) n with
    | none =>
      rw [growPath_none hg] at h
      cases h
      exact GrowSteps.refl
    | some r =>
      obtain ⟨m₁,x₁⟩ := r
      have hf : firstFree m ≠ sizeMax := by
        intro hf
        rw [grow_full hn hf] at hg
        cases hg
      have g := grow_missing hs hfile hn (fun p j hp => ⟨hbefore p (hpar p j hp).1,(hpar p j hp).2⟩)
        (fun k hk => hc.head hs.sys hn hf k hk) hg
      have htype : x₁.fileType ≠ typeDirectory := by rwa [attributes_fileType g.attrs]
      have hupd : (Function.update t i x₁) i = x₁ := Function.update_self ..
      have hptr : ∀ l, nodePtr m₁ x₁ l = if l = n then firstFree m else nodePtr m (t i) l := by
        intro l
        have hh := g.holds (i,l)
        rw [held_update_same, owns_of_file htype] at hh
        rw [hh, held, owns_of_file hfile]
        simp only [Prod.mk.injEq, true_and]
      rw [growPath_some hg] at h
      refine GrowSteps.step hs hfile hn g (ih (g.extends hs hfile hn).sound (by rwa [hupd]) hroot' (fun p hp => ?_)
        (by rw [hupd]; exact hc.tail hs hfile hn hf g) (by rwa [hupd]))
      rw [hupd, hptr]
      split_ifs with hpn
      · exact g.data.ne_zero
      · exact hbefore p ((List.mem_cons.mp hp).resolve_left hpn)

section Account
variable {m m₁ m' : Mem} {t : Table} {i : Fin 256} {x₁ x' : Inode}

theorem Account.refl : Account m t i m (t i) := ⟨fun _ _ h => Or.inl h,fun _ _ _ => rfl⟩

/-- Blocks stay used and nodes stay filled. -/
theorem Account.trans (h : Account m t i m₁ x₁) (h' : Account m₁ (Function.update t i x₁) i m' x')
    (hx : x₁.fileType ≠ typeDirectory) (he : Extends m₁ (Function.update t i x₁) i m' x') : Account m t i m' x' := by
  have hupd : (Function.update t i x₁) i = x₁ := Function.update_self ..
  refine ⟨fun b hb hu => ?_,fun b hb hu => ?_⟩
  · rcases h'.marks b hb hu with hu₁ | hn
    · refine (h.marks b hb hu₁).imp id (fun ⟨n,hn⟩ => ⟨n,?_⟩)
      have hk := he.nodePtr_eq (n := n) (by rwa [hupd]) (by rw [hupd, hn]; exact hb.ne_zero)
      rw [hk, hupd, hn]
    · exact Or.inr hn
  · have hlt := hb.2
    have hu₁ : used m₁ b = false := by
      by_contra hc
      rw [he.mono b (by omega) (by simpa using hc)] at hu
      cases hu
    rw [h'.untouched b hb hu, h.untouched b hb hu₁]

theorem GrownAt.account {n : Node} {id : ℕ} (hs : Sound m t) (hfile : (t i).fileType ≠ typeDirectory)
    (g : GrownAt m t i n id m' x') : Account m t i m' x' := by
  have htype : x'.fileType ≠ typeDirectory := by rwa [attributes_fileType g.attrs]
  refine ⟨fun b hb hu => ?_,fun b hb hu => ?_⟩
  · have hlt := hb.2
    rw [g.marks b (by omega), Bool.or_eq_true, decide_eq_true_eq] at hu
    rcases hu with rfl | hu
    · have hh := g.holds (i,n)
      rw [held_update_same, owns_of_file htype, if_pos rfl] at hh
      exact Or.inr ⟨n,hh⟩
    · exact Or.inl hu
  · have hlt := hb.2
    rw [g.marks b (by omega), Bool.or_eq_false_iff, decide_eq_false_iff_not] at hu
    refine g.blocks b hb (Ne.symm hu.1) (fun p j _ he => ?_)
    have hused := (dataId_of_node (n := p) hs hfile (by rw [he]; exact hb.ne_zero)).2
    rw [he, hu.2] at hused
    cases hused

theorem GrowSteps.account (h : GrowSteps i m t m' x') : Account m t i m' x' ∧ Extends m t i m' x' ∨ m' = m ∧ x' = t i := by
  induction h with
  | refl => exact Or.inr ⟨rfl,rfl⟩
  | @step m t n id m₁ x₁ m' x' hs hfile hn g hr ih =>
    left
    have htype : x₁.fileType ≠ typeDirectory := by rwa [attributes_fileType g.attrs]
    rcases ih with ⟨ha,he⟩ | ⟨rfl,rfl⟩
    · exact ⟨(g.account hs hfile).trans ha htype he,(g.extends hs hfile hn).trans he⟩
    · rw [Function.update_self]
      exact ⟨g.account hs hfile,g.extends hs hfile hn⟩

theorem growPath_account {before ns rest : List Node} (hs : Sound m t) (hfile : (t i).fileType ≠ typeDirectory)
    (hroot : Rooted before ns) (hbefore : ∀ p ∈ before, nodePtr m (t i) p ≠ 0) (hc : Clean m (t i) (ns ++ rest))
    {ok : Bool} (h : growPath m (t i) ns = (ok,m',x')) : Account m t i m' x' := by
  rcases (growPath_steps hs hfile hroot hbefore hc h).account with ha | ⟨rfl,rfl⟩
  · exact ha.1
  · exact Account.refl

theorem storeAt_account {b : ℕ} {c : Mem} (hs : Sound m t) (hfile : (t i).fileType ≠ typeDirectory)
    (hb : nodePtr m (t i) (.data b) ≠ 0) : Account m t i (storeAt m (t i) b c) (t i) := by
  obtain ⟨hid,hu⟩ := dataId_of_node hs hfile hb
  refine ⟨fun k hk huk => Or.inl ?_,fun k hk huk => ?_⟩
  · have hlt := hk.2
    rwa [storeAt, used_putBlock hid (by omega)] at huk
  · have hlt := hk.2
    rw [storeAt, used_putBlock hid (by omega)] at huk
    rw [storeAt, blockAt_putBlock, if_neg]
    rintro rfl
    rw [hu] at huk
    cases huk

/-- One block of a write. -/
theorem touch_account {b : ℕ} {rest : List Node} (hs : Sound m t) (hfile : (t i).fileType ≠ typeDirectory)
    (hb : b < 262662) (hc : Clean m (t i) (pathTo b ++ rest)) (h : growPath m (t i) (pathTo b) = (true,m₁,x₁)) (c : Mem) :
    Account m t i (storeAt m₁ x₁ b c) x₁ := by
  obtain ⟨hg,htype,hdata,hext,_,_⟩ := touch_spec hs hfile hb hc h c
  have hupd : (Function.update t i x₁) i = x₁ := Function.update_self ..
  have hst := storeAt_account (i := i) (b := b) (c := c) hg.sound (by rwa [hupd]) (by rwa [hupd])
  rw [hupd] at hst
  exact (growPath_account hs hfile (rooted_pathTo hb) (by simp) hc h).trans hst htype hext

end Account

theorem Wrote.account {i : Fin 256} {m m' : Mem} {t : Table} {x x' : Inode} {b off n sum : ℕ} {src : Mem}
    (h : Wrote m x b off src n sum m' x') (hx : x = t i) (hs : Sound m t) (hfile : (t i).fileType ≠ typeDirectory)
    (hoff : off ≤ 1024) (hc : 0 < n → Clean m (t i) (touchedNodes b off n)) :
    Account m t i m' x' ∧ ∀ l, nodePtr m (t i) l = 0 → nodePtr m' x' l ≠ 0 → l ∈ touchedNodes b off n := by
  induction h generalizing t with
  | @done m x b off src =>
    subst hx
    exact ⟨Account.refl,fun l h0 h1 => absurd h0 h1⟩
  | @full m x b off src n m' x' hb hn hg =>
    subst hx
    obtain ⟨rest,htouch,_⟩ := touchedNodes_step (b := b) (n := n) hoff
    have hc := hc hn
    rw [htouch] at hc ⊢
    obtain ⟨hgr,_,_⟩ := growPath_spec hs hfile (rooted_pathTo (by omega)) (by simp) hc hg
    exact ⟨growPath_account hs hfile (rooted_pathTo (by omega)) (by simp) hc hg,
      fun l h0 h1 => List.mem_append_left _ (hgr.visited l h0 h1)⟩
  | @step m x b off src n sum m₁ x₁ m' x' hb hn hg hr ih =>
    subst hx
    obtain ⟨rest,htouch,hrest⟩ := touchedNodes_step (b := b) (n := n) hoff
    have hc := hc hn
    rw [htouch] at hc ⊢
    obtain ⟨hgr,htype,hdata,hext,hclean,hkeep⟩ := touch_spec hs hfile (by omega) hc hg
      (piece m (t i) m₁ x₁ b off src (min (1024 - off) n))
    have hupd : (Function.update t i x₁) i = x₁ := Function.update_self ..
    have hs₁ := hext.sound
    rw [Function.update_idem] at hs₁
    have hclean' : 0 < n - min (1024 - off) n → Clean (storeAt m₁ x₁ b (piece m (t i) m₁ x₁ b off src
        (min (1024 - off) n))) (Function.update t i x₁ i) (touchedNodes (b + 1) 0 (n - min (1024 - off) n)) :=
      fun hpos => by rw [hupd, ← hrest hpos]; exact hclean
    obtain ⟨ha,hv⟩ := ih (t := Function.update t i x₁) hupd.symm hs₁ (by rwa [hupd]) (by omega) hclean'
    have he := (hr.effect (t := Function.update t i x₁) hupd.symm hs₁ (by rwa [hupd]) (by omega) hclean').ext
    have hfirst := touch_account hs hfile (by omega) hc hg (piece m (t i) m₁ x₁ b off src (min (1024 - off) n))
    refine ⟨hfirst.trans ha htype he,fun l h0 h1 => ?_⟩
    rw [hupd] at hv
    by_cases h2 : nodePtr (storeAt m₁ x₁ b (piece m (t i) m₁ x₁ b off src (min (1024 - off) n))) x₁ l = 0
    · by_cases hz : n - min (1024 - off) n = 0
      · rw [hz] at hr
        cases hr with
        | done => exact absurd h2 h1
        | full _ hn0 _ => omega
        | step _ hn0 _ _ => omega
      · rw [hrest (by omega)]
        exact List.mem_append_right _ (hv l h2 h1)
    · rw [hkeep] at h2
      exact List.mem_append_left _ (hgr.visited l h0 h2)

theorem WriteCall.account {i : Fin 256} {m m' : Mem} {t : Table} {x' : Inode} {b off n sum : ℕ} {src : Mem}
    (h : WriteCall m (t i) b off src n sum m' x') (hr : Ready m t i b off n) :
    Account m t i m' x' ∧ ∀ l, nodePtr m (t i) l = 0 → nodePtr m' x' l ≠ 0 → l ∈ touchedNodes b off n := by
  obtain ⟨rest,htouch,_⟩ := touchedNodes_step (b := b) (n := n) hr.offLt
  have hc := hr.clean
  rw [htouch] at hc
  cases h with
  | wrote h => exact h.account rfl hr.sound hr.file hr.offLt (fun _ => hr.clean)
  | index hb hn hsum hg =>
    rw [pathTo_concat, List.append_assoc] at hc
    obtain ⟨hgr,_,_⟩ := growPath_spec hr.sound hr.file (rooted_dropLast (rooted_pathTo (by omega))) (by simp) hc hg
    refine ⟨growPath_account hr.sound hr.file (rooted_dropLast (rooted_pathTo (by omega))) (by simp) hc hg,
      fun l h0 h1 => ?_⟩
    rw [htouch]
    exact List.mem_append_left _ (List.mem_of_mem_dropLast (hgr.visited l h0 h1))
  | touch hb hn hsum hg hm =>
    subst hm
    obtain ⟨hgr,_,_,_,_,hkeep⟩ := touch_spec hr.sound hr.file (by omega) hc hg (piece m (t i) _ x' b off src 0)
    refine ⟨touch_account hr.sound hr.file (by omega) hc hg _,fun l h0 h1 => ?_⟩
    rw [hkeep] at h1
    rw [htouch]
    exact List.mem_append_left _ (hgr.visited l h0 h1)

/-- `fs_write` changes nothing, or its file takes the blocks that are newly marked. -/
theorem fsWrite_account {s s' : F19FS} {fd : ℤ} {src : Option Mem} {nbyte : UInt64} {ret : ℤ} (hi : ImageInv s.image)
    (hsafe : WriteSafe s fd nbyte) (h : fsWrite s fd src nbyte = some (ret,s')) :
    s' = s ∨ s.Opened fd ∧ (s.inode (s.fileOf fd)).fileType ≠ typeDirectory ∧
    ∃ m' x' size, Extends s.image (tableOf s.image) (s.fileOf fd) m' x' ∧
      Account s.image (tableOf s.image) (s.fileOf fd) m' x' ∧
      s'.image = putInode m' (s.fileOf fd) { x' with fileSize := size } := by
  rcases fsWrite_cases h with ⟨_,rfl⟩ | ⟨src₀,res,_,hlo,hhi,hopen,hw,⟨_,_,rfl⟩ | ⟨r,m',x',rfl,rfl,him,_⟩⟩
  · exact Or.inl rfl
  · exact Or.inl rfl
  obtain ⟨hfile,hc⟩ := hsafe hlo hhi hopen
  obtain ⟨_,_,_,_,hr,hcall⟩ := writeFrom_call (i := s.fileOf fd) hi.sound hfile (UInt16.toNat_lt _) (UInt16.toNat_lt _)
    (UInt64.toNat_lt _) hc hw
  exact Or.inr ⟨⟨hlo,hhi,hopen⟩,hfile,m',x',_,(hcall.effect hr).ext,(hcall.account hr).1,him⟩

end LiteOSFS
