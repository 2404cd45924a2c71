import LiteOSFS.FileSystem.WriteDispatch

/-! # What a write does to the image

Ownership is kept, nothing that another file holds is changed, the bytes written
are found at their offsets and the bytes around them stay.
-/
namespace LiteOSFS
open Memory Ownership

/-- The writer stores at the right offset: it does not start inside a fresh direct block. -/
def Aligned (m : Mem) (x : Inode) (b off : ℕ) : Prop := off = 0 ∨ nodePtr m x (.data b) ≠ 0 ∨ 6 ≤ b

structure WriteEffect (m : Mem) (t : Table) (i : Fin 256) (b off : ℕ) (src : Mem) (n sum : ℕ) (m' : Mem)
    (x' : Inode) : Prop where
  ext : Extends m t i m' x'
  sumLe : sum ≤ n
  inside : Aligned m (t i) b off → ∀ k < sum, fileByte m' x' (b * 1024 + off + k) = some (src k)
  outside : ∀ o v, fileByte m (t i) o = some v → ¬ (b * 1024 + off ≤ o ∧ o < b * 1024 + off + sum) →
    fileByte m' x' o = some v
  fresh : ∀ c, nodePtr m (t i) (.data c) = 0 → nodePtr m' x' (.data c) ≠ 0 →
    b ≤ c ∧ (c * 1024 < b * 1024 + off + sum ∨ c = b ∧ n = 0)

section Grows
variable {m m' : Mem} {t : Table} {i : Fin 256} {ns : List Node} {x' : Inode}

theorem fileByte_eq_some {m : Mem} {x : Inode} {o : ℕ} {v : UInt8} :
    fileByte m x o = some v ↔
      nodePtr m x (.data (o / 1024)) ≠ 0 ∧ blockAt m (nodePtr m x (.data (o / 1024))) (o % 1024) = v := by
  unfold fileByte
  simp only
  split_ifs with h
  · simp [h]
  · simp [h]

/-- Growing keeps the bytes that are there. -/
theorem Grows.fileByte_eq (h : Grows m t i ns m' x') (hfile : (t i).fileType ≠ typeDirectory) {o : ℕ} {v : UInt8}
    (ho : fileByte m (t i) o = some v) : fileByte m' x' o = some v := by
  obtain ⟨hn,hv⟩ := fileByte_eq_some.mp ho
  have hown : held m t (i,.data (o / 1024)) = nodePtr m (t i) (.data (o / 1024)) := owns_of_file hfile
  have hb := h.bytes (i,.data (o / 1024)) (o / 1024) rfl (by rwa [hown])
  rw [hown] at hb
  rw [fileByte_eq_some, h.nodePtr_eq hfile hn, hb]
  exact ⟨hn,hv⟩

theorem Grows.not_visited (h : Grows m t i ns m' x') {n : Node} (h0 : nodePtr m (t i) n = 0)
    (hn : n ∉ ns) : nodePtr m' x' n = 0 := by
  by_contra h1
  exact hn (h.visited n h0 h1)

/-- Growing index blocks only leaves the logical bytes as they are. -/
theorem Grows.effect {b off n : ℕ} {src : Mem} (h : Grows m t i ns m' x') (hfile : (t i).fileType ≠ typeDirectory)
    (hd : ∀ c, nodePtr m (t i) (.data c) = 0 → nodePtr m' x' (.data c) = 0) :
    WriteEffect m t i b off src n 0 m' x' :=
  ⟨h.toExtends,Nat.zero_le n,fun _ k hk => absurd hk (Nat.not_lt_zero k),fun _ _ ho _ => h.fileByte_eq hfile ho,
    fun c h0 h1 => absurd (hd c h0) h1⟩

end Grows

theorem mem_pathTo_data {b c : ℕ} : Node.data c ∈ pathTo b ↔ c = b := by
  unfold pathTo
  split_ifs <;> simp

theorem data_not_mem_dropLast {b c : ℕ} : Node.data c ∉ (pathTo b).dropLast := by
  unfold pathTo
  split_ifs <;> simp

theorem path_of_data {m : Mem} {x : Inode} {b : ℕ} (h : nodePtr m x (.data b) ≠ 0) :
    ∀ n ∈ pathTo b, nodePtr m x n ≠ 0 := by
  intro n hn
  unfold pathTo at hn
  split_ifs at hn with h6 h518
  · rwa [List.mem_singleton.mp hn]
  · have hp : (Node.data b).parent = some (.ind,b - 6) := by rw [Node.parent, if_neg h6, if_pos h518]
    have hi := parent_ptr_ne_zero hp h
    rcases List.mem_pair.mp hn with rfl | rfl
    · exact hi
    · exact h
  · have hp : (Node.data b).parent = some (.sec ((b - 518) / 512),(b - 518) % 512) := by
      rw [Node.parent, if_neg h6, if_neg h518]
    have hs := parent_ptr_ne_zero hp h
    have hd := parent_ptr_ne_zero (n := .sec ((b - 518) / 512)) rfl hs
    simp only [List.mem_cons, List.not_mem_nil, or_false] at hn
    rcases hn with rfl | rfl | rfl
    · exact hd
    · exact hs
    · exact h

/-- One block of a write: its piece of the source is in place. -/
structure TouchEffect (m : Mem) (t : Table) (i : Fin 256) (b off : ℕ) (src : Mem) (len : ℕ) (m₂ : Mem)
    (x₁ : Inode) : Prop where
  ext : Extends m t i m₂ x₁
  inside : Aligned m (t i) b off → ∀ k < len, fileByte m₂ x₁ (b * 1024 + off + k) = some (src k)
  outside : ∀ o v, fileByte m (t i) o = some v → ¬ (b * 1024 + off ≤ o ∧ o < b * 1024 + off + len) →
    fileByte m₂ x₁ o = some v
  fresh : ∀ c, nodePtr m (t i) (.data c) = 0 → nodePtr m₂ x₁ (.data c) ≠ 0 → c = b

/-- The bytes of a file after one block was stored. -/
theorem fileByte_touch {m m₁ : Mem} {t : Table} {i : Fin 256} {x₁ : Inode} {b : ℕ} {rest : List Node} (c : Mem)
    (hs : Sound m t) (hfile : (t i).fileType ≠ typeDirectory) (hb : b < 65542) (hc : Clean m (t i) (pathTo b ++ rest))
    (hg : growPath m (t i) (pathTo b) = (true,m₁,x₁)) (o : ℕ) :
    fileByte (storeAt m₁ x₁ b c) x₁ o = if o / 1024 = b then some (c (o % 1024)) else fileByte m₁ x₁ o := by
  obtain ⟨hgr,htype,hdata,_,_,_⟩ := touch_spec hs hfile (by omega) hc hg c
  have hupd : (Function.update t i x₁) i = x₁ := Function.update_self ..
  have hbyte := fileByte_storeAt (i := i) (b := b) (c := c) hgr.sound (by rwa [hupd]) (by rwa [hupd]) o
  rwa [hupd] at hbyte

theorem touch_effect {m m₁ : Mem} {t : Table} {i : Fin 256} {x₁ : Inode} {b off : ℕ} (len : ℕ) (src : Mem)
    {rest : List Node} (hs : Sound m t) (hfile : (t i).fileType ≠ typeDirectory) (hb : b < 65542)
    (hlen : off + len ≤ 1024) (hoff : off ≤ 1024) (hc : Clean m (t i) (pathTo b ++ rest))
    (hg : growPath m (t i) (pathTo b) = (true,m₁,x₁)) :
    TouchEffect m t i b off src len (storeAt m₁ x₁ b (piece m (t i) m₁ x₁ b off src len)) x₁ := by
  obtain ⟨hgr,_,_,hext,_,hkeep⟩ := touch_spec hs hfile (by omega) hc hg (piece m (t i) m₁ x₁ b off src len)
  have hbyte := fileByte_touch (piece m (t i) m₁ x₁ b off src len) hs hfile hb hc hg
  refine ⟨hgr.toExtends.trans hext,fun hal k hk => ?_,fun o v ho hout => ?_,fun c h0 h1 => ?_⟩
  · have hdiv : (b * 1024 + off + k) / 1024 = b := by omega
    have hmod : (b * 1024 + off + k) % 1024 = off + k := by omega
    rw [hbyte, if_pos hdiv, hmod, piece]
    split_ifs with hfresh
    · have h0 : off = 0 := by
        rcases hal with h | h | h
        · exact h
        · exact absurd hfresh.2 h
        · omega
      rw [copyIn_inside (by omega) (by omega), h0, Nat.zero_add, Nat.sub_zero]
    · rw [copyIn_inside (by omega) (by omega), Nat.add_sub_cancel_left]
  · have ho₁ := hgr.fileByte_eq hfile ho
    rw [hbyte]
    split_ifs with hdiv
    · have hn := (fileByte_eq_some.mp ho).1
      rw [hdiv] at hn
      obtain ⟨_,hv⟩ := fileByte_eq_some.mp ho₁
      rw [hdiv] at hv
      rw [piece, if_neg (fun h => hn h.2), copyIn_outside (by omega), hv]
    · exact ho₁
  · rw [hkeep] at h1
    exact mem_pathTo_data.mp (hgr.visited _ h0 h1)

theorem Wrote.effect {i : Fin 256} {m m' : Mem} {t : Table} {x x' : Inode} {b off n sum : ℕ} {src : Mem}
    (h : Wrote m x b off src n sum m' x') (hx : x = t i) (hs : Sound m t) (hfile : (t i).fileType ≠ typeDirectory)
    (hoff : off ≤ 1024) (hc : 0 < n → Clean m (t i) (touchedNodes b off n)) :
    WriteEffect m t i b off src n sum m' x' := by
  induction h generalizing t with
  | @done m x b off src =>
    subst hx
    exact ⟨Extends.refl hs,le_rfl,fun _ k hk => absurd hk (Nat.not_lt_zero k),fun _ _ ho _ => ho,
      fun c h0 h1 => absurd h0 h1⟩
  | @full m x b off src n m' x' hb hn hg =>
    subst hx
    obtain ⟨rest,htouch,_⟩ := touchedNodes_step (b := b) (n := n) hoff
    have hc := hc hn
    rw [htouch] at hc
    obtain ⟨hgr,_,hfull⟩ := growPath_spec hs hfile (rooted_pathTo (by omega)) (by simp) hc hg
    obtain ⟨_,l,hl,hl0⟩ := hfull rfl
    refine hgr.effect hfile (fun c h0 => ?_)
    by_cases hcb : c = b
    · subst hcb
      by_contra h1
      exact path_of_data h1 l hl hl0
    · exact hgr.not_visited h0 (fun hm => hcb (mem_pathTo_data.mp hm))
  | @step m x b off src n sum m₁ x₁ m' x' hb hn hg hr ih =>
    subst hx
    obtain ⟨rest,htouch,hrest⟩ := touchedNodes_step (b := b) (n := n) hoff
    have hc := hc hn
    rw [htouch] at hc
    have he := touch_effect (min (1024 - off) n) src hs hfile hb (by omega) hoff hc hg
    obtain ⟨hgr,htype,hdata,_,hclean,hkeep⟩ := touch_spec hs hfile (by omega) hc hg
      (piece m (t i) m₁ x₁ b off src (min (1024 - off) n))
    have hupd : (Function.update t i x₁) i = x₁ := Function.update_self ..
    have hr' := ih (t := Function.update t i x₁) hupd.symm he.ext.sound (by rwa [hupd]) (by omega)
      (fun hpos => by rw [hupd, ← hrest hpos]; exact hclean)
    have hins := hr'.inside (Or.inl rfl)
    have hout := hr'.outside
    have hfr := hr'.fresh
    have hle := hr'.sumLe
    rw [hupd] at hout hfr
    simp only [Nat.add_zero] at hins hout hfr
    refine ⟨he.ext.trans hr'.ext,by omega,fun hal k hk => ?_,fun o v ho hno => ?_,fun c h0 h1 => ?_⟩
    · by_cases hk' : k < min (1024 - off) n
      · exact hout _ _ (he.inside hal k hk') (by omega)
      · have hi := hins (k - min (1024 - off) n) (by omega)
        rwa [shift, show min (1024 - off) n + (k - min (1024 - off) n) = k by omega,
          show (b + 1) * 1024 + (k - min (1024 - off) n) = b * 1024 + off + k by omega] at hi
    · exact hout _ _ (he.outside o v ho (by omega)) (by omega)
    · by_cases h2 : nodePtr (storeAt m₁ x₁ b (piece m (t i) m₁ x₁ b off src (min (1024 - off) n))) x₁
          (.data c) = 0
      · obtain ⟨hle,hlt⟩ := hfr c h2 h1
        by_cases hn' : n - min (1024 - off) n = 0
        · rw [hn'] at hr
          cases hr with
          | done => exact absurd h2 h1
          | full _ hn0 _ => omega
          | step _ hn0 _ _ => omega
        · exact ⟨by omega,Or.inl (by omega)⟩
      · have hcb := he.fresh c h0 h2
        exact ⟨hcb.ge,Or.inl (by omega)⟩

/-- A write that starts inside a fresh direct block stores there what stands further on in the source. -/
theorem Wrote.inside_fresh {i : Fin 256} {m m' : Mem} {t : Table} {x' : Inode} {b off n sum : ℕ} {src : Mem}
    (h : Wrote m (t i) b off src n sum m' x') (hs : Sound m t) (hfile : (t i).fileType ≠ typeDirectory)
    (hoff : off ≤ 1024) (hc : Clean m (t i) (touchedNodes b off n)) (hb : b < 6)
    (hfresh : nodePtr m (t i) (.data b) = 0) :
    ∀ k < sum, fileByte m' x' (b * 1024 + off + k) = some (if k < 1024 - off then src (off + k) else src k) := by
  intro k hk
  cases h with
  | done => cases hk
  | full => cases hk
  | @step _ _ _ _ _ _ sum m₁ x₁ _ _ _ hn hg hr =>
    obtain ⟨rest,htouch,hrest⟩ := touchedNodes_step (b := b) (n := n) hoff
    rw [htouch] at hc
    obtain ⟨hgr,htype,_,hext,hclean,_⟩ := touch_spec hs hfile (by omega) hc hg
      (piece m (t i) m₁ x₁ b off src (min (1024 - off) n))
    have hbyte := fileByte_touch (piece m (t i) m₁ x₁ b off src (min (1024 - off) n)) hs hfile (by omega) hc hg
    have hupd : (Function.update t i x₁) i = x₁ := Function.update_self ..
    have he := hr.effect hupd.symm (hgr.toExtends.trans hext).sound (by rwa [hupd]) (Nat.zero_le _)
      (fun hpos => by rw [hupd, ← hrest hpos]; exact hclean)
    have hle := he.sumLe
    by_cases hk' : k < 1024 - off
    · rw [if_pos hk']
      have hpiece : piece m (t i) m₁ x₁ b off src (min (1024 - off) n) (off + k) = src (off + k) := by
        rw [piece, if_pos ⟨hb,hfresh⟩, copyIn_inside (by omega) (by omega), Nat.sub_zero]
      have hstored := hbyte (b * 1024 + off + k)
      rw [if_pos (by omega), show (b * 1024 + off + k) % 1024 = off + k by omega, hpiece] at hstored
      exact he.outside _ _ (by rw [hupd]; exact hstored) (by omega)
    · rw [if_neg hk']
      have hin := he.inside (Or.inl rfl) (k - min (1024 - off) n) (by omega)
      rwa [shift, show min (1024 - off) n + (k - min (1024 - off) n) = k by omega,
        show (b + 1) * 1024 + 0 + (k - min (1024 - off) n) = b * 1024 + off + k by omega] at hin

/-- The effect of every write that the code performs. -/
theorem WriteCall.effect {i : Fin 256} {m m' : Mem} {t : Table} {x' : Inode} {b off n sum : ℕ} {src : Mem}
    (h : WriteCall m (t i) b off src n sum m' x') (hr : Ready m t i b off n) :
    WriteEffect m t i b off src n sum m' x' := by
  obtain ⟨rest,htouch,_⟩ := touchedNodes_step (b := b) (n := n) hr.offLt
  have hc := hr.clean
  rw [htouch] at hc
  cases h with
  | wrote h => exact h.effect rfl hr.sound hr.file hr.offLt (fun _ => hr.clean)
  | index hb hn hsum hg =>
    subst hn hsum
    rw [pathTo_concat, List.append_assoc] at hc
    obtain ⟨hgr,_,_⟩ := growPath_spec hr.sound hr.file (rooted_dropLast (rooted_pathTo (by omega))) (by simp) hc hg
    exact hgr.effect hr.file (fun c h0 => hgr.not_visited h0 data_not_mem_dropLast)
  | touch hb hn hsum hg hm =>
    subst hn hsum hm
    have hoff := hr.offLt
    have he := touch_effect 0 src hr.sound hr.file (by omega) (by omega) hoff hc hg
    exact ⟨he.ext,le_rfl,he.inside,he.outside,
      fun c h0 h1 => ⟨(he.fresh c h0 h1).ge,Or.inr ⟨he.fresh c h0 h1,rfl⟩⟩⟩

end LiteOSFS
