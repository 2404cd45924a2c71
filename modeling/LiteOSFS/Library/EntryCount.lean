import LiteOSFS.Library.EntryGraph
import Mathlib.Data.Finset.Prod

/-! # What one slot adds to a graph of entries

The nodes that paths from a root reach, and the number of slots that refer to a node,
before and after a slot is filled or emptied.
-/
namespace LiteOSFS.EntryGraph

variable {D S N : Type*} {E : Entries D S N} {r d e f : D} {s : S} {n : N}

/-- Some path leads from `r` to `d`. -/
def Reached (E : Entries D S N) (r d : D) : Prop := ∃ ns, Path E r ns d

theorem Reached.self (E : Entries D S N) (r : D) : Reached E r r := ⟨[],Path.nil r⟩

theorem Reached.edge (h : Reached E r d) (he : Edge E d n e) : Reached E r e := by
  obtain ⟨ns,hp⟩ := h
  exact ⟨ns ++ [n],path_concat.mpr ⟨d,hp,he⟩⟩

section Reached
variable [DecidableEq D] [DecidableEq S]

theorem Reached.update_some (h : E d s = none) (hr : Reached E r f) : Reached (update E d s (some (n,e))) r f := by
  obtain ⟨ns,hp⟩ := hr
  exact ⟨ns,hp.mono (fun _ _ _ he => (edge_update_some h).mpr (Or.inr he))⟩

/-- A node stays within reach when the target of the slot that is emptied does, or has no entries of its own. -/
theorem Reached.update_none (h : E d s = some (n,e))
    (hout : Reached (update E d s none) r e ∨ ∀ n' f', ¬ Edge E e n' f') (hr : Reached E r f) :
    f = e ∨ Reached (update E d s none) r f := by
  obtain ⟨ns,hp⟩ := hr
  refine hp.induct (P := fun f => f = e ∨ Reached (update E d s none) r f) (Or.inr (Reached.self _ r)) ?_
  rintro c n' f' hc ⟨t,ht⟩
  have hreach : Reached (update E d s none) r c := by
    rcases hc with rfl | hc
    · rcases hout with hreach | hno
      · exact hreach
      · exact absurd ⟨t,ht⟩ (hno n' f')
    · exact hc
  by_cases hslot : c = d ∧ t = s
  · rw [hslot.1, hslot.2, h] at ht
    exact Or.inl (Prod.mk.inj (Option.some.inj ht)).2.symm
  · exact Or.inr (hreach.edge ⟨t,by rw [update_of_ne hslot, ht]⟩)

end Reached

section Targets
variable [DecidableEq D] {F : Finset (D × S)}

/-- The number of slots among `F` that refer to a node. -/
def targets (E : Entries D S N) (F : Finset (D × S)) (e : D) : ℕ :=
  (F.filter (fun q => (E q.1 q.2).map Prod.snd = some e)).card

theorem targets_pos (hq : (d,s) ∈ F) (h : E d s = some (n,e)) : 0 < targets E F e :=
  Finset.card_pos.mpr ⟨(d,s),Finset.mem_filter.mpr ⟨hq,by rw [h, Option.map_some]⟩⟩

theorem targets_eq_zero (h : ∀ d s n, E d s ≠ some (n,e)) : targets E F e = 0 := by
  rw [targets, Finset.card_eq_zero, Finset.filter_eq_empty_iff]
  rintro ⟨d,s⟩ _ hm
  obtain ⟨⟨n,e'⟩,hs,he⟩ := Option.map_eq_some_iff.mp hm
  obtain rfl : e' = e := he
  exact h d s n hs

/-- With one slot that refers to a node, there is no other. -/
theorem eq_of_targets_le_one (hF : targets E F e ≤ 1) {d' : D} {s' : S} {n' : N} (hq : (d,s) ∈ F) (hq' : (d',s') ∈ F)
    (h : E d s = some (n,e)) (h' : E d' s' = some (n',e)) : d' = d ∧ s' = s := by
  have hmem : ∀ {d s n}, (d,s) ∈ F → E d s = some (n,e) → (d,s) ∈ F.filter (fun q => (E q.1 q.2).map Prod.snd = some e) :=
    fun hq h => Finset.mem_filter.mpr ⟨hq,by rw [h, Option.map_some]⟩
  have he := Finset.card_le_one.mp hF (d',s') (hmem hq' h') (d,s) (hmem hq h)
  exact ⟨congrArg Prod.fst he,congrArg Prod.snd he⟩

variable [DecidableEq S]

theorem targets_update_some (hq : (d,s) ∈ F) (h : E d s = none) :
    targets (update E d s (some (n,e))) F f = targets E F f + if f = e then 1 else 0 := by
  have hother : ∀ q : D × S, q ≠ (d,s) → (update E d s (some (n,e))) q.1 q.2 = E q.1 q.2 := by
    rintro ⟨d',s'⟩ hne
    exact update_of_ne (fun hc => hne (Prod.ext hc.1 hc.2))
  have hnot : (d,s) ∉ F.filter (fun q => (E q.1 q.2).map Prod.snd = some f) := by
    intro hm
    have hm := (Finset.mem_filter.mp hm).2
    rw [h] at hm
    cases hm
  by_cases hf : f = e
  · rw [if_pos hf, targets, targets, ← Finset.card_insert_of_notMem hnot]
    congr 1
    ext q
    rw [Finset.mem_insert, Finset.mem_filter, Finset.mem_filter]
    by_cases hqd : q = (d,s)
    · subst hqd
      simp [update_self, hq, hf]
    · rw [hother q hqd]
      simp [hqd]
  · rw [if_neg hf, targets, targets, Nat.add_zero]
    congr 1
    refine Finset.filter_congr (fun q _ => ?_)
    by_cases hqd : q = (d,s)
    · subst hqd
      simp [update_self, h, Ne.symm hf]
    · rw [hother q hqd]

theorem update_restore (h : E d s = some (n,e)) : update (update E d s none) d s (some (n,e)) = E := by
  funext d' s'
  by_cases hc : d' = d ∧ s' = s
  · rw [hc.1, hc.2, update_self, h]
  · rw [update_of_ne hc, update_of_ne hc]

theorem targets_update_none (hq : (d,s) ∈ F) (h : E d s = some (n,e)) :
    targets E F f = targets (update E d s none) F f + if f = e then 1 else 0 := by
  have hadd := targets_update_some (f := f) (n := n) (e := e) hq (update_self (E := E) (d := d) (s := s) (r := none))
  rwa [update_restore h] at hadd

end Targets

/-- The first `n` slots of the first `m` nodes. -/
@[irreducible] def grid (m n : ℕ) : Finset (ℕ × ℕ) := Finset.range m ×ˢ Finset.range n

theorem mem_grid {m n d k : ℕ} : (d,k) ∈ grid m n ↔ d < m ∧ k < n := by
  rw [grid, Finset.mem_product, Finset.mem_range, Finset.mem_range]

end LiteOSFS.EntryGraph
