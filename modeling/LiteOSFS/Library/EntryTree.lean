import LiteOSFS.Library.EntryCount

/-! # Nodes with one entry

A graph of entries is a tree on the nodes of a kind when at most one slot refers to each of
them and none to the root, and only they have entries. Then one path at most leads from the
root to each of them, and none of them is below itself.
-/
namespace LiteOSFS.EntryGraph

variable {D S N : Type*} {P Q : D → Prop} {E : Entries D S N} {r d e : D} {s : S} {n : N}

structure TreeOn (P : D → Prop) (E : Entries D S N) (r : D) : Prop where
  single : ∀ d d' s s' n n' e, P e → E d s = some (n,e) → E d' s' = some (n',e) → d = d' ∧ s = s'
  root : ∀ d s n, E d s ≠ some (n,r)
  source : ∀ d s q, E d s = some q → P d

namespace TreeOn

theorem parent_unique (h : TreeOn P E r) (he : P e) {d' : D} {n' : N} (h₁ : Edge E d n e) (h₂ : Edge E d' n' e) :
    d = d' ∧ n = n' := by
  obtain ⟨s,hs⟩ := h₁
  obtain ⟨s',hs'⟩ := h₂
  obtain ⟨rfl,rfl⟩ := h.single _ _ _ _ _ _ _ he hs hs'
  rw [hs] at hs'
  exact ⟨rfl,congrArg Prod.fst (Option.some.inj hs')⟩

theorem eq_nil_of_root (h : TreeOn P E r) {ns : List N} (hp : Path E d ns r) : ns = [] := by
  rcases List.eq_nil_or_concat ns with rfl | ⟨ns,a,rfl⟩
  · rfl
  · rw [List.concat_eq_append] at hp
    obtain ⟨c,_,k,hk⟩ := path_concat.mp hp
    exact absurd hk (h.root c k a)

theorem path_unique (h : TreeOn P E r) {ns ns' : List N} (he : P e) (hp : Path E r ns e) (hq : Path E r ns' e) : ns = ns' := by
  induction ns using List.reverseRecOn generalizing e ns' with
  | nil =>
    obtain rfl := path_nil.mp hp
    exact (h.eq_nil_of_root hq).symm
  | append_singleton ns a ih =>
    obtain ⟨c,hc,hedge⟩ := path_concat.mp hp
    rcases List.eq_nil_or_concat ns' with rfl | ⟨ns',b,rfl⟩
    · obtain rfl := path_nil.mp hq
      exact absurd (h.eq_nil_of_root hp) (by simp)
    · rw [List.concat_eq_append] at hq ⊢
      obtain ⟨c',hc',hedge'⟩ := path_concat.mp hq
      obtain ⟨rfl,rfl⟩ := h.parent_unique he hedge hedge'
      obtain ⟨k,hk⟩ := hedge
      rw [ih (h.source _ _ _ hk) hc hc']

/-- No node within reach of the root is below itself. -/
theorem not_below_self (h : TreeOn P E r) (hd : P d) (hr : Reached E r d) {ns : List N} (hp : Path E d ns d) : ns = [] := by
  obtain ⟨ms,hm⟩ := hr
  have hlong : Path E r (ms ++ ns) d := path_append.mpr ⟨d,hm,hp⟩
  exact List.self_eq_append_right.mp (h.path_unique hd hm hlong)

/-- Nodes to which no slot refers may become of the kind, and those without entries may cease to be. -/
theorem mono (h : TreeOn P E r) (hin : ∀ e, Q e → P e ∨ ∀ d s n, E d s ≠ some (n,e))
    (hsrc : ∀ d s q, E d s = some q → Q d) : TreeOn Q E r := by
  refine ⟨fun d d' s s' n n' e he hs hs' => ?_,h.root,hsrc⟩
  rcases hin e he with hP | hno
  · exact h.single _ _ _ _ _ _ _ hP hs hs'
  · exact absurd hs (hno d s n)

variable [DecidableEq D] [DecidableEq S]

/-- A slot is filled with a node to which none refers, or that is not of the kind. -/
theorem fill (h : TreeOn P E r) (hd : P d) (her : e ≠ r) (he : P e → ∀ d s n, E d s ≠ some (n,e)) :
    TreeOn P (update E d s (some (n,e))) r := by
  have hcases : ∀ {c k a f}, update E d s (some (n,e)) c k = some (a,f) → (c = d ∧ k = s ∧ f = e) ∨ E c k = some (a,f) := by
    intro c k a f hk
    by_cases hc : c = d ∧ k = s
    · rw [hc.1, hc.2, update_self] at hk
      exact Or.inl ⟨hc.1,hc.2,(congrArg Prod.snd (Option.some.inj hk)).symm⟩
    · rw [update_of_ne hc] at hk
      exact Or.inr hk
  refine ⟨fun c c' k k' a a' f hf hk hk' => ?_,fun c k a hk => ?_,fun c k q hk => ?_⟩
  · rcases hcases hk with ⟨rfl,rfl,rfl⟩ | hold
    · rcases hcases hk' with ⟨rfl,rfl,_⟩ | hold'
      · exact ⟨rfl,rfl⟩
      · exact absurd hold' (he hf _ _ _)
    · rcases hcases hk' with ⟨rfl,rfl,rfl⟩ | hold'
      · exact absurd hold (he hf _ _ _)
      · exact h.single _ _ _ _ _ _ _ hf hold hold'
  · rcases hcases hk with ⟨_,_,hre⟩ | hold
    · exact her hre.symm
    · exact h.root c k a hold
  · rcases hcases (a := q.1) (f := q.2) hk with ⟨rfl,_,_⟩ | hold
    · exact hd
    · exact h.source c k _ hold

theorem empty (h : TreeOn P E r) : TreeOn P (update E d s none) r := by
  have hold : ∀ {c k q}, update E d s none c k = some q → E c k = some q := by
    intro c k q hk
    by_cases hc : c = d ∧ k = s
    · rw [hc.1, hc.2, update_self] at hk
      cases hk
    · rwa [update_of_ne hc] at hk
  exact ⟨fun c c' k k' a a' f hf hk hk' => h.single _ _ _ _ _ _ _ hf (hold hk) (hold hk'),
    fun c k a hk => h.root c k a (hold hk),fun c k q hk => h.source c k q (hold hk)⟩

end TreeOn

end LiteOSFS.EntryGraph
