import Mathlib.Data.List.Basic

/-! # Named entries and the paths along them

Slot `s` of directory `d` holds a name and the node that it stands for, or nothing.
A path is followed name by name; when the names in each directory are distinct it
leads to one node at most. An operation on directories is a list of slot updates.
-/
namespace LiteOSFS.EntryGraph

variable {D S N : Type*}

abbrev Entries (D S N : Type*) := D → S → Option (N × D)

def Edge (E : Entries D S N) (d : D) (n : N) (e : D) : Prop := ∃ s, E d s = some (n,e)

inductive Path (E : Entries D S N) : D → List N → D → Prop where
  | nil (d : D) : Path E d [] d
  | cons {d e f : D} {n : N} {ns : List N} : Edge E d n e → Path E e ns f → Path E d (n :: ns) f

/-- No two slots of a directory hold the same name. -/
def Distinct (E : Entries D S N) : Prop :=
  ∀ d s s' n e e', E d s = some (n,e) → E d s' = some (n,e') → s = s'

section Path
variable {E E' : Entries D S N} {d e f : D} {n : N} {ns ns' : List N}

@[simp] theorem path_nil : Path E d [] e ↔ d = e := by
  constructor
  · rintro ⟨⟩
    rfl
  · rintro rfl
    exact Path.nil d

@[simp] theorem path_cons : Path E d (n :: ns) f ↔ ∃ e, Edge E d n e ∧ Path E e ns f := by
  constructor
  · rintro (_ | ⟨he,hp⟩)
    exact ⟨_,he,hp⟩
  · rintro ⟨e,he,hp⟩
    exact Path.cons he hp

theorem path_append : Path E d (ns ++ ns') f ↔ ∃ e, Path E d ns e ∧ Path E e ns' f := by
  induction ns generalizing d with
  | nil => simp
  | cons n ns ih =>
    simp only [List.cons_append, path_cons, ih]
    constructor
    · rintro ⟨e,he,g,hg,hf⟩
      exact ⟨g,⟨e,he,hg⟩,hf⟩
    · rintro ⟨g,⟨e,he,hg⟩,hf⟩
      exact ⟨e,he,g,hg,hf⟩

theorem path_concat : Path E d (ns ++ [n]) f ↔ ∃ e, Path E d ns e ∧ Edge E e n f := by
  simp [path_append]

theorem Distinct.edge_unique (h : Distinct E) (he : Edge E d n e) (hf : Edge E d n f) : e = f := by
  obtain ⟨s,hs⟩ := he
  obtain ⟨s',hs'⟩ := hf
  obtain rfl := h d s s' n e f hs hs'
  rw [hs] at hs'
  exact congrArg Prod.snd (Option.some.inj hs')

theorem Distinct.path_unique (h : Distinct E) (hp : Path E d ns e) (hq : Path E d ns f) : e = f := by
  induction hp with
  | nil d => exact path_nil.mp hq
  | cons he _ ih =>
    obtain ⟨g,hg,hq⟩ := path_cons.mp hq
    obtain rfl := h.edge_unique he hg
    exact ih hq

theorem Path.mono (h : ∀ d n e, Edge E d n e → Edge E' d n e) (hp : Path E d ns f) : Path E' d ns f := by
  induction hp with
  | nil d => exact Path.nil d
  | cons he _ ih => exact Path.cons (h _ _ _ he) ih

/-- What holds where a path starts and passes along entries holds where it ends. -/
theorem Path.induct {P : D → Prop} (hp : Path E d ns f) (h0 : P d) (hstep : ∀ d n e, P d → Edge E d n e → P e) :
    P f := by
  induction hp with
  | nil d => exact h0
  | cons he _ ih => exact ih (hstep _ _ _ h0 he)

end Path

section Update
variable [DecidableEq D] [DecidableEq S] {E : Entries D S N} {d d' e e' : D} {s s' : S} {n n' : N} {r : Option (N × D)}

def update (E : Entries D S N) (d : D) (s : S) (r : Option (N × D)) : Entries D S N :=
  fun d' s' => if d' = d ∧ s' = s then r else E d' s'

theorem update_self : update E d s r d s = r := if_pos ⟨rfl,rfl⟩

theorem update_of_ne (h : ¬ (d' = d ∧ s' = s)) : update E d s r d' s' = E d' s' := if_neg h

/-- The entries after a vacant slot is filled. -/
theorem edge_update_some (h : E d s = none) :
    Edge (update E d s (some (n,e))) d' n' e' ↔ (d' = d ∧ n' = n ∧ e' = e) ∨ Edge E d' n' e' := by
  constructor
  · rintro ⟨s',hs⟩
    by_cases hc : d' = d ∧ s' = s
    · rw [update, if_pos hc] at hs
      obtain ⟨rfl,rfl⟩ := Prod.mk.inj (Option.some.inj hs)
      exact Or.inl ⟨hc.1,rfl,rfl⟩
    · rw [update_of_ne hc] at hs
      exact Or.inr ⟨s',hs⟩
  · rintro (⟨rfl,rfl,rfl⟩ | ⟨s',hs⟩)
    · exact ⟨s,update_self⟩
    · refine ⟨s',?_⟩
      rw [update_of_ne, hs]
      rintro ⟨rfl,rfl⟩
      rw [h] at hs
      cases hs

/-- A path after a vacant slot is filled is one from before, or goes on through the new entry. -/
theorem path_update_some {c f : D} {ns : List N} (h : E d s = none) (hp : Path (update E d s (some (n,e))) c ns f) :
    Path E c ns f ∨ ∃ pre post, ns = pre ++ n :: post ∧ Path E c pre d ∧ Path (update E d s (some (n,e))) e post f := by
  induction hp with
  | nil c => exact Or.inl (Path.nil c)
  | @cons c g f a ns he hp ih =>
    rcases (edge_update_some h).mp he with ⟨rfl,rfl,rfl⟩ | hold
    · exact Or.inr ⟨[],ns,rfl,Path.nil c,hp⟩
    · rcases ih with hrest | ⟨pre,post,rfl,hpre,hpost⟩
      · exact Or.inl (Path.cons hold hrest)
      · exact Or.inr ⟨a :: pre,post,rfl,Path.cons hold hpre,hpost⟩

/-- A path after a slot is emptied, or one that went on through its entry. -/
theorem path_update_none {c f : D} {ns : List N} (h : E d s = some (n,e)) (hp : Path E c ns f) :
    Path (update E d s none) c ns f ∨ ∃ pre post, ns = pre ++ n :: post ∧ Path E c pre d := by
  induction hp with
  | nil c => exact Or.inl (Path.nil c)
  | @cons c g f a ns he _ ih =>
    obtain ⟨t,ht⟩ := he
    by_cases hc : c = d ∧ t = s
    · obtain ⟨rfl,rfl⟩ := hc
      rw [h] at ht
      obtain ⟨rfl,rfl⟩ := Prod.mk.inj (Option.some.inj ht)
      exact Or.inr ⟨[],ns,rfl,Path.nil c⟩
    · rcases ih with hrest | ⟨pre,post,rfl,hpre⟩
      · exact Or.inl (Path.cons ⟨t,by rw [update_of_ne hc, ht]⟩ hrest)
      · exact Or.inr ⟨a :: pre,post,rfl,Path.cons ⟨t,ht⟩ hpre⟩

/-- The entries after one is taken out. -/
theorem Distinct.edge_update_none (hE : Distinct E) (h : E d s = some (n,e)) :
    Edge (update E d s none) d' n' e' ↔ Edge E d' n' e' ∧ ¬ (d' = d ∧ n' = n) := by
  constructor
  · rintro ⟨s',hs⟩
    by_cases hc : d' = d ∧ s' = s
    · rw [update, if_pos hc] at hs
      cases hs
    · rw [update_of_ne hc] at hs
      refine ⟨⟨s',hs⟩,?_⟩
      rintro ⟨rfl,rfl⟩
      exact hc ⟨rfl,hE _ _ _ _ _ _ hs h⟩
  · rintro ⟨⟨s',hs⟩,hc⟩
    refine ⟨s',?_⟩
    rw [update_of_ne, hs]
    rintro ⟨rfl,rfl⟩
    rw [h] at hs
    obtain ⟨rfl,rfl⟩ := Prod.mk.inj (Option.some.inj hs)
    exact hc ⟨rfl,rfl⟩

theorem Distinct.update_some (hE : Distinct E) (h : ∀ e', ¬ Edge E d n e') : Distinct (update E d s (some (n,e))) := by
  intro c t t' a f f' ht ht'
  by_cases hc : c = d ∧ t = s
  · rw [update, if_pos hc] at ht
    obtain ⟨rfl,rfl⟩ := Prod.mk.inj (Option.some.inj ht)
    by_cases hc' : c = d ∧ t' = s
    · exact hc.2.trans hc'.2.symm
    · rw [update_of_ne hc', hc.1] at ht'
      exact absurd ⟨t',ht'⟩ (h f')
  · by_cases hc' : c = d ∧ t' = s
    · rw [update, if_pos hc'] at ht'
      obtain ⟨rfl,rfl⟩ := Prod.mk.inj (Option.some.inj ht')
      rw [update_of_ne hc, hc'.1] at ht
      exact absurd ⟨t,ht⟩ (h f)
    · rw [update_of_ne hc] at ht
      rw [update_of_ne hc'] at ht'
      exact hE _ _ _ _ _ _ ht ht'

theorem Distinct.update_none (hE : Distinct E) : Distinct (update E d s none) := by
  intro c t t' a f f' ht ht'
  have hold : ∀ {t f}, update E d s none c t = some (a,f) → E c t = some (a,f) := by
    intro t f ht
    by_cases hc : c = d ∧ t = s
    · rw [update, if_pos hc] at ht
      cases ht
    · rwa [update_of_ne hc] at ht
  exact hE _ _ _ _ _ _ (hold ht) (hold ht')

theorem edge_of_update_none {c f : D} {a : N} (he : Edge (update E d s none) c a f) : Edge E c a f := by
  obtain ⟨t,ht⟩ := he
  by_cases hc : c = d ∧ t = s
  · rw [update, if_pos hc] at ht
    cases ht
  · exact ⟨t,by rwa [update_of_ne hc] at ht⟩

/-- With its entry taken out no path ends in the name. -/
theorem Distinct.path_update_none_self {r f : D} {ds : List N} (hE : Distinct E) (h : E d s = some (n,e))
    (hp : Path E r ds d) : ¬ Path (update E d s none) r (ds ++ [n]) f := by
  intro hq
  obtain ⟨c,hc,he⟩ := path_concat.mp hq
  obtain rfl := hE.path_unique (hc.mono (fun _ _ _ => edge_of_update_none)) hp
  exact ((hE.edge_update_none h).mp he).2 ⟨rfl,rfl⟩

/-- The paths that do not begin with the path of the entry that is taken out stay if and only if its directory has
no other path. -/
theorem Distinct.paths_kept_iff {r : D} {ds : List N} (hE : Distinct E) (h : E d s = some (n,e)) (hp : Path E r ds d) :
    (∀ ns f, ¬ ds ++ [n] <+: ns → Path E r ns f → Path (update E d s none) r ns f) ↔
      ∀ ns, Path E r ns d → ns = ds ∨ ds ++ [n] <+: ns := by
  constructor
  · intro hkeep ns hns
    by_contra hno
    obtain ⟨hne,hpre⟩ := not_or.mp hno
    have hedge : Path E r (ns ++ [n]) e := path_concat.mpr ⟨d,hns,s,h⟩
    refine hE.path_update_none_self h hns (hkeep (ns ++ [n]) e (fun hpre' => ?_) hedge)
    rcases List.prefix_concat_iff.mp hpre' with he | hle
    · exact hne (List.append_cancel_right he).symm
    · exact hpre hle
  · intro honly ns f hpre hns
    rcases path_update_none h hns with hkept | ⟨pre,post,rfl,hd⟩
    · exact hkept
    · refine absurd ?_ hpre
      rcases honly pre hd with rfl | hle
      · exact ⟨post,by simp⟩
      · exact hle.trans ⟨n :: post,rfl⟩

end Update

end LiteOSFS.EntryGraph
