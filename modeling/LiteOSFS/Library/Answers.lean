import LiteOSFS.Library.Reach

/-! # Runs whose actions return something

`f s a` is what action `a` returns in state `s` and the state after it, or `none`. Two
states answer the same to a run when a relation between them is kept by every action that
is allowed in both.
-/
namespace LiteOSFS.Transition

variable {σ α β : Type*} {f : σ → α → Option (β × σ)} {guard : σ → α → Prop} {R : σ → σ → Prop}

/-- What the actions return, up to the first that has no result. -/
def answers (f : σ → α → Option (β × σ)) : σ → List α → List (Option β)
  | _, [] => []
  | s, a :: as => (f s a).elim [none] (fun r => some r.1 :: answers f r.2 as)

/-- Each action satisfies the guard in the state before it. -/
def Allowed (f : σ → α → Option (β × σ)) (guard : σ → α → Prop) : σ → List α → Prop
  | _, [] => True
  | s, a :: as => guard s a ∧ ∀ r ∈ f s a, Allowed f guard r.2 as

/-- The executable counterpart of `Allowed`. -/
def allowedBy (f : σ → α → Option (β × σ)) (check : σ → α → Bool) : σ → List α → Bool
  | _, [] => true
  | s, a :: as => check s a && (f s a).all (fun r => allowedBy f check r.2 as)

theorem allowed_of_check {check : σ → α → Bool} (hg : ∀ s a, check s a = true → guard s a) {s : σ} {as : List α}
    (h : allowedBy f check s as = true) : Allowed f guard s as := by
  induction as generalizing s with
  | nil => trivial
  | cons a as ih =>
    obtain ⟨ha,has⟩ := Bool.and_eq_true_iff.mp h
    refine ⟨hg s a ha,fun r hr => ih ?_⟩
    rwa [Option.mem_def.mp hr] at has

/-- The same answer, and states after it that are related. -/
def Matched (R : σ → σ → Prop) (x y : β × σ) : Prop := x.1 = y.1 ∧ R x.2 y.2

theorem answers_eq {s t : σ} {as : List α}
    (hstep : ∀ s t a, R s t → guard s a → guard t a → Option.Rel (Matched R) (f s a) (f t a)) (h : R s t)
    (hs : Allowed f guard s as) (ht : Allowed f guard t as) : answers f s as = answers f t as := by
  induction as generalizing s t with
  | nil => rfl
  | cons a as ih =>
    obtain ⟨hsa,hs⟩ := hs
    obtain ⟨hta,ht⟩ := ht
    have hrel := hstep s t a h hsa hta
    rw [answers, answers]
    generalize f s a = x at hrel hs ⊢
    generalize f t a = y at hrel ht ⊢
    cases hrel with
    | none => rfl
    | some hm =>
      rw [Option.elim_some, Option.elim_some, hm.1, ih hm.2 (hs _ rfl) (ht _ rfl)]

/-- What those of the actions return that are looked at. -/
def seen (f : σ → α → Option (β × σ)) (keep : α → Bool) : σ → List α → List (Option β)
  | _, [] => []
  | s, a :: as =>
    if keep a then (f s a).elim [none] (fun r => some r.1 :: seen f keep r.2 as)
    else (f s a).elim [] (fun r => seen f keep r.2 as)

section Seen
variable {keep : α → Bool} {s t : σ} {as bs : List α}

theorem seen_of_filter (h : as.filter keep = []) : seen f keep s as = [] := by
  induction as generalizing s with
  | nil => rfl
  | cons a as ih =>
    have ha : ¬ keep a = true := List.filter_eq_nil_iff.mp h a List.mem_cons_self
    rw [List.filter_cons_of_neg ha] at h
    rw [seen, if_neg ha]
    cases f s a with
    | none => rfl
    | some r => exact ih h

theorem seen_quiet {a : α} {r : β × σ} (ha : keep a = false) (hr : f s a = some r) :
    seen f keep s (a :: as) = seen f keep r.2 as := by
  rw [seen, if_neg (Bool.eq_false_iff.mp ha), hr, Option.elim_some]

theorem Allowed.quiet {a : α} {r : β × σ} (h : Allowed f guard s (a :: as)) (hr : f s a = some r) :
    Allowed f guard r.2 as := h.2 r hr

/-- Two runs with the same actions that are looked at get the same answers from related states, when the others have
results and lead to related states again. -/
theorem seen_eq (hsymm : ∀ s t, R s t → R t s)
    (hstep : ∀ s t a, keep a = true → R s t → guard s a → guard t a → Option.Rel (Matched R) (f s a) (f t a))
    (hquiet : ∀ s t a, keep a = false → R s t → guard s a → ∃ r, f s a = some r ∧ R r.2 t)
    (h : R s t) (hs : Allowed f guard s as) (ht : Allowed f guard t bs) (he : as.filter keep = bs.filter keep) :
    seen f keep s as = seen f keep t bs := by
  induction as generalizing s t bs with
  | nil =>
    rw [seen_of_filter he.symm]
    rfl
  | cons a as ih =>
    by_cases ha : keep a = true
    swap
    · have ha := Bool.eq_false_iff.mpr ha
      obtain ⟨r,hr,hR⟩ := hquiet s t a ha h hs.1
      rw [List.filter_cons_of_neg (Bool.eq_false_iff.mp ha)] at he
      rw [seen_quiet ha hr]
      exact ih hR (hs.quiet hr) ht he
    rw [List.filter_cons_of_pos ha] at he
    -- the other run comes to the same action after some that are not looked at
    induction bs generalizing t with
    | nil => cases he
    | cons b bs ihb =>
      by_cases hb : keep b = true
      swap
      · have hb := Bool.eq_false_iff.mpr hb
        obtain ⟨r,hr,hR⟩ := hquiet t s b hb (hsymm _ _ h) ht.1
        rw [List.filter_cons_of_neg (Bool.eq_false_iff.mp hb)] at he
        rw [seen_quiet hb hr]
        exact ihb (hsymm _ _ hR) (ht.quiet hr) he
      rw [List.filter_cons_of_pos hb] at he
      obtain ⟨rfl,hrest⟩ := List.cons.inj he
      obtain ⟨hsa,hs⟩ := hs
      obtain ⟨hta,ht⟩ := ht
      have hrel := hstep s t a ha h hsa hta
      rw [seen, seen, if_pos ha, if_pos ha]
      generalize f s a = x at hrel hs ⊢
      generalize f t a = y at hrel ht ⊢
      cases hrel with
      | none => rfl
      | some hm => rw [Option.elim_some, Option.elim_some, hm.1, ih hm.2 (hs _ rfl) (ht _ rfl) hrest]

end Seen

/-- The actions return what is listed with them, and lead from the first state to the last. -/
inductive Replays (f : σ → α → Option (β × σ)) (s : σ) : List (α × β) → σ → Prop where
  | nil : Replays f s [] s
  | concat {l : List (α × β)} {a : α} {b : β} {t u : σ} : Replays f s l t → f t a = some (b,u) →
      Replays f s (l ++ [(a,b)]) u

/-- Two branchings on the same condition. -/
theorem rel_ite {γ δ : Type*} {Q : γ → δ → Prop} {c c' : Prop} [Decidable c] [Decidable c'] {x y : γ} {x' y' : δ}
    (hc : c ↔ c') (hthen : c → Q x x') (helse : ¬ c → Q y y') : Q (if c then x else y) (if c' then x' else y') := by
  by_cases h : c
  · rw [if_pos h, if_pos (hc.mp h)]
    exact hthen h
  · rw [if_neg h, if_neg (fun h' => h (hc.mpr h'))]
    exact helse h

/-- A relation between results that follows from another one. -/
theorem rel_imp {γ δ : Type*} {P Q : γ → δ → Prop} {x : Option γ} {y : Option δ} (h : Option.Rel P x y)
    (himp : ∀ a ∈ x, ∀ b ∈ y, P a b → Q a b) : Option.Rel Q x y := by
  cases h with
  | none => exact Option.Rel.none
  | some h => exact Option.Rel.some (himp _ rfl _ rfl h)

theorem rel_map {γ δ γ' δ' : Type*} {Q : γ' → δ' → Prop} {f : γ → γ'} {g : δ → δ'} {x : Option γ} {y : Option δ}
    (h : Option.Rel (fun a b => Q (f a) (g b)) x y) : Option.Rel Q (x.map f) (y.map g) := by
  cases h with
  | none => exact Option.Rel.none
  | some h => exact Option.Rel.some h

end LiteOSFS.Transition
