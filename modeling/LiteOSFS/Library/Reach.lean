import Mathlib.Data.Option.Basic

/-! # Guarded runs of a partial step function

`Reach step guard s₀ s`: the state `s` is reached from `s₀` by steps that are
defined and each satisfy the guard in the state before. `run` is the executable
counterpart for a list of actions.
-/
namespace LiteOSFS.Transition

variable {σ α : Type*} {step : σ → α → Option σ} {guard strong : σ → α → Prop} {s₀ s s' : σ}

inductive Reach (step : σ → α → Option σ) (guard : σ → α → Prop) (s₀ : σ) : σ → Prop where
  | refl : Reach step guard s₀ s₀
  | tail {s s' : σ} {a : α} : Reach step guard s₀ s → guard s a → step s a = some s' →
      Reach step guard s₀ s'

/-- What holds initially and is preserved by guarded steps holds of every state reached. -/
theorem Reach.invariant {P : σ → Prop} (hr : Reach step guard s₀ s) (h0 : P s₀)
    (hstep : ∀ {s s' a}, P s → guard s a → step s a = some s' → P s') : P s := by
  induction hr with
  | refl => exact h0
  | tail _ hg hs ih => exact hstep ih hg hs

theorem Reach.mono (hr : Reach step strong s₀ s) (h : ∀ s a, strong s a → guard s a) :
    Reach step guard s₀ s := by
  induction hr with
  | refl => exact Reach.refl
  | tail _ hg hs ih => exact ih.tail (h _ _ hg) hs

theorem Reach.trans {s₁ : σ} (h : Reach step guard s₀ s₁) (h' : Reach step guard s₁ s) :
    Reach step guard s₀ s := by
  induction h' with
  | refl => exact h
  | tail _ hg hs ih => exact ih.tail hg hs

/-- The state after a list of actions. -/
def run (step : σ → α → Option σ) (s : σ) (as : List α) : Option σ := as.foldlM step s

theorem run_cons {a : α} {as : List α} : run step s₀ (a :: as) = some s ↔ ∃ s₁, step s₀ a = some s₁ ∧
    run step s₁ as = some s :=
  Option.bind_eq_some_iff

theorem run_concat {s₁ : σ} {a : α} {as : List α} (h : run step s₀ as = some s₁) (hs : step s₁ a = some s) :
    run step s₀ (as ++ [a]) = some s := by
  induction as generalizing s₀ with
  | nil =>
    cases h
    exact run_cons.mpr ⟨s,hs,rfl⟩
  | cons b as ih =>
    obtain ⟨s₂,hb,hr⟩ := run_cons.mp h
    exact run_cons.mpr ⟨s₂,hb,ih hr⟩

theorem reach_of_guarded_run {as : List α} (hg : ∀ a ∈ as, ∀ s, guard s a) (h : run step s₀ as = some s) :
    Reach step guard s₀ s := by
  induction as generalizing s₀ with
  | nil =>
    cases h
    exact Reach.refl
  | cons a as ih =>
    obtain ⟨s₁,hs,hr⟩ := run_cons.mp h
    exact (Reach.refl.tail (hg a List.mem_cons_self s₀) hs).trans
      (ih (fun b hb => hg b (List.mem_cons_of_mem a hb)) hr)

theorem reach_of_run {as : List α} (h : run step s₀ as = some s) : Reach step (fun _ _ => True) s₀ s :=
  reach_of_guarded_run (fun _ _ _ => trivial) h

/-- The step function stopped where a check fails. -/
def checked (check : σ → α → Bool) (step : σ → α → Option σ) (s : σ) (a : α) : Option σ :=
  if check s a then step s a else none

theorem of_checked {check : σ → α → Bool} {a : α} (h : checked check step s a = some s') :
    check s a = true ∧ step s a = some s' := by
  unfold checked at h
  cases hc : check s a with
  | false =>
    rw [hc] at h
    cases h
  | true =>
    rw [hc] at h
    exact ⟨rfl,h⟩

theorem reach_of_checked_run {check : σ → α → Bool} (hg : ∀ s a, check s a = true → guard s a) {as : List α}
    (h : run (checked check step) s₀ as = some s) : Reach step guard s₀ s := by
  induction as generalizing s₀ with
  | nil =>
    cases h
    exact Reach.refl
  | cons a as ih =>
    obtain ⟨s₁,hs,hr⟩ := run_cons.mp h
    obtain ⟨hc,hs⟩ := of_checked hs
    exact (Reach.refl.tail (hg s₀ a hc) hs).trans (ih hr)

theorem run_of_checked {check : σ → α → Bool} {as : List α} (h : run (checked check step) s₀ as = some s) :
    run step s₀ as = some s := by
  induction as generalizing s₀ with
  | nil => exact h
  | cons a as ih =>
    obtain ⟨s₁,hs,hr⟩ := run_cons.mp h
    exact run_cons.mpr ⟨s₁,(of_checked hs).2,ih hr⟩

/-- The step function with a value on the side, on which no step depends. -/
def ghost {γ : Type*} (step : σ → α → Option σ) (update : σ → γ → α → γ) (q : σ × γ) (a : α) : Option (σ × γ) :=
  (step q.1 a).map (fun s => (s,update q.1 q.2 a))

theorem of_ghost {γ : Type*} {update : σ → γ → α → γ} {q q' : σ × γ} {a : α} (h : ghost step update q a = some q') :
    step q.1 a = some q'.1 ∧ q'.2 = update q.1 q.2 a := by
  obtain ⟨s,hs,rfl⟩ := Option.map_eq_some_iff.mp h
  exact ⟨hs,rfl⟩

theorem Reach.tail_ghost {γ : Type*} {update : σ → γ → α → γ} {allow : σ × γ → α → Prop} {q₀ : σ × γ} {g : γ} {a : α}
    (h : Reach (ghost step update) allow q₀ (s,g)) (ha : allow (s,g) a) (hs : step s a = some s') :
    Reach (ghost step update) allow q₀ (s',update s g a) :=
  h.tail ha (by rw [ghost, hs, Option.map_some])

theorem Reach.exists_ghost {γ : Type*} (update : σ → γ → α → γ) (g₀ : γ) (h : Reach step guard s₀ s) :
    ∃ g, Reach (ghost step update) (fun q => guard q.1) (s₀,g₀) (s,g) := by
  induction h with
  | refl => exact ⟨g₀,Reach.refl⟩
  | @tail s s' a _ hg hs ih =>
    obtain ⟨g,hr⟩ := ih
    exact ⟨update s g a,hr.tail_ghost hg hs⟩

end LiteOSFS.Transition
