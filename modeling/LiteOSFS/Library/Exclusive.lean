import Mathlib.Logic.Function.Basic
import Mathlib.Data.Finset.Card

/-! # Exclusive pointer maps

A map from places to numbers, 0 meaning empty, in which every number that occurs
satisfies `ok` and occurs at one place only. The rules are those of a heap of
cells: a fresh number may be stored anywhere, a place may be emptied, and a
number that no place holds any more may be given back.
-/
namespace LiteOSFS.Ownership

variable {ι : Type*} {p q : ι → ℕ} {ok good : ℕ → Prop}

structure Exclusive (p : ι → ℕ) (ok : ℕ → Prop) : Prop where
  holds : ∀ x, p x ≠ 0 → ok (p x)
  inj : ∀ x y, p x ≠ 0 → p x = p y → x = y

theorem Exclusive.mono (h : Exclusive p ok) (hok : ∀ x, p x ≠ 0 → ok (p x) → good (p x)) : Exclusive p good :=
  ⟨fun x hx => hok x hx (h.holds x hx),h.inj⟩

/-- Some places are emptied. -/
theorem Exclusive.drop (h : Exclusive p ok) (hq : ∀ x, q x = 0 ∨ q x = p x) : Exclusive q ok := by
  have hqp : ∀ x, q x ≠ 0 → q x = p x := fun x hx => (hq x).resolve_left hx
  constructor
  · intro x hx
    have he := hqp x hx
    rw [he] at hx ⊢
    exact h.holds x hx
  · intro x y hx hxy
    have hy : q y ≠ 0 := hxy ▸ hx
    have ex := hqp x hx
    have ey := hqp y hy
    exact h.inj x y (ex ▸ hx) (by rw [← ex, ← ey, hxy])

theorem Exclusive.congr (h : Exclusive p ok) (hq : ∀ x, q x = p x) : Exclusive q ok :=
  h.drop (fun x => Or.inr (hq x))

/-- A number that no place holds is stored at one place. -/
theorem Exclusive.assign (h : Exclusive p ok) {a : ι} {v : ℕ} (hfresh : ∀ x, p x ≠ v)
    (hgood : good v) (hok : ∀ n, ok n → good n) (hplace : q a = v)
    (hother : ∀ x, x ≠ a → q x = p x) : Exclusive q good := by
  constructor
  · intro x hx
    by_cases he : x = a
    · rw [he, hplace]
      exact hgood
    · rw [hother x he] at hx ⊢
      exact hok _ (h.holds x hx)
  · intro x y hx hxy
    by_cases ex : x = a
    · by_cases ey : y = a
      · rw [ex, ey]
      · rw [ex, hplace, hother y ey] at hxy
        exact absurd hxy.symm (hfresh y)
    · by_cases ey : y = a
      · rw [ey, hplace, hother x ex] at hxy
        exact absurd hxy (hfresh x)
      · rw [hother x ex] at hx
        rw [hother x ex, hother y ey] at hxy
        exact h.inj x y hx hxy

/-- There are at most as many filled places as numbers. -/
theorem Exclusive.card_le (h : Exclusive p ok) {S : Finset ι} (hS : ∀ x ∈ S, p x ≠ 0) {T : Finset ℕ}
    (hT : ∀ n, ok n → n ∈ T) : S.card ≤ T.card := by
  apply Finset.card_le_card_of_injOn p
  · exact fun x hx => hT _ (h.holds x (hS x hx))
  · exact fun x hx y _ hxy => h.inj x y (hS x hx) hxy

/-- There are as many filled places as numbers that occur. -/
theorem Exclusive.card_eq (h : Exclusive p ok) {S : Finset ι} (hS : ∀ x, x ∈ S ↔ p x ≠ 0) {T : Finset ℕ}
    (hT : ∀ n, n ∈ T ↔ n ≠ 0 ∧ ∃ x, p x = n) : S.card = T.card := by
  apply Finset.card_nbij p
  · exact fun x hx => (hT _).mpr ⟨(hS x).mp hx,x,rfl⟩
  · exact fun x hx y _ hxy => h.inj x y ((hS x).mp hx) hxy
  · intro n hn
    obtain ⟨hne,x,rfl⟩ := (hT n).mp hn
    exact ⟨x,(hS x).mpr hne,rfl⟩

end LiteOSFS.Ownership
