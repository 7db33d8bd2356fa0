import Mathlib.Dynamics.FixedPoints.Basic

/-!
# Iterating until nothing changes

A map that either settles in one more step or makes its argument smaller settles within that many
steps (`isFixedPt_iterate`), and wherever an orbit settles it is the same point
(`eq_of_isFixedPt_iterate`).
-/

namespace Infra

open Function

universe u

variable {α : Type u} {f : α → α}

/-- **A map that settles or shrinks its argument settles.** -/
theorem isFixedPt_iterate {P : α → Prop} (μ : α → Nat) (hP : ∀ x, P x → P (f x))
    (hstep : ∀ x, P x → IsFixedPt f (f x) ∨ μ (f x) < μ x) (n : Nat) {x : α} (hx : P x)
    (hn : μ x ≤ n) : IsFixedPt f (f^[n + 1] x) := by
  induction n generalizing x with
  | zero =>
    rcases hstep x hx with h | h
    · exact h
    · exact absurd (h.trans_le hn) (Nat.not_lt_zero _)
  | succ n ih =>
    rw [iterate_succ_apply]
    rcases hstep x hx with h | h
    · rw [iterate_fixed h]
      exact h
    · exact ih (hP x hx) (by omega)

/-- Where an orbit settles it stays. -/
theorem iterate_eq_of_le {n m : Nat} {x : α} (h : IsFixedPt f (f^[n] x)) (hnm : n ≤ m) :
    f^[m] x = f^[n] x := by
  obtain ⟨k, rfl⟩ := Nat.exists_eq_add_of_le' hnm
  rw [iterate_add_apply, iterate_fixed h]

/-- **An orbit settles at one point.** -/
theorem eq_of_isFixedPt_iterate {n m : Nat} {x : α} (h : IsFixedPt f (f^[n] x))
    (h' : IsFixedPt f (f^[m] x)) : f^[n] x = f^[m] x := by
  rcases Nat.le_total n m with hnm | hmn
  · exact (iterate_eq_of_le h hnm).symm
  · exact iterate_eq_of_le h' hmn

end Infra
