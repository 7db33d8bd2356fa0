import Mathlib.Data.Finset.Card
import Mathlib.Tactic.Common

/-!
# Majorities under a changing set of voters

Two majorities of one set meet. They still meet when the second one is a majority of a set that
differs from the first in one element, which is why a configuration is changed one voter at a time.
-/

namespace Infra

universe u

variable {α : Type u} [DecidableEq α]

/-- More than half of `voters`. -/
def IsMajority (voters q : Finset α) : Prop := q ⊆ voters ∧ voters.card < 2 * q.card

/-- Every majority of `v` meets every majority of `w`. -/
def Overlap (v w : Finset α) : Prop :=
  ∀ a b, IsMajority v a → IsMajority w b → (a ∩ b).Nonempty

namespace Overlap

variable {v w : Finset α}

theorem symm (h : Overlap v w) : Overlap w v := by
  intro a b ha hb
  rw [Finset.inter_comm]
  exact h b a hb ha

/-- The sets that one element is added to: the larger one holds both majorities, and they are
together too many to be disjoint. -/
theorem of_subset (hsub : v ⊆ w) (hcard : w.card ≤ v.card + 1) : Overlap v w := by
  rintro a b ⟨ha, hav⟩ ⟨hb, hbw⟩
  refine Finset.inter_nonempty_of_card_lt_card_add_card (ha.trans hsub) hb ?_
  have hvw : v.card ≤ w.card := Finset.card_le_card hsub
  omega

theorem refl (v : Finset α) : Overlap v v := of_subset (Finset.Subset.refl v) (Nat.le_succ _)

theorem insert (v : Finset α) (x : α) : Overlap v (insert x v) :=
  of_subset (Finset.subset_insert x v) (Finset.card_insert_le x v)

theorem erase (v : Finset α) (x : α) : Overlap v (v.erase x) :=
  (of_subset (Finset.erase_subset x v)
    (Nat.sub_le_iff_le_add.mp Finset.pred_card_le_card_erase)).symm

end Overlap

end Infra
