import FiduciaBrain.Infra.Transition
import Mathlib.Data.List.Basic

/-!
# Guarded actions

A state machine told by what each named action does, if its guard holds. `Ranking` bounds how many
actions of a kind any run can take.
-/

namespace Infra

universe u v

variable {σ : Type u} {α : Type v}

/-- What an action does, if its guard holds. -/
def fireIf (enabled : σ → α → Prop) [∀ s a, Decidable (enabled s a)] (apply : σ → α → σ) (s : σ)
    (a : α) : Option σ :=
  if enabled s a then some (apply s a) else none

theorem fireIf_eq_some {enabled : σ → α → Prop} [∀ s a, Decidable (enabled s a)] {apply : σ → α → σ}
    {s s' : σ} {a : α} : fireIf enabled apply s a = some s' ↔ enabled s a ∧ s' = apply s a := by
  rw [fireIf, Option.ite_none_right_eq_some, Option.some.injEq, @eq_comm _ s']

variable (fire : σ → α → Option σ)

/-- One action after the other. -/
def runAll : σ → List α → Option σ
  | s, [] => some s
  | s, a :: as => (fire s a).bind fun s' => runAll s' as

/-- The transition system of the actions. -/
def guarded (init : σ → Prop) : TransitionSystem σ where
  init := init
  step s s' := ∃ a, fire s a = some s'

variable {fire} {s s' : σ} {as bs : List α}

theorem runAll_cons {a : α} :
    runAll fire s (a :: as) = some s' ↔ ∃ t, fire s a = some t ∧ runAll fire t as = some s' := by
  rw [runAll, Option.bind_eq_some_iff]

theorem runAll_append :
    runAll fire s (as ++ bs) = some s' ↔
      ∃ t, runAll fire s as = some t ∧ runAll fire t bs = some s' := by
  induction as generalizing s with
  | nil => simp [runAll]
  | cons a as ih =>
    simp only [List.cons_append, runAll_cons, ih]
    constructor
    · rintro ⟨t, ht, u, hu, hb⟩
      exact ⟨u, ⟨t, ht, hu⟩, hb⟩
    · rintro ⟨u, ⟨t, ht, hu⟩, hb⟩
      exact ⟨t, ht, u, hu, hb⟩

theorem steps_of_runAll (init : σ → Prop) (h : runAll fire s as = some s') :
    (guarded fire init).Steps s s' := by
  induction as generalizing s with
  | nil =>
    cases h
    exact TransitionSystem.Steps.refl _
  | cons a as ih =>
    obtain ⟨t, ht, htail⟩ := runAll_cons.mp h
    have hstep : (guarded fire init).step s t := ⟨a, ht⟩
    exact (TransitionSystem.Steps.single hstep).trans (ih htail)

/-- What every action preserves, a run preserves. -/
theorem runAll_preserves {P : σ → Prop} (hfire : ∀ s a s', P s → fire s a = some s' → P s')
    (h : runAll fire s as = some s') (hs : P s) : P s' := by
  induction as generalizing s with
  | nil =>
    cases h
    exact hs
  | cons a as ih =>
    obtain ⟨t, ht, htail⟩ := runAll_cons.mp h
    exact ih htail (hfire s a t hs ht)

/-- A rank that no action raises and that an action of the kind lowers, on the states of an
invariant. -/
structure Ranking (fire : σ → α → Option σ) (kind : α → Bool) where
  inv : σ → Prop
  rank : σ → Nat
  keeps : ∀ s a s', inv s → fire s a = some s' → inv s'
  falls : ∀ s a s', inv s → fire s a = some s' →
    rank s' + (if kind a then 1 else 0) ≤ rank s

/-- **A run takes no more actions of the kind than the rank it starts with.** -/
theorem Ranking.countP_add_rank_le {kind : α → Bool} (r : Ranking fire kind) (hs : r.inv s)
    (h : runAll fire s as = some s') : as.countP kind + r.rank s' ≤ r.rank s := by
  induction as generalizing s with
  | nil =>
    cases h
    exact Nat.le_of_eq (Nat.zero_add _)
  | cons a as ih =>
    obtain ⟨t, ht, htail⟩ := runAll_cons.mp h
    have hrest := ih (r.keeps s a t hs ht) htail
    have hfirst := r.falls s a t hs ht
    rw [List.countP_cons]
    omega

end Infra
