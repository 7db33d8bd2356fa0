import Mathlib.Logic.Relation

/-!
# Transition systems

A system is a set of initial states and a step relation. This module packages the two inductions
that every safety argument over a system repeats:

* `TransitionSystem.Reachable.invariant`: what holds at the start and survives a step holds of every
  reachable state
* `TransitionSystem.Steps.rel`: a preorder that every step respects is respected by every run

and the one that moves facts between two systems, forward simulation (`Simulation`).
-/

namespace Infra

universe u v

/-- Initial states and a step relation. -/
structure TransitionSystem (σ : Type u) where
  init : σ → Prop
  step : σ → σ → Prop

namespace TransitionSystem

variable {σ : Type u} (S : TransitionSystem σ)

/-- A run of any length, the empty one included. -/
def Steps : σ → σ → Prop := Relation.ReflTransGen S.step

/-- A state that some run from an initial state ends in. -/
def Reachable (s : σ) : Prop := ∃ s₀, S.init s₀ ∧ S.Steps s₀ s

variable {S}

theorem Steps.refl (s : σ) : S.Steps s s := Relation.ReflTransGen.refl

theorem Steps.single {s t : σ} (h : S.step s t) : S.Steps s t := Relation.ReflTransGen.single h

theorem Steps.trans {s t u : σ} (h : S.Steps s t) (h' : S.Steps t u) : S.Steps s u :=
  Relation.ReflTransGen.trans h h'

theorem Steps.tail {s t u : σ} (h : S.Steps s t) (h' : S.step t u) : S.Steps s u :=
  Relation.ReflTransGen.tail h h'

theorem Reachable.of_init {s : σ} (h : S.init s) : S.Reachable s := ⟨s, h, Steps.refl s⟩

theorem Reachable.steps {s t : σ} (h : S.Reachable s) (hs : S.Steps s t) : S.Reachable t := by
  obtain ⟨s₀, h0, hr⟩ := h
  exact ⟨s₀, h0, hr.trans hs⟩

theorem Reachable.step {s t : σ} (h : S.Reachable s) (hs : S.step s t) : S.Reachable t :=
  h.steps (Steps.single hs)

/-- Anything a step preserves is preserved by a run from a reachable state. -/
theorem Steps.preserves {P : σ → Prop}
    (hstep : ∀ s t, S.Reachable s → P s → S.step s t → P t)
    {s t : σ} (hs : S.Steps s t) (hr : S.Reachable s) (hp : P s) : P t := by
  induction hs with
  | refl => exact hp
  | tail hst htu ih => exact hstep _ _ (hr.steps hst) ih htu

/-- **Invariant rule.** -/
theorem Reachable.invariant {P : σ → Prop} (hinit : ∀ s, S.init s → P s)
    (hstep : ∀ s t, S.Reachable s → P s → S.step s t → P t) {s : σ} (h : S.Reachable s) : P s := by
  obtain ⟨s₀, h0, hr⟩ := h
  exact Steps.preserves hstep hr (.of_init h0) (hinit s₀ h0)

/-- **Run rule.** A reflexive and transitive relation that contains every step from a reachable
state contains every run from one. -/
theorem Steps.rel {R : σ → σ → Prop} (hrefl : ∀ s, R s s)
    (htrans : ∀ s t u, R s t → R t u → R s u)
    (hstep : ∀ s t, S.Reachable s → S.step s t → R s t)
    {s t : σ} (hr : S.Reachable s) (hs : S.Steps s t) : R s t := by
  induction hs with
  | refl => exact hrefl s
  | tail hst htu ih => exact htrans _ _ _ ih (hstep _ _ (hr.steps hst) htu)

end TransitionSystem

open TransitionSystem

/--
A forward simulation: each step of the concrete system `C` is answered by a run of the abstract
system `A` that leads back into the relation.
-/
structure Simulation {σ : Type u} {α : Type v} (C : TransitionSystem σ) (A : TransitionSystem α) where
  rel : σ → α → Prop
  init : ∀ s, C.init s → ∃ a, A.init a ∧ rel s a
  step : ∀ s s' a, A.Reachable a → rel s a → C.step s s' → ∃ a', A.Steps a a' ∧ rel s' a'

namespace Simulation

variable {σ : Type u} {α : Type v} {C : TransitionSystem σ}
  {A : TransitionSystem α} (m : Simulation C A)

/-- A concrete run from related states is answered by an abstract run. -/
theorem steps {s s' : σ} {a : α} (ha : A.Reachable a) (h : m.rel s a) (hs : C.Steps s s') :
    ∃ a', A.Steps a a' ∧ m.rel s' a' := by
  induction hs with
  | refl => exact ⟨a, .refl a, h⟩
  | tail _ htu ih =>
    obtain ⟨b, hab, hb⟩ := ih
    obtain ⟨c, hbc, hc⟩ := m.step _ _ b (ha.steps hab) hb htu
    exact ⟨c, hab.trans hbc, hc⟩

/-- Every reachable concrete state is related to a reachable abstract one. -/
theorem reachable {s : σ} (h : C.Reachable s) : ∃ a, A.Reachable a ∧ m.rel s a := by
  obtain ⟨s₀, h0, hr⟩ := h
  obtain ⟨a₀, ha0, hrel⟩ := m.init s₀ h0
  obtain ⟨a, has, hrel'⟩ := m.steps (.of_init ha0) hrel hr
  exact ⟨a, (TransitionSystem.Reachable.of_init ha0).steps has, hrel'⟩

end Simulation

end Infra
