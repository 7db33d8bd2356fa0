import Mathlib.Logic.Basic

/-!
# Computations that fail for lack of room only

A fallible program computes the value of a total one unless something does not fit. `Within fault
room x a` says that `x` gives `a`, or fails with `fault` and `room` is lacking. The rules below
compose such facts along the program; at the end `room` gives the value (`Within.eq_ok`), and
without it no other failure is possible (`Within.ne_error`).
-/

namespace Infra

universe u v w

variable {ε : Type u} {α β : Type v} {fault : ε} {room room' : Prop} {x : Except ε α} {a : α}

/-- `x` computes `a`, or fails with `fault` because `room` is lacking. -/
def Within (fault : ε) (room : Prop) (x : Except ε α) (a : α) : Prop :=
  x = .ok a ∨ x = .error fault ∧ ¬ room

namespace Within

theorem ok (fault : ε) (room : Prop) (a : α) : Within fault room (.ok a) a := Or.inl rfl

theorem eq_ok (h : Within fault room x a) (hroom : room) : x = .ok a :=
  h.elim (fun heq => heq) fun hno => absurd hroom hno.2

theorem ne_error (h : Within fault room x a) {other : ε} (hne : other ≠ fault) :
    x ≠ .error other := by
  rintro rfl
  rcases h with h | ⟨h, _⟩
  · cases h
  · exact hne (Except.error.inj h)

theorem mono (h : Within fault room x a) (himp : room' → room) : Within fault room' x a :=
  h.imp_right fun hno => ⟨hno.1, fun hroom => hno.2 (himp hroom)⟩

theorem bind {f : α → Except ε β} {b : β} (h : Within fault room x a)
    (hf : Within fault room (f a) b) : Within fault room (x >>= f) b := by
  rcases h with rfl | ⟨rfl, hno⟩
  · exact hf
  · exact Or.inr ⟨rfl, hno⟩

theorem ite {c : Prop} [Decidable c] {y : Except ε α} {b : α} (ht : c → Within fault room x a)
    (hf : ¬ c → Within fault room y b) :
    Within fault room (if c then x else y) (if c then a else b) := by
  by_cases h : c
  · rw [if_pos h, if_pos h]
    exact ht h
  · rw [if_neg h, if_neg h]
    exact hf h

/-- A loop, by an invariant of the state it carries. -/
theorem foldlM {σ : Type v} {ι : Type w} {P : σ → Prop} {f : σ → ι → Except ε σ} {g : σ → ι → σ}
    {l : List ι} (hstep : ∀ s i, i ∈ l → P s → Within fault room (f s i) (g s i) ∧ P (g s i))
    {s : σ} (hs : P s) : Within fault room (l.foldlM f s) (l.foldl g s) := by
  induction l generalizing s with
  | nil => exact ok fault room s
  | cons i rest ih =>
    obtain ⟨hw, hp⟩ := hstep s i (List.mem_cons_self ..) hs
    rw [List.foldlM_cons, List.foldl_cons]
    exact hw.bind (ih (fun s j hj => hstep s j (List.mem_cons_of_mem _ hj)) hp)

end Within

end Infra
