import FiduciaBrain.Infra.Transition
import Mathlib.Data.Finset.Basic
import Mathlib.Data.List.Infix
import Mathlib.Logic.Function.Basic

/-!
# Term-indexed logs

The abstract protocol: members with a term, a vote per term and a log, and one *leader log* per
term. Nothing is compacted, no message exists, and a member's log is always the whole list of
entries from the first one on. A step is what one member decides on its own; the only knowledge it
uses about the others is in the shared ledger (`vote`, `cand`, `llog`, `acked`), which only grows.

* `llog t` is the log the leader of term `t` has written so far
* `acked n t` is how much of `llog t` member `n` has confirmed to hold, said while in term `t`
* `cand n t` is the log `n` ran with when it stood in term `t`

`TermLog/Invariant.lean` proves what every step keeps, `TermLog/Safety.lean` what follows for runs.
-/

namespace TermLog

universe u v

/-- Entries that carry the term they were written in. -/
class Termed (E : Type v) where
  termOf : E → Nat

export Termed (termOf)

/-- A family of sets of members any two of which meet. -/
structure Quorums (N : Type u) where
  IsQuorum : Finset N → Prop
  inter : ∀ A B, IsQuorum A → IsQuorum B → ∃ n, n ∈ A ∧ n ∈ B

variable {N : Type u} {E : Type v}

/-! ## Logs -/

section Logs

/-- The log with `r` taken over: kept if it already holds `r`, replaced by `r` if not. -/
noncomputable def splice (l r : List E) : List E :=
  open Classical in if r <+: l then l else r

theorem prefix_splice (l r : List E) : r <+: splice l r := by
  unfold splice
  split
  · assumption
  · exact List.prefix_rfl

theorem splice_eq_left {l r : List E} (h : r <+: l) : splice l r = l := if_pos h

theorem splice_eq_right {l r : List E} (h : ¬ r <+: l) : splice l r = r := if_neg h

/-- Taking over a prefix of `m` keeps every prefix the log shares with `m`. -/
theorem prefix_splice_of_common {l r m p : List E} (hr : r <+: m) (hp : p <+: m) (hl : p <+: l) :
    p <+: splice l r := by
  by_cases h : r <+: l
  · rw [splice_eq_left h]; exact hl
  · rw [splice_eq_right h]
    rcases List.prefix_or_prefix_of_prefix hp hr with hpr | hrp
    · exact hpr
    · exact absurd (hrp.trans hl) h

variable [Termed E]

/-- The term of the last entry, 0 for the empty log. -/
def lastTerm (l : List E) : Nat := (l.getLast?.map termOf).getD 0

/-- `l` is at least as up to date as `r`: the election restriction. -/
def UpToDate (l r : List E) : Prop :=
  lastTerm r < lastTerm l ∨ (lastTerm l = lastTerm r ∧ r.length ≤ l.length)

/-- The last entry of `p` exists and was written in term `t`. -/
def EndsIn (t : Nat) (p : List E) : Prop := ∃ q e, p = q ++ [e] ∧ termOf e = t

@[simp] theorem lastTerm_nil : lastTerm ([] : List E) = 0 := rfl

@[simp] theorem lastTerm_append_singleton (l : List E) (e : E) :
    lastTerm (l ++ [e]) = termOf e := by simp [lastTerm]

theorem lastTerm_eq_getLast {l : List E} (h : l ≠ []) : lastTerm l = termOf (l.getLast h) := by
  simp [lastTerm, List.getLast?_eq_some_getLast h]

theorem endsIn_lastTerm {l : List E} (h : l ≠ []) : EndsIn (lastTerm l) l :=
  ⟨l.dropLast, l.getLast h, (List.dropLast_append_getLast h).symm, (lastTerm_eq_getLast h).symm⟩

theorem EndsIn.lastTerm_eq {t : Nat} {p : List E} (h : EndsIn t p) : lastTerm p = t := by
  obtain ⟨q, e, rfl, he⟩ := h
  simp [he]

theorem EndsIn.ne_nil {t : Nat} {p : List E} (h : EndsIn t p) : p ≠ [] := by
  obtain ⟨q, e, rfl, _⟩ := h
  simp

theorem EndsIn.exists_mem {t : Nat} {p : List E} (h : EndsIn t p) : ∃ e ∈ p, termOf e = t := by
  obtain ⟨q, e, rfl, he⟩ := h
  exact ⟨e, by simp, he⟩

end Logs

/-! ## States -/

/-- What the members hold and the ledger of what they have said. -/
structure State (N : Type u) (E : Type v) where
  term : N → Nat
  log : N → List E
  commit : N → Nat
  vote : N → Nat → Option N
  cand : N → Nat → Option (List E)
  leader : Nat → Option N
  llog : Nat → List E
  acked : N → Nat → Nat

/-- Nobody has said anything. -/
def State.start : State N E where
  term := fun _ => 0
  log := fun _ => []
  commit := fun _ => 0
  vote := fun _ _ => none
  cand := fun _ _ => none
  leader := fun _ => none
  llog := fun _ => []
  acked := fun _ _ => 0

/-- Update of a table with two keys. -/
def set₂ [DecidableEq N] {β : Type*} (f : N → Nat → β) (n : N) (t : Nat) (b : β) :
    N → Nat → β :=
  fun m s => if m = n ∧ s = t then b else f m s

theorem set₂_self [DecidableEq N] {β : Type*} (f : N → Nat → β) (n : N) (t : Nat) (b : β) :
    set₂ f n t b n t = b := by simp [set₂]

theorem set₂_of_ne [DecidableEq N] {β : Type*} {f : N → Nat → β} {n m : N} {t s : Nat} {b : β}
    (h : ¬ (m = n ∧ s = t)) : set₂ f n t b m s = f m s := if_neg h

theorem set₂_cases [DecidableEq N] {β : Type*} {f : N → Nat → β} {n m : N} {t s : Nat} {b x : β}
    (h : set₂ f n t b m s = x) : f m s = x ∨ (m = n ∧ s = t ∧ b = x) := by
  by_cases hms : m = n ∧ s = t
  · obtain ⟨rfl, rfl⟩ := hms
    exact Or.inr ⟨rfl, rfl, (set₂_self f m s b).symm.trans h⟩
  · exact Or.inl ((set₂_of_ne hms).symm.trans h)

/-- Filling a free slot overwrites nothing. -/
theorem set₂_of_free [DecidableEq N] {β : Type*} {f : N → Nat → Option β} {n m : N} {t s : Nat}
    {b x : β} (hfree : f n t = none ∨ f n t = some b) (h : f m s = some x) :
    set₂ f n t (some b) m s = some x := by
  by_cases hms : m = n ∧ s = t
  · obtain ⟨rfl, rfl⟩ := hms
    rw [set₂_self]
    rcases hfree with hf | hf
    · rw [hf] at h; cases h
    · rw [← hf, h]
  · rw [set₂_of_ne hms, h]

section Steps

variable [Termed E] (Q : Quorums N) (a : State N E)

/-- `p` is part of term `t`'s leader log, ends in an entry of that term, and a quorum has
confirmed it. -/
def Chosen (t : Nat) (p : List E) : Prop :=
  p <+: a.llog t ∧ EndsIn t p ∧ ∃ A, Q.IsQuorum A ∧ ∀ n ∈ A, p.length ≤ a.acked n t

/-- Some quorum has confirmed `p` in term `t` or still may: none of its members has left term `t`
without doing so. -/
def Choosable (t : Nat) (p : List E) : Prop :=
  EndsIn t p ∧ ∃ A, Q.IsQuorum A ∧ ∀ n ∈ A, p.length ≤ a.acked n t ∨ a.term n ≤ t

/-- `p` is covered by something chosen in a term up to `t`. -/
def Committed (t : Nat) (p : List E) : Prop :=
  p = [] ∨ ∃ s q, s ≤ t ∧ Chosen Q a s q ∧ p <+: q

/-- Every prefix of `l` is a prefix of the leader log of the term it ends in. -/
def Coherent (l : List E) : Prop := ∀ p t, p <+: l → EndsIn t p → p <+: a.llog t

variable [DecidableEq N]

/-- Member `n` learns of a later term. -/
def State.adopt (n : N) (t : Nat) : State N E := { a with term := Function.update a.term n t }

/-- Member `n` stands for the next term and votes for itself. -/
def State.campaign (n : N) : State N E :=
  { a with
    term := Function.update a.term n (a.term n + 1)
    vote := set₂ a.vote n (a.term n + 1) (some n)
    cand := set₂ a.cand n (a.term n + 1) (some (a.log n)) }

/-- Member `n` votes for `c` in its term. -/
def State.grant (n c : N) : State N E := { a with vote := set₂ a.vote n (a.term n) (some c) }

/-- Member `c` extends its own log and its term's leader log by the entry `e`. -/
def State.write (c : N) (e : E) : State N E :=
  { a with
    llog := Function.update a.llog (a.term c) (a.log c ++ [e])
    log := Function.update a.log c (a.log c ++ [e])
    acked := set₂ a.acked c (a.term c) (a.log c ++ [e]).length }

/-- Member `c` becomes the leader of its term, which starts with the entry `e`. -/
def State.elect (c : N) (e : E) : State N E :=
  { a.write c e with leader := Function.update a.leader (a.term c) (some c) }

/-- Member `n` takes over the part `r` of its term's leader log and confirms it. -/
noncomputable def State.accept (n : N) (r : List E) : State N E :=
  { a with
    log := Function.update a.log n (splice (a.log n) r)
    acked := set₂ a.acked n (a.term n) (max (a.acked n (a.term n)) r.length) }

/-- Member `n` learns that its first `m` entries are committed. -/
def State.commitTo (n : N) (m : Nat) : State N E :=
  { a with commit := Function.update a.commit n m }

/-- What a member may do on its own. -/
inductive Step : State N E → State N E → Prop
  | adopt (a : State N E) (n : N) (t : Nat) : a.term n < t → Step a (a.adopt n t)
  | campaign (a : State N E) (n : N) : Step a (a.campaign n)
  | grant (a : State N E) (n c : N) (l : List E) : a.cand c (a.term n) = some l →
      a.vote n (a.term n) = none ∨ a.vote n (a.term n) = some c → UpToDate l (a.log n) →
      Step a (a.grant n c)
  | elect (a : State N E) (c : N) (e : E) : a.cand c (a.term c) = some (a.log c) →
      a.leader (a.term c) ≠ some c → termOf e = a.term c →
      (∃ A, Q.IsQuorum A ∧ ∀ n ∈ A, a.vote n (a.term c) = some c) → Step a (a.elect c e)
  | write (a : State N E) (c : N) (e : E) : a.leader (a.term c) = some c →
      termOf e = a.term c → Step a (a.write c e)
  | accept (a : State N E) (n : N) (r : List E) : r <+: a.llog (a.term n) →
      Step a (a.accept n r)
  | commitTo (a : State N E) (n : N) (m : Nat) : a.commit n ≤ m → m ≤ (a.log n).length →
      Committed Q a (a.term n) ((a.log n).take m) → Step a (a.commitTo n m)

/-- The protocol, started with nothing said. -/
def system : Infra.TransitionSystem (State N E) where
  init a := a = State.start
  step := Step Q

end Steps

end TermLog
