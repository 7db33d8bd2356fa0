import Mathlib.Data.List.TakeWhile
import Mathlib.Data.Nat.Digits.Defs

/-!
# Canonical formats

A format pairs a printer with the parser that inverts it. It is self-delimiting (what follows the
text does not matter) and canonical (the parser reads nothing but what the printer writes), and
carries both facts, so a format built from formats needs no proof of its own.

* `Format.pair`, `Format.choice`, `Format.many`: sequence, choice, repetition
* `Format.decode_eq_some_iff`: a text decodes to what prints it and to nothing else
* `Format.Avoids`: tokens that no text of a format contains
-/

namespace Infra

universe u v w

/-- A printer with the parser that inverts it. -/
structure Format (τ : Type u) (α : Type v) where
  print : α → List τ
  parse : List τ → Option (α × List τ)
  parse_print : ∀ a rest, parse (print a ++ rest) = some (a, rest)
  print_parse : ∀ {s a rest}, parse s = some (a, rest) → s = print a ++ rest

namespace Format

variable {τ : Type u} {α : Type v} {β : Type w}

/-! ## Texts -/

/-- Two texts that agree as far as both go print the same value. -/
theorem print_append_inj (f : Format τ α) {a b : α} {s t : List τ}
    (h : f.print a ++ s = f.print b ++ t) : a = b ∧ s = t := by
  have ha := f.parse_print a s
  rw [h, f.parse_print b t] at ha
  cases ha
  exact ⟨rfl, rfl⟩

/-- Read a whole text. -/
def decode (f : Format τ α) (s : List τ) : Option α :=
  match f.parse s with
  | some (a, []) => some a
  | _ => none

theorem decode_eq_some_iff (f : Format τ α) {s : List τ} {a : α} :
    f.decode s = some a ↔ s = f.print a := by
  constructor
  · intro h
    unfold decode at h
    split at h
    · next b hb =>
      cases h
      simpa using f.print_parse hb
    · cases h
  · rintro rfl
    have h := f.parse_print a []
    rw [List.append_nil] at h
    simp [decode, h]

theorem decode_print (f : Format τ α) (a : α) : f.decode (f.print a) = some a :=
  f.decode_eq_some_iff.mpr rfl

/-! ## Building formats -/

/-- A fixed text. -/
def text [DecidableEq τ] (word : List τ) : Format τ Unit where
  print _ := word
  parse s := if word <+: s then some ((), s.drop word.length) else none
  parse_print := by
    intro _ rest
    simp
  print_parse := by
    intro s _ rest h
    split at h
    · next hp =>
      cases h
      obtain ⟨t, rfl⟩ := hp
      simp
    · cases h

/-- One token that passes a test. -/
def satisfying (p : τ → Bool) : Format τ {x : τ // p x = true} where
  print x := [x.val]
  parse
    | [] => none
    | x :: rest => if h : p x = true then some (⟨x, h⟩, rest) else none
  parse_print := by
    rintro ⟨x, hx⟩ rest
    simp [hx]
  print_parse := by
    intro s a rest h
    cases s with
    | nil => cases h
    | cons x s =>
      simp only at h
      split at h
      · cases h
        rfl
      · cases h

/-- One value after another. -/
def pair (f : Format τ α) (g : Format τ β) : Format τ (α × β) where
  print x := f.print x.1 ++ g.print x.2
  parse s := (f.parse s).bind fun x => (g.parse x.2).map fun y => ((x.1, y.1), y.2)
  parse_print := by
    intro x rest
    rw [List.append_assoc, f.parse_print, Option.bind_some, g.parse_print]
    rfl
  print_parse := by
    intro s x rest h
    obtain ⟨⟨a, s'⟩, hf, h⟩ := Option.bind_eq_some_iff.mp h
    obtain ⟨⟨b, s''⟩, hg, h⟩ := Option.map_eq_some_iff.mp h
    cases h
    have hs' : s' = g.print b ++ s'' := g.print_parse hg
    rw [f.print_parse hf, hs']
    exact (List.append_assoc _ _ _).symm

/-- Either value; the texts of the two sides must not be confused. -/
def choice (f : Format τ α) (g : Format τ β)
    (h : ∀ a b s t, f.print a ++ s ≠ g.print b ++ t) : Format τ (α ⊕ β) where
  print
    | .inl a => f.print a
    | .inr b => g.print b
  parse s :=
    match f.parse s with
    | some x => some (.inl x.1, x.2)
    | none => (g.parse s).map fun x => (.inr x.1, x.2)
  parse_print := by
    rintro (a | b) rest
    · simp only [f.parse_print]
    · cases hf : f.parse (g.print b ++ rest) with
      | some x => exact absurd (f.print_parse hf).symm (h _ _ _ _)
      | none => simp [g.parse_print]
  print_parse := by
    intro s x rest hx
    split at hx
    · next y hy =>
      cases hx
      exact f.print_parse hy
    · obtain ⟨y, hy, hx⟩ := Option.map_eq_some_iff.mp hx
      cases hx
      exact g.print_parse hy

/-- Another view of the same texts. -/
def conv (f : Format τ α) (read : α → Option β) (write : β → α)
    (hread : ∀ b, read (write b) = some b) (hshow : ∀ a b, read a = some b → a = write b) :
    Format τ β where
  print b := f.print (write b)
  parse s := (f.parse s).bind fun x => (read x.1).map (·, x.2)
  parse_print := by
    intro b rest
    simp [f.parse_print, hread]
  print_parse := by
    intro s b rest h
    obtain ⟨⟨a, s'⟩, hf, h⟩ := Option.bind_eq_some_iff.mp h
    obtain ⟨b', hb, h⟩ := Option.map_eq_some_iff.mp h
    cases h
    rw [f.print_parse hf, hshow a _ hb]

/-- A fixed text in front. -/
def after [DecidableEq τ] (word : List τ) (f : Format τ α) : Format τ α :=
  ((text word).pair f).conv (fun x => some x.2) (fun a => ((), a)) (fun _ => rfl)
    (by rintro ⟨⟨⟩, a⟩ b h; cases h; rfl)

/-- A fixed text behind. -/
def before [DecidableEq τ] (f : Format τ α) (word : List τ) : Format τ α :=
  (f.pair (text word)).conv (fun x => some x.1) (fun a => (a, ())) (fun _ => rfl)
    (by rintro ⟨a, ⟨⟩⟩ b h; cases h; rfl)

/-- One of finitely many words, none of which begins another. -/
def code [DecidableEq τ] (values : List α) (word : α → List τ) (hall : ∀ a, a ∈ values)
    (hcode : ∀ a ∈ values, ∀ b ∈ values, word a <+: word b → a = b) : Format τ α where
  print := word
  parse s := (values.find? fun a => decide (word a <+: s)).map fun a =>
    (a, s.drop (word a).length)
  parse_print := by
    intro a rest
    cases hf : values.find? (fun b => decide (word b <+: word a ++ rest)) with
    | none =>
      have hnot := List.find?_eq_none.mp hf a (hall a)
      simp at hnot
    | some b =>
      have hb : word b <+: word a ++ rest := by simpa using List.find?_some hf
      have hab : b = a := by
        rcases List.prefix_or_prefix_of_prefix hb (List.prefix_append (word a) rest) with h | h
        · exact hcode b (hall b) a (hall a) h
        · exact (hcode a (hall a) b (hall b) h).symm
      rw [hab]
      simp
  print_parse := by
    intro s a rest h
    obtain ⟨b, hb, h⟩ := Option.map_eq_some_iff.mp h
    cases h
    have hpre : word a <+: s := by simpa using List.find?_some hb
    obtain ⟨t, rfl⟩ := hpre
    simp

/-! ## Repetition -/

/-- The parser of a run of values up to a closing token. -/
def parseMany [DecidableEq τ] (f : Format τ α) (stop : τ) :
    Nat → List τ → Option (List α × List τ)
  | 0, _ => none
  | fuel + 1, s =>
    if s.head? = some stop then some ([], s.tail)
    else (f.parse s).bind fun x => (parseMany f stop fuel x.2).map fun y => (x.1 :: y.1, y.2)

theorem parseMany_print [DecidableEq τ] (f : Format τ α) {stop : τ}
    (hf : ∀ a, f.print a ≠ [] ∧ (f.print a).head? ≠ some stop) (l : List α) :
    ∀ (fuel : Nat) (rest : List τ), (l.flatMap f.print ++ stop :: rest).length ≤ fuel →
      parseMany f stop fuel (l.flatMap f.print ++ stop :: rest) = some (l, rest) := by
  induction l with
  | nil =>
    intro fuel rest hfuel
    cases fuel with
    | zero => simp at hfuel
    | succ fuel => simp [parseMany]
  | cons a l ih =>
    intro fuel rest hfuel
    obtain ⟨hne, hhead⟩ := hf a
    obtain ⟨x, more, hx⟩ := List.exists_cons_of_ne_nil hne
    cases fuel with
    | zero => simp at hfuel
    | succ fuel =>
      have hstop : ((a :: l).flatMap f.print ++ stop :: rest).head? ≠ some stop := by
        simpa [List.flatMap_cons, hx] using hhead
      have hle : (l.flatMap f.print ++ stop :: rest).length ≤ fuel := by
        simp only [List.flatMap_cons, hx, List.cons_append, List.length_cons, List.length_append]
          at hfuel ⊢
        omega
      rw [parseMany, if_neg hstop, List.flatMap_cons, List.append_assoc, f.parse_print,
        Option.bind_some, ih fuel rest hle]
      rfl

theorem print_parseMany [DecidableEq τ] (f : Format τ α) {stop : τ} :
    ∀ (fuel : Nat) {s : List τ} {l : List α} {rest : List τ},
      parseMany f stop fuel s = some (l, rest) → s = l.flatMap f.print ++ stop :: rest := by
  intro fuel
  induction fuel with
  | zero =>
    intro s l rest h
    cases h
  | succ fuel ih =>
    intro s l rest h
    rw [parseMany] at h
    split at h
    · next hstop =>
      cases h
      obtain ⟨t, rfl⟩ := List.head?_eq_some_iff.mp hstop
      rfl
    · obtain ⟨⟨a, s'⟩, hp, h⟩ := Option.bind_eq_some_iff.mp h
      obtain ⟨⟨l', s''⟩, hm, h⟩ := Option.map_eq_some_iff.mp h
      cases h
      have hs' : s' = l'.flatMap f.print ++ stop :: s'' := ih hm
      rw [f.print_parse hp, hs', List.flatMap_cons, List.append_assoc]

/-- Values up to a closing token that none of them starts with. -/
def many [DecidableEq τ] (f : Format τ α) (stop : τ)
    (hf : ∀ a, f.print a ≠ [] ∧ (f.print a).head? ≠ some stop) : Format τ (List α) where
  print l := l.flatMap f.print ++ [stop]
  parse s := parseMany f stop s.length s
  parse_print := by
    intro l rest
    rw [List.append_assoc, List.singleton_append]
    exact parseMany_print f hf l _ rest (Nat.le_refl _)
  print_parse := by
    intro s l rest h
    rw [List.append_assoc, List.singleton_append]
    exact print_parseMany f _ h

/-! ## Tokens a format never writes -/

/-- No text of the format contains the token. -/
def Avoids (f : Format τ α) (x : τ) : Prop := ∀ a, x ∉ f.print a

theorem Avoids.pair {f : Format τ α} {g : Format τ β} {x : τ} (hf : f.Avoids x)
    (hg : g.Avoids x) : (f.pair g).Avoids x := by
  intro a h
  rcases List.mem_append.mp h with h | h
  · exact hf _ h
  · exact hg _ h

theorem Avoids.choice {f : Format τ α} {g : Format τ β} {x : τ} (hf : f.Avoids x)
    (hg : g.Avoids x) (h : ∀ a b s t, f.print a ++ s ≠ g.print b ++ t) :
    (f.choice g h).Avoids x := by
  rintro (a | b)
  · exact hf a
  · exact hg b

theorem Avoids.conv {f : Format τ α} {x : τ} (hf : f.Avoids x) (read : α → Option β)
    (write : β → α) (hread : ∀ b, read (write b) = some b)
    (hshow : ∀ a b, read a = some b → a = write b) : (f.conv read write hread hshow).Avoids x :=
  fun b => hf (write b)

theorem Avoids.text [DecidableEq τ] {word : List τ} {x : τ} (hx : x ∉ word) :
    (text word).Avoids x := fun _ => hx

theorem Avoids.satisfying {p : τ → Bool} {x : τ} (hx : p x = false) : (satisfying p).Avoids x := by
  rintro ⟨y, hy⟩ h
  have heq : x = y := List.mem_singleton.mp h
  rw [← heq, hx] at hy
  cases hy

theorem Avoids.code [DecidableEq τ] {values : List α} {word : α → List τ} {x : τ}
    (hx : ∀ a ∈ values, x ∉ word a) (hall : ∀ a, a ∈ values)
    (hcode : ∀ a ∈ values, ∀ b ∈ values, word a <+: word b → a = b) :
    (code values word hall hcode).Avoids x := fun a => hx a (hall a)

theorem Avoids.after [DecidableEq τ] {f : Format τ α} {word : List τ} {x : τ} (hx : x ∉ word)
    (hf : f.Avoids x) : (after word f).Avoids x := ((Avoids.text hx).pair hf).conv _ _ _ _

theorem Avoids.before [DecidableEq τ] {f : Format τ α} {word : List τ} {x : τ} (hx : x ∉ word)
    (hf : f.Avoids x) : (before f word).Avoids x := (hf.pair (Avoids.text hx)).conv _ _ _ _

theorem Avoids.many [DecidableEq τ] {f : Format τ α} {stop x : τ} (hf : f.Avoids x)
    (hx : x ≠ stop) (h : ∀ a, f.print a ≠ [] ∧ (f.print a).head? ≠ some stop) :
    (f.many stop h).Avoids x := by
  intro l hmem
  rcases List.mem_append.mp hmem with hmem | hmem
  · obtain ⟨a, _, ha⟩ := List.mem_flatMap.mp hmem
    exact hf a ha
  · exact hx (List.mem_singleton.mp hmem)

/-! ## Telling texts apart -/

theorem print_pair_after_ne_nil [DecidableEq τ] {word : List τ} (hword : word ≠ [])
    (f : Format τ α) (g : Format τ β) (x : α × β) : ((after word f).pair g).print x ≠ [] := by
  intro h
  have hfirst : word ++ f.print x.1 = [] := (List.append_eq_nil_iff.mp h).1
  exact hword (List.append_eq_nil_iff.mp hfirst).1

/-- Words that disagree somewhere start different texts. -/
theorem append_ne_append {word word' : List τ} (h : ¬ word <+: word') (h' : ¬ word' <+: word)
    (s t : List τ) : word ++ s ≠ word' ++ t := by
  intro heq
  have hp : word' <+: word ++ s := ⟨t, heq.symm⟩
  rcases List.prefix_or_prefix_of_prefix hp (List.prefix_append word s) with hp | hp
  · exact h' hp
  · exact h hp

end Format

end Infra
