import Mathlib.Order.Lattice

/-!
# Scans that keep the best element

The loop `best = None; for x in xs { if best is None or x is better { best = Some(x) } }`, and
`minBy`, which is that loop for a comparator. An element replaces the choice only when it is strictly
better, so of several best elements the scan keeps the first.

`better` is any test. What it has to respect for the choice to be a maximum of `key` is in the
hypotheses of `selectBest_max`: the scan never trades the key down, and a larger key always wins. A
test that compares the keys and nothing else makes the same choice in any order
(`selectBest_perm`).
-/

namespace Infra

universe u v

variable {α : Type u} {κ : Type v}

/-- One round of the scan. -/
def keepBetter (better : α → α → Bool) (best : Option α) (x : α) : Option α :=
  match best with
  | none => some x
  | some b => if better x b then some x else some b

/-- The element the scan ends with. -/
def selectBest (better : α → α → Bool) (l : List α) : Option α := l.foldl (keepBetter better) none

/-- The first of the least elements. -/
def minBy (cmp : α → α → Ordering) (l : List α) : Option α :=
  selectBest (fun y x => cmp x y == .gt) l

section

variable {better : α → α → Bool} {l : List α} {b : α}

/-- A scan that has a choice keeps one, which is the old one or an element it met. -/
theorem foldl_keepBetter_some (better : α → α → Bool) (b : α) (l : List α) :
    ∃ c, l.foldl (keepBetter better) (some b) = some c ∧ (c = b ∨ c ∈ l) := by
  induction l generalizing b with
  | nil => exact ⟨b, rfl, .inl rfl⟩
  | cons x rest ih =>
    simp only [List.foldl_cons, keepBetter, List.mem_cons]
    split
    · obtain ⟨c, hc, h⟩ := ih x
      exact ⟨c, hc, .inr h⟩
    · obtain ⟨c, hc, h⟩ := ih b
      exact ⟨c, hc, h.imp_right .inr⟩

theorem selectBest_eq_none : selectBest better l = none ↔ l = [] := by
  cases l with
  | nil => simp [selectBest]
  | cons x rest =>
    obtain ⟨c, hc, -⟩ := foldl_keepBetter_some better x rest
    simp [selectBest, keepBetter, hc]

theorem selectBest_mem (h : selectBest better l = some b) : b ∈ l := by
  cases l with
  | nil => cases h
  | cons x rest =>
    obtain ⟨c, hc, hmem⟩ := foldl_keepBetter_some better x rest
    have heq : c = b := Option.some.inj (hc.symm.trans h)
    subst heq
    exact List.mem_cons.mpr hmem

theorem minBy_eq_none {cmp : α → α → Ordering} : minBy cmp l = none ↔ l = [] := selectBest_eq_none

theorem minBy_mem {cmp : α → α → Ordering} (h : minBy cmp l = some b) : b ∈ l := selectBest_mem h

variable [LinearOrder κ] {key : α → κ}

theorem foldl_keepBetter_max (hkeep : ∀ x y, better x y = true → key y ≤ key x)
    (hwins : ∀ x y, key y < key x → better x y = true) {a : α}
    (h : l.foldl (keepBetter better) (some a) = some b) :
    key a ≤ key b ∧ ∀ x ∈ l, key x ≤ key b := by
  induction l generalizing a with
  | nil =>
    cases h
    exact ⟨le_refl _, fun x hx => by cases hx⟩
  | cons x rest ih =>
    simp only [List.foldl_cons, keepBetter] at h
    split at h
    · next hbetter =>
      obtain ⟨hx, hrest⟩ := ih h
      exact ⟨(hkeep x a hbetter).trans hx, List.forall_mem_cons.mpr ⟨hx, hrest⟩⟩
    · next hnot =>
      obtain ⟨ha, hrest⟩ := ih h
      have hxa : key x ≤ key a := le_of_not_gt (fun hlt => hnot (hwins x a hlt))
      exact ⟨ha, List.forall_mem_cons.mpr ⟨hxa.trans ha, hrest⟩⟩

/-- **The choice has the largest key**, whatever else the test looks at. -/
theorem selectBest_max (hkeep : ∀ x y, better x y = true → key y ≤ key x)
    (hwins : ∀ x y, key y < key x → better x y = true) (h : selectBest better l = some b) :
    ∀ x ∈ l, key x ≤ key b := by
  cases l with
  | nil => cases h
  | cons x rest =>
    obtain ⟨hx, hrest⟩ := foldl_keepBetter_max hkeep hwins h
    exact List.forall_mem_cons.mpr ⟨hx, hrest⟩

/-- **The order of the elements does not matter** to a test that compares a key which tells them
apart. -/
theorem selectBest_perm (hbetter : ∀ x y, better x y = true ↔ key y < key x) {l' : List α}
    (hinj : ∀ x ∈ l, ∀ y ∈ l, key x = key y → x = y) (h : l.Perm l') :
    selectBest better l = selectBest better l' := by
  have hmax : ∀ {l : List α} {b : α}, selectBest better l = some b → ∀ x ∈ l, key x ≤ key b :=
    selectBest_max (fun x y hxy => ((hbetter x y).mp hxy).le) (fun x y => (hbetter x y).mpr)
  cases hb : selectBest better l with
  | none =>
    rw [selectBest_eq_none.mp hb] at h
    rw [← h.nil_eq]
    rfl
  | some b =>
    cases hb' : selectBest better l' with
    | none =>
      rw [selectBest_eq_none.mp hb'] at h
      rw [h.eq_nil] at hb
      cases hb
    | some b' =>
      have hmem : b ∈ l := selectBest_mem hb
      have hmem' : b' ∈ l := h.symm.subset (selectBest_mem hb')
      have hle : key b ≤ key b' := hmax hb' b (h.subset hmem)
      have hge : key b' ≤ key b := hmax hb b' hmem'
      rw [hinj b hmem b' hmem' (le_antisymm hle hge)]

end

end Infra
