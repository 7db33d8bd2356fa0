import Mathlib.Data.Finset.Card
import Mathlib.Data.Finset.Image
import Mathlib.Data.Finset.Dedup
import Mathlib.Data.List.Dedup
import Mathlib.Data.List.Nodup

/-!
# Colours of a list

Every element has a colour, and a list is judged by how many colours it shows. Replacing one element
adds at most one colour (`card_colours_set_le`). It loses none at an element that shares its colour
with another one, and as long as a list shows fewer colours than it has elements there is such an
element (`exists_set_keeps`).
-/

namespace Infra

universe u v

variable {α : Type u} {κ : Type v} [DecidableEq α] [DecidableEq κ] {f : α → κ} {l : List α}

/-- The colours a list shows. -/
def colours (f : α → κ) (l : List α) : Finset κ := l.toFinset.image f

theorem mem_colours {c : κ} : c ∈ colours f l ↔ ∃ x ∈ l, f x = c := by
  simp [colours]

theorem colours_eq_toFinset_map : colours f l = (l.map f).toFinset := by
  ext c
  simp [colours]

theorem colour_mem {x : α} (h : x ∈ l) : f x ∈ colours f l := mem_colours.mpr ⟨x, h, rfl⟩

theorem card_colours_le_length (f : α → κ) (l : List α) : (colours f l).card ≤ l.length :=
  Finset.card_image_le.trans l.toFinset_card_le

/-- A list shows as many colours as it has elements when no two share one. -/
theorem card_colours_eq_length_iff : (colours f l).card = l.length ↔ (l.map f).Nodup := by
  rw [colours_eq_toFinset_map]
  constructor
  · intro h
    rw [← List.length_map (f := f), List.card_toFinset] at h
    exact List.dedup_eq_self.mp ((List.dedup_sublist _).eq_of_length h)
  · intro h
    rw [List.toFinset_card_of_nodup h, List.length_map]

theorem colours_append (l l' : List α) : colours f (l ++ l') = colours f l ∪ colours f l' := by
  rw [colours, List.toFinset_append, Finset.image_union]
  rfl

theorem colours_congr {g : α → κ} (h : ∀ x ∈ l, f x = g x) : colours f l = colours g l :=
  Finset.image_congr (fun x hx => h x (by simpa using hx))

theorem colours_set_subset (i : Nat) (x : α) :
    colours f (l.set i x) ⊆ insert (f x) (colours f l) := by
  intro c hc
  obtain ⟨y, hy, rfl⟩ := mem_colours.mp hc
  rcases List.mem_or_eq_of_mem_set hy with hy | rfl
  · exact Finset.mem_insert_of_mem (colour_mem hy)
  · exact Finset.mem_insert_self _ _

theorem card_colours_set_le (i : Nat) (x : α) :
    (colours f (l.set i x)).card ≤ (colours f l).card + 1 :=
  (Finset.card_le_card (colours_set_subset i x)).trans (Finset.card_insert_le _ _)

/-- A colour another element carries too survives the replacement. -/
theorem colours_subset_set {i j : Nat} {y z : α} (hi : l[i]? = some y) (hj : l[j]? = some z)
    (hne : i ≠ j) (hsame : f y = f z) (x : α) : colours f l ⊆ colours f (l.set j x) := by
  intro c hc
  obtain ⟨w, hw, rfl⟩ := mem_colours.mp hc
  obtain ⟨k, hk⟩ := List.mem_iff_getElem?.mp hw
  by_cases hkj : k = j
  · subst hkj
    rw [hj] at hk
    cases hk
    have hmem : y ∈ l.set k x := List.mem_iff_getElem?.mpr ⟨i, by
      rw [List.getElem?_set_ne (Ne.symm hne), hi]⟩
    exact mem_colours.mpr ⟨y, hmem, hsame⟩
  · have hmem : w ∈ l.set j x := List.mem_iff_getElem?.mpr ⟨k, by
      rw [List.getElem?_set_ne (Ne.symm hkj), hk]⟩
    exact colour_mem hmem

/-- **A list with fewer colours than elements can give one up.** -/
theorem exists_set_keeps (h : (colours f l).card < l.length) :
    ∃ (j : Nat) (z : α), l[j]? = some z ∧ ∀ x, colours f l ⊆ colours f (l.set j x) := by
  have hdup : ¬ (l.map f).Nodup := fun hnodup => h.ne (card_colours_eq_length_iff.mpr hnodup)
  rw [List.nodup_iff_getElem?_ne_getElem?] at hdup
  push Not at hdup
  obtain ⟨i, j, hij, hj, heq⟩ := hdup
  rw [List.length_map] at hj
  have hi : i < l.length := hij.trans hj
  have hsame : f l[i] = f l[j] := by
    simpa [List.getElem?_map, List.getElem?_eq_getElem hi, List.getElem?_eq_getElem hj] using heq
  exact ⟨j, l[j], List.getElem?_eq_getElem hj, fun x => colours_subset_set
    (List.getElem?_eq_getElem hi) (List.getElem?_eq_getElem hj) (Nat.ne_of_lt hij) hsame x⟩

/-- At such an element a fresh colour is one more. -/
theorem card_colours_set_fresh {j : Nat} {x : α} (hj : j < l.length)
    (hkeeps : colours f l ⊆ colours f (l.set j x)) (hfresh : f x ∉ colours f l) :
    (colours f (l.set j x)).card = (colours f l).card + 1 := by
  have hx : f x ∈ colours f (l.set j x) := colour_mem (List.mem_set hj x)
  have hsub := Finset.insert_subset hx hkeeps
  have hle := Finset.card_le_card hsub
  rw [Finset.card_insert_of_notMem hfresh] at hle
  exact le_antisymm (card_colours_set_le j x) hle

end Infra
