import Mathlib.Algebra.BigOperators.Intervals
import Mathlib.Algebra.Order.BigOperators.Group.Finset
import Mathlib.Data.List.Sort
import Mathlib.Order.OrderIsoNat
import Mathlib.Tactic.Ring
import Mathlib.Tactic.Linarith

/-!
# Balancing by single moves

Items that are placed on bins, several to an item (`loadOf`), and what a rebalancing loop can use as
its measures:

* a sequence in a well-founded order that never grows is constant in the end (`eventually_const`),
  and a walk over the items that makes a measure smaller with every change makes it smaller as a
  whole (`upTo_measure`)
* of two selections of one size, the one whose own elements come first has the smaller rank sum
  (`sum_lt_of_exchange`, `rankIn_lt`), and what a stable sort puts first are the elements of small
  rank (`mem_take_iff_rankIn`, `pairwise_insertionSort_orderBy`)
* moving one unit changes the sum of the squares by twice the difference of the loads (`energy_move`)
* putting every item on bins that carry least keeps the loads even (`evenLoads_upTo`)
-/

namespace Infra

universe u v

/-! ## Sequences that never grow -/

theorem eventually_const {μ : Type u} [PartialOrder μ] [WellFoundedLT μ] {f : ℕ → μ} {N : ℕ}
    (h : ∀ k, N ≤ k → f (k + 1) ≤ f k) : ∃ M, N ≤ M ∧ ∀ k, M ≤ k → f (k + 1) = f k := by
  have hanti : Antitone (fun k => f (N + k)) :=
    antitone_nat_of_succ_le (fun k => h (N + k) (Nat.le_add_right N k))
  obtain ⟨M, hM⟩ := wellFoundedGT_iff_monotone_chain_condition.mp inferInstance
    ⟨fun k => OrderDual.toDual (f (N + k)), fun _ _ hab => hanti hab⟩
  have hconst : ∀ k, N + M ≤ k → f k = f (N + M) := by
    intro k hk
    obtain ⟨j, rfl⟩ := Nat.exists_eq_add_of_le (Nat.le_trans (Nat.le_add_right N M) hk)
    exact (hM j (Nat.le_of_add_le_add_left hk)).symm
  exact ⟨N + M, Nat.le_add_right N M, fun k hk => by rw [hconst k hk, hconst (k + 1) (by omega)]⟩

/-- A sequence whose steps change nothing from `N` on stays at its value there. -/
theorem const_of_steps {σ : Type u} {x : ℕ → σ} {N : ℕ} (h : ∀ k, N ≤ k → x (k + 1) = x k) (k : ℕ)
    (hk : N ≤ k) : x k = x N := by
  induction k, hk using Nat.le_induction with
  | base => rfl
  | succ k hk ih => rw [h k hk, ih]

/-! ## Walks that rewrite one item after the other -/

section

variable {β : Type u} {old new : ℕ → β} {n : ℕ}

/-- The items below `n` rewritten, the others as they were. -/
def upTo (old new : ℕ → β) (n : ℕ) : ℕ → β := fun i => if i < n then new i else old i

theorem upTo_zero : upTo old new 0 = old := by
  funext i
  simp [upTo]

theorem upTo_self : upTo old new n n = old n := if_neg (lt_irrefl n)

theorem upTo_succ_self : upTo old new (n + 1) n = new n := if_pos (Nat.lt_succ_self n)

theorem upTo_succ_of_ne {i : ℕ} (h : i ≠ n) : upTo old new (n + 1) i = upTo old new n i := by
  have hiff : i < n + 1 ↔ i < n := by
    rw [Nat.lt_succ_iff_lt_or_eq]
    exact or_iff_left h
  simp only [upTo, hiff]

theorem upTo_succ_of_eq (h : new n = old n) : upTo old new (n + 1) = upTo old new n := by
  funext i
  by_cases hi : i = n
  · rw [hi, upTo_succ_self, upTo_self, h]
  · exact upTo_succ_of_ne hi

/-- A walk that meets all the items that change ends with the new ones. -/
theorem upTo_eq_new (h : ∀ i, n ≤ i → new i = old i) : upTo old new n = new := by
  funext i
  rw [upTo]
  split
  · rfl
  · next hi => exact (h i (Nat.le_of_not_lt hi)).symm

/-- **A measure that every change makes smaller** is no larger after the walk, and the same only if
nothing has changed. -/
theorem upTo_measure {μ : Type v} [Preorder μ] (Φ : (ℕ → β) → μ) {N : ℕ}
    (hstep : ∀ n < N, new n = old n ∨ Φ (upTo old new (n + 1)) < Φ (upTo old new n)) :
    Φ (upTo old new N) ≤ Φ old ∧ (Φ (upTo old new N) = Φ old → ∀ n < N, new n = old n) := by
  induction N with
  | zero =>
    rw [upTo_zero]
    exact ⟨le_refl _, fun _ n hn => absurd hn (Nat.not_lt_zero n)⟩
  | succ N ih =>
    obtain ⟨hle, hall⟩ := ih (fun n hn => hstep n (Nat.lt_succ_of_lt hn))
    rcases hstep N (Nat.lt_succ_self N) with hsame | hlt
    · rw [upTo_succ_of_eq hsame]
      refine ⟨hle, fun heq n hn => ?_⟩
      rcases Nat.lt_succ_iff_lt_or_eq.mp hn with hn | rfl
      · exact hall heq n hn
      · exact hsame
    · exact ⟨hlt.le.trans hle, fun heq => absurd heq (hlt.trans_le hle).ne⟩

end

/-! ## Selections -/

section

variable {α : Type u}

theorem sum_lt_of_exchange [DecidableEq α] {A B : Finset α} (hcard : A.card = B.card) {r : α → ℕ}
    (h : ∀ x ∈ A \ B, ∀ y ∈ B \ A, r x < r y) (hne : A ≠ B) : ∑ x ∈ A, r x < ∑ x ∈ B, r x := by
  have hswap : (A \ B).card = (B \ A).card := Finset.card_sdiff_comm hcard
  have hA : (A \ B).Nonempty := by
    rw [Finset.sdiff_nonempty]
    exact fun hsub => hne (Finset.eq_of_subset_of_card_le hsub hcard.ge)
  have hB : (B \ A).Nonempty := Finset.card_pos.mp (hswap ▸ Finset.card_pos.mpr hA)
  -- the best of what only `B` has is beaten by all that only `A` has
  obtain ⟨y, hy, hmin⟩ := Finset.exists_min_image (B \ A) r hB
  have hless : ∑ x ∈ A \ B, r x < ∑ x ∈ B \ A, r x := by
    calc ∑ x ∈ A \ B, r x < ∑ _x ∈ A \ B, r y :=
          Finset.sum_lt_sum_of_nonempty hA (fun x hx => h x hx y hy)
      _ = ∑ _x ∈ B \ A, r y := by rw [Finset.sum_const, Finset.sum_const, hswap]
      _ ≤ ∑ x ∈ B \ A, r x := Finset.sum_le_sum hmin
  rw [← Finset.sum_inter_add_sum_sdiff A B r, ← Finset.sum_inter_add_sum_sdiff B A r,
    Finset.inter_comm B A]
  exact Nat.add_lt_add_left hless _

variable (before : α → α → Prop) [DecidableRel before]

/-- How many elements come before `x`. -/
def rankIn (S : Finset α) (x : α) : ℕ := (S.filter (fun y => before y x)).card

variable {before}

theorem rankIn_lt (htrans : ∀ {a b c}, before a b → before b c → before a c)
    (hirrefl : ∀ a, ¬ before a a) {S : Finset α} {x y : α} (hx : x ∈ S) (hxy : before x y) :
    rankIn before S x < rankIn before S y := by
  refine Finset.card_lt_card (Finset.ssubset_iff_subset_ne.mpr ⟨?_, ?_⟩)
  · intro z hz
    obtain ⟨hzS, hzx⟩ := Finset.mem_filter.mp hz
    exact Finset.mem_filter.mpr ⟨hzS, htrans hzx hxy⟩
  · intro heq
    have hmem : x ∈ S.filter (fun z => before z x) := heq ▸ Finset.mem_filter.mpr ⟨hx, hxy⟩
    exact hirrefl x (Finset.mem_filter.mp hmem).2

/-- In a list in order the rank of an element is its position. -/
theorem mem_take_iff_rankIn [DecidableEq α] (hasymm : ∀ {a b}, before a b → ¬ before b a)
    {l : List α} (hl : l.Pairwise before) {x : α} (hx : x ∈ l) (n : ℕ) :
    x ∈ l.take n ↔ rankIn before l.toFinset x < n := by
  induction l generalizing n with
  | nil => cases hx
  | cons a rest ih =>
    obtain ⟨ha, hrest⟩ := List.pairwise_cons.mp hl
    have hirrefl : ∀ b, ¬ before b b := fun b h => hasymm h h
    rcases List.mem_cons.mp hx with rfl | hx
    · have hzero : rankIn before (x :: rest).toFinset x = 0 := by
        rw [rankIn, Finset.card_eq_zero, Finset.filter_eq_empty_iff]
        intro y hy
        rcases List.mem_cons.mp (List.mem_toFinset.mp hy) with rfl | hy
        · exact hirrefl y
        · exact hasymm (ha y hy)
      rw [hzero]
      cases n <;> simp
    · have hsucc : rankIn before (a :: rest).toFinset x = rankIn before rest.toFinset x + 1 := by
        rw [rankIn, List.toFinset_cons, Finset.filter_insert, if_pos (ha x hx),
          Finset.card_insert_of_notMem, rankIn]
        intro hmem
        exact hirrefl a (ha a (List.mem_toFinset.mp (Finset.mem_filter.mp hmem).1))
      have hne : x ≠ a := fun h => hirrefl a (h ▸ ha x hx)
      rw [hsucc]
      cases n with
      | zero => simp
      | succ n => simp [hne, ih hrest hx]

end

/-! ## Stable sorting -/

section

variable {α : Type u} {before : α → α → Prop}

/-- The smaller value first, and `before` on a tie. -/
def orderBy (f : α → ℕ) (before : α → α → Prop) (x y : α) : Prop :=
  f x < f y ∨ (f x = f y ∧ before x y)

instance [DecidableRel before] (f : α → ℕ) : DecidableRel (orderBy f before) := fun _ _ =>
  instDecidableOr

theorem orderBy_asymm {f : α → ℕ} (hasymm : ∀ {a b}, before a b → ¬ before b a) {x y : α}
    (h : orderBy f before x y) : ¬ orderBy f before y x := by
  rintro (h' | ⟨heq, h'⟩)
  · rcases h with h | ⟨heq, -⟩ <;> omega
  · rcases h with h | ⟨-, h⟩
    · omega
    · exact hasymm h h'

/-- **Sorting is stable**: what ties keeps its order. -/
theorem pairwise_insertionSort_orderBy (f : α → ℕ) {l : List α} (h : l.Pairwise before) :
    (l.insertionSort fun a b => f a ≤ f b).Pairwise (orderBy f before) := by
  have hinsert : ∀ (a : α) (s : List α), s.Pairwise (orderBy f before) → (∀ b ∈ s, before a b) →
      (s.orderedInsert (fun a b => f a ≤ f b) a).Pairwise (orderBy f before) := by
    intro a s hs hbefore
    induction s with
    | nil => simp
    | cons b s ih =>
      obtain ⟨hb, hs'⟩ := List.pairwise_cons.mp hs
      rw [List.orderedInsert_cons]
      split
      · next hle =>
        refine List.pairwise_cons.mpr ⟨fun c hc => ?_, hs⟩
        have hbc : f b ≤ f c := by
          rcases List.mem_cons.mp hc with rfl | hc
          · exact le_refl _
          · rcases hb c hc with hlt | ⟨heq, -⟩ <;> omega
        rcases Nat.lt_or_eq_of_le (hle.trans hbc) with hlt | heq
        · exact .inl hlt
        · exact .inr ⟨heq, hbefore c hc⟩
      · next hlt =>
        refine List.pairwise_cons.mpr ⟨fun c hc => ?_, ih hs' (fun c hc => hbefore c (.tail _ hc))⟩
        rcases (List.mem_orderedInsert _).mp hc with rfl | hc
        · exact .inl (Nat.lt_of_not_le hlt)
        · exact hb c hc
  induction l with
  | nil => simp
  | cons a rest ih =>
    obtain ⟨ha, hrest⟩ := List.pairwise_cons.mp h
    rw [List.insertionSort_cons]
    exact hinsert a _ (ih hrest) (fun b hb => ha b ((List.mem_insertionSort _).mp hb))

end

/-! ## Loads -/

section

variable {α : Type u} [DecidableEq α] {ι : Type v}

/-- Changing one item trades its old share of a sum for its new one. -/
theorem sum_change {β : Type u} [DecidableEq ι] {K : Finset ι} (g : ι → β → ℕ) {x y : ι → β} {s : ι}
    (hs : s ∈ K) (hother : ∀ s' ∈ K, s' ≠ s → y s' = x s') :
    ∑ s' ∈ K, g s' (y s') + g s (x s) = ∑ s' ∈ K, g s' (x s') + g s (y s) := by
  have hrest : ∑ s' ∈ K.erase s, g s' (y s') = ∑ s' ∈ K.erase s, g s' (x s') := by
    refine Finset.sum_congr rfl (fun s' hs' => ?_)
    obtain ⟨hne, hK⟩ := Finset.mem_erase.mp hs'
    rw [hother s' hK hne]
  rw [← Finset.add_sum_erase K _ hs, ← Finset.add_sum_erase K _ hs, hrest]
  omega

/-- One item of a walk does that. -/
theorem sum_upTo_succ {β : Type u} {K : Finset ℕ} (g : ℕ → β → ℕ) {old new : ℕ → β} {n : ℕ}
    (hn : n ∈ K) :
    ∑ i ∈ K, g i (upTo old new (n + 1) i) + g n (old n)
      = ∑ i ∈ K, g i (upTo old new n i) + g n (new n) := by
  have h := sum_change g hn (fun i _ hne => @upTo_succ_of_ne _ old new n i hne)
  rwa [upTo_self, upTo_succ_self] at h

/-- How many units of the items in `K` a layout puts on `x`. -/
def loadOf (K : Finset ι) (layout : ι → List α) (x : α) : ℕ := ∑ s ∈ K, (layout s).count x

/-- One item of a walk trades its old units for its new ones. -/
theorem loadOf_upTo_succ {K : Finset ℕ} {old new : ℕ → List α} {n : ℕ} (hn : n ∈ K) (x : α) :
    loadOf K (upTo old new (n + 1)) x + (old n).count x
      = loadOf K (upTo old new n) x + (new n).count x :=
  sum_upTo_succ (fun _ (l : List α) => l.count x) hn

theorem count_le_loadOf {K : Finset ι} {layout : ι → List α} {s : ι} (hs : s ∈ K) (x : α) :
    (layout s).count x ≤ loadOf K layout x :=
  Finset.single_le_sum (f := fun i => (layout i).count x) (fun _ _ => Nat.zero_le _) hs

theorem loadOf_upTo_succ_eq {K : Finset ℕ} {old new : ℕ → List α} {n : ℕ} (hn : n ∈ K) (x : α) :
    loadOf K (upTo old new (n + 1)) x
      = loadOf K (upTo old new n) x - (old n).count x + (new n).count x := by
  have hchange := @loadOf_upTo_succ _ _ K old new n hn x
  have hown := @count_le_loadOf _ _ _ K (upTo old new n) n hn x
  rw [upTo_self] at hown
  omega

/-- Putting `c` in the place of `v` moves one unit. -/
theorem count_set_move {l : List α} {i : ℕ} {v : α} (hi : l[i]? = some v) (c x : α) :
    (l.set i c).count x + (if v = x then 1 else 0) = l.count x + (if c = x then 1 else 0) := by
  obtain ⟨hlt, rfl⟩ := List.getElem?_eq_some_iff.mp hi
  have hpos : l[i] = x → 0 < l.count x := by
    rintro rfl
    exact List.count_pos_iff.mpr (List.getElem_mem hlt)
  rw [List.count_set hlt]
  simp only [beq_iff_eq]
  split <;> split <;> simp_all

end

/-! ## Even loads -/

section

variable {α : Type u} {A : List α} {l l' : α → ℕ}

/-- No two loads are further apart than one. -/
def EvenLoads (A : List α) (l : α → ℕ) : Prop := ∀ x ∈ A, ∀ y ∈ A, l x ≤ l y + 1

/-- **One more on each of the least loaded bins** keeps the loads even. -/
theorem EvenLoads.raise (h : EvenLoads A l) {T : α → Prop} [DecidablePred T]
    (hleast : ∀ x ∈ A, ∀ y ∈ A, T x → ¬ T y → l x ≤ l y)
    (hraise : ∀ x ∈ A, l' x = l x + if T x then 1 else 0) : EvenLoads A l' := by
  intro x hx y hy
  rw [hraise x hx, hraise y hy]
  have hnear := h x hx y hy
  have hxy := hleast x hx y hy
  by_cases hTx : T x <;> by_cases hTy : T y <;> simp only [hTx, hTy, if_true, if_false]
  · omega
  · -- only the smaller one of the two grows
    have hle : l x ≤ l y := hxy hTx hTy
    omega
  · omega
  · omega

/-- **A walk that puts every item on least loaded bins**, none twice on one, ends with even
loads. -/
theorem evenLoads_upTo [DecidableEq α] {K : Finset ℕ} {old new : ℕ → List α} {N : ℕ}
    (hK : ∀ n < N, n ∈ K) (hstart : EvenLoads A (loadOf K old)) (hold : ∀ n < N, old n = [])
    (hnew : ∀ n < N, (new n).Nodup)
    (hleast : ∀ n < N, ∀ x ∈ A, ∀ y ∈ A, x ∈ new n → y ∉ new n →
      loadOf K (upTo old new n) x ≤ loadOf K (upTo old new n) y) :
    EvenLoads A (loadOf K (upTo old new N)) := by
  induction N with
  | zero => rwa [upTo_zero]
  | succ N ih =>
    have hlt : N < N + 1 := Nat.lt_succ_self N
    have ih := ih (fun n hn => hK n (hn.trans hlt)) (fun n hn => hold n (hn.trans hlt))
      (fun n hn => hnew n (hn.trans hlt)) (fun n hn => hleast n (hn.trans hlt))
    refine ih.raise (T := (· ∈ new N)) (hleast N hlt) (fun x _ => ?_)
    have hchange : loadOf K (upTo old new (N + 1)) x
        = loadOf K (upTo old new N) x - (old N).count x + (new N).count x :=
      loadOf_upTo_succ_eq (hK N hlt) x
    rw [hold N hlt, List.count_nil, Nat.sub_zero, (hnew N hlt).count] at hchange
    exact hchange

end

/-! ## The sum of the squares -/

section

variable {α : Type u}

/-- The sum of the squares of the loads. -/
def energy (A : Finset α) (l : α → ℕ) : ℕ := ∑ x ∈ A, l x ^ 2

/-- **Moving one unit** from `v` to `c`. -/
theorem energy_move [DecidableEq α] {A : Finset α} {l l' : α → ℕ} {v c : α} (hv : v ∈ A)
    (hc : c ∈ A) (hne : v ≠ c) (hlv : l' v + 1 = l v) (hlc : l' c = l c + 1)
    (hsame : ∀ x ∈ A, x ≠ v → x ≠ c → l' x = l x) :
    energy A l' + 2 * l v = energy A l + 2 * l c + 2 := by
  have hc' : c ∈ A.erase v := Finset.mem_erase.mpr ⟨hne.symm, hc⟩
  have hrest : ∑ x ∈ (A.erase v).erase c, l' x ^ 2 = ∑ x ∈ (A.erase v).erase c, l x ^ 2 := by
    refine Finset.sum_congr rfl (fun x hx => ?_)
    obtain ⟨hxc, hx⟩ := Finset.mem_erase.mp hx
    obtain ⟨hxv, hxA⟩ := Finset.mem_erase.mp hx
    rw [hsame x hxA hxv hxc]
  rw [energy, energy, ← Finset.add_sum_erase A _ hv, ← Finset.add_sum_erase A _ hv,
    ← Finset.add_sum_erase (A.erase v) _ hc', ← Finset.add_sum_erase (A.erase v) _ hc', hrest,
    ← hlv, hlc]
  ring

end

end Infra
