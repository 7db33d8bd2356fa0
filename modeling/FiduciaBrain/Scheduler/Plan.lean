import FiduciaBrain.Model
import FiduciaBrain.Infra.Colours
import FiduciaBrain.Infra.Select
import Mathlib.Data.List.Sort
import Mathlib.Data.String.Basic
import Mathlib.Algebra.Order.Group.Int
import Mathlib.Order.Lex
import Mathlib.Data.Prod.Lex

/-!
# Placement math

`src/plan.rs`: the replica set one shard should have, from its current replicas and the candidates.
`planReplicas` keeps the replicas that are still candidates, fills up to `rf`, trims what is over,
and changes at most one replica of a full set to spread it or to even out the loads.
-/

namespace FiduciaBrain.Scheduler

open Infra

/-- A placement candidate: a healthy node, its failure domain, and how many replicas it holds. -/
structure NodeSlot where
  nodeId : NodeId
  domain : String
  load : Nat
  deriving DecidableEq, Repr

/-- The ids of the candidates. -/
def ids (healthy : List NodeSlot) : List NodeId := healthy.map (·.nodeId)

def slotOf (healthy : List NodeSlot) (id : NodeId) : Option NodeSlot :=
  healthy.find? (fun s => s.nodeId == id)

/-- The failure domain of a candidate, the empty string for anyone else. -/
def domainFor (healthy : List NodeSlot) (id : NodeId) : String :=
  ((slotOf healthy id).map (·.domain)).getD ""

def loadFor (healthy : List NodeSlot) (id : NodeId) : Nat :=
  ((slotOf healthy id).map (·.load)).getD 0

/-- The distinct domains of those of `ids` that are candidates. -/
def domainsOf (healthy : List NodeSlot) (ids : List NodeId) : Finset String :=
  ((ids.filterMap (slotOf healthy)).map (·.domain)).toFinset

def domainCount (ids : List NodeId) (healthy : List NodeSlot) : Nat := (domainsOf healthy ids).card

/-! ## Filling up -/

/-- What the fill loop carries. -/
structure Fill where
  chosen : List NodeId
  usedDomains : List String
  remaining : List NodeSlot

/-- A fresh domain first, then the least-loaded node, then the lowest node id. -/
def fillOrder (usedDomains : List String) (a b : NodeSlot) : Ordering :=
  let aFresh := !usedDomains.contains a.domain
  let bFresh := !usedDomains.contains b.domain
  (compare bFresh aFresh).then ((compare a.load b.load).then (compare a.nodeId b.nodeId))

/-- The fill loop. Every round adds one replica, so the rounds left are the replicas missing. -/
def fill : Nat → Fill → Fill
  | 0, st => st
  | missing + 1, st =>
    match minBy (fillOrder st.usedDomains) st.remaining with
    | none => st
    | some slot =>
      fill missing
        { chosen := st.chosen ++ [slot.nodeId]
          usedDomains := slot.domain :: st.usedDomains
          remaining := st.remaining.erase slot }

/-! ## Trimming -/

/-- Drop the most-loaded extras. -/
def trimToRf (healthy : List NodeSlot) (rf : Nat) (chosen : List NodeId) : List NodeId :=
  if rf < chosen.length then
    (chosen.insertionSort (fun a b => loadFor healthy a ≤ loadFor healthy b)).take rf
  else chosen

/-! ## Moving one replica -/

/-- A candidate in the place of a replica, with what the move gains. -/
structure Swap where
  victimIndex : Nat
  candidateId : NodeId
  domainGain : Int
  loadDelta : Int
  victimLoad : Nat
  candidateLoad : Nat
  victimId : NodeId

def Swap.isBetter (x best : Swap) : Bool :=
  decide (best.domainGain < x.domainGain ∨
    (x.domainGain = best.domainGain ∧ best.loadDelta < x.loadDelta) ∨
    (x.domainGain = best.domainGain ∧ x.loadDelta = best.loadDelta ∧
      best.victimLoad < x.victimLoad) ∨
    (x.domainGain = best.domainGain ∧ x.loadDelta = best.loadDelta ∧
      x.victimLoad = best.victimLoad ∧ x.candidateLoad < best.candidateLoad) ∨
    (x.domainGain = best.domainGain ∧ x.loadDelta = best.loadDelta ∧
      x.victimLoad = best.victimLoad ∧ x.candidateLoad = best.candidateLoad ∧
      x.candidateId < best.candidateId) ∨
    (x.domainGain = best.domainGain ∧ x.loadDelta = best.loadDelta ∧
      x.victimLoad = best.victimLoad ∧ x.candidateLoad = best.candidateLoad ∧
      x.candidateId = best.candidateId ∧ x.victimId < best.victimId))

/-- A move is worth making when it widens the spread, or evens out the loads at the same spread. -/
def Swap.worthwhile (s : Swap) : Bool :=
  !decide (s.domainGain < 0 ∨ (s.domainGain = 0 ∧ s.loadDelta ≤ 0))

def trialSwap (healthy : List NodeSlot) (chosen : List NodeId) (candidate : NodeSlot)
    (victimId : NodeId) (victimIndex : Nat) : Swap where
  victimIndex := victimIndex
  candidateId := candidate.nodeId
  domainGain := (domainCount (chosen.set victimIndex candidate.nodeId) healthy : Int)
    - domainCount chosen healthy
  loadDelta := (loadFor healthy victimId : Int) - candidate.load
  victimLoad := loadFor healthy victimId
  candidateLoad := candidate.load
  victimId := victimId

/-- The moves worth making, in the order the source meets them. -/
def swaps (healthy : List NodeSlot) (chosen : List NodeId) (remaining : List NodeSlot) : List Swap :=
  remaining.flatMap fun candidate =>
    (chosen.zipIdx.map fun (victimId, victimIndex) =>
      trialSwap healthy chosen candidate victimId victimIndex).filter Swap.worthwhile

/-- At most one replica of a full set changes. -/
def rebalance (healthy : List NodeSlot) (rf : Nat) (chosen : List NodeId)
    (remaining : List NodeSlot) : List NodeId :=
  if chosen.length = rf ∧ remaining ≠ [] then
    match selectBest Swap.isBetter (swaps healthy chosen remaining) with
    | some best => chosen.set best.victimIndex best.candidateId
    | none => chosen
  else chosen

/-! ## The plan -/

/-- The current replicas that are still candidates. -/
def kept (current : List NodeId) (healthy : List NodeSlot) : List NodeId :=
  current.filter (fun id => (ids healthy).contains id)

/-- The candidates that are not current replicas. -/
def spare (current : List NodeId) (healthy : List NodeSlot) : List NodeSlot :=
  healthy.filter (fun s => !(kept current healthy).contains s.nodeId)

/-- The desired replica set for one shard. -/
def planReplicas (current : List NodeId) (healthy : List NodeSlot) (rf : Nat) : List NodeId :=
  let filled := fill (rf - (kept current healthy).length)
    { chosen := kept current healthy
      usedDomains := ((kept current healthy).filterMap (slotOf healthy)).map (·.domain)
      remaining := spare current healthy }
  rebalance healthy rf (trimToRf healthy rf filled.chosen) filled.remaining

/-! ## Looking a candidate up -/

theorem slotOf_eq_some {healthy : List NodeSlot} {id : NodeId} {s : NodeSlot}
    (h : slotOf healthy id = some s) : s ∈ healthy ∧ s.nodeId = id :=
  ⟨List.mem_of_find?_eq_some h, by simpa using List.find?_some h⟩

theorem slotOf_of_mem {healthy : List NodeSlot} (hid : (ids healthy).Nodup) {s : NodeSlot}
    (h : s ∈ healthy) : slotOf healthy s.nodeId = some s := by
  cases hs : slotOf healthy s.nodeId with
  | none => simpa using List.find?_eq_none.mp hs s h
  | some t =>
    obtain ⟨ht, heq⟩ := slotOf_eq_some hs
    rw [List.inj_on_of_nodup_map hid ht h heq]

theorem domainFor_of_mem {healthy : List NodeSlot} (hid : (ids healthy).Nodup) {s : NodeSlot}
    (h : s ∈ healthy) : domainFor healthy s.nodeId = s.domain := by
  simp [domainFor, slotOf_of_mem hid h]

theorem loadFor_of_mem {healthy : List NodeSlot} (hid : (ids healthy).Nodup) {s : NodeSlot}
    (h : s ∈ healthy) : loadFor healthy s.nodeId = s.load := by
  simp [loadFor, slotOf_of_mem hid h]

/-- Of candidates only, the domains are what `domainFor` says. -/
theorem domainsOf_eq {healthy : List NodeSlot} {l : List NodeId}
    (hl : ∀ id ∈ l, id ∈ ids healthy) :
    domainsOf healthy l = colours (domainFor healthy) l := by
  ext d
  simp only [domainsOf, List.mem_toFinset, List.mem_map, List.mem_filterMap, mem_colours]
  constructor
  · rintro ⟨s, ⟨id, hmem, hs⟩, rfl⟩
    exact ⟨id, hmem, by simp [domainFor, hs]⟩
  · rintro ⟨id, hmem, rfl⟩
    obtain ⟨t, ht, rfl⟩ := List.mem_map.mp (hl id hmem)
    cases hs : slotOf healthy t.nodeId with
    | none => simpa using List.find?_eq_none.mp hs t ht
    | some s => exact ⟨s, ⟨t.nodeId, hmem, hs⟩, by simp [domainFor, hs]⟩

theorem mem_kept {current : List NodeId} {healthy : List NodeSlot} {id : NodeId} :
    id ∈ kept current healthy ↔ id ∈ current ∧ id ∈ ids healthy := by
  simp [kept]

theorem mem_spare {current : List NodeId} {healthy : List NodeSlot} {s : NodeSlot} :
    s ∈ spare current healthy ↔ s ∈ healthy ∧ s.nodeId ∉ current := by
  simp only [spare, List.mem_filter, Bool.not_eq_true', List.contains_eq_mem, decide_eq_false_iff_not,
    mem_kept]
  constructor
  · rintro ⟨hs, hnot⟩
    exact ⟨hs, fun hc => hnot ⟨hc, List.mem_map_of_mem hs⟩⟩
  · rintro ⟨hs, hnot⟩
    exact ⟨hs, fun hc => hnot hc.1⟩

/-! ## What the fill loop does -/

/-- The domains of some slots. -/
def slotDomains (slots : List NodeSlot) : Finset String := (slots.map (·.domain)).toFinset

/-- The loop appends distinct slots of `remaining`, as many as are asked for and there are. -/
theorem fill_picks (n : Nat) (st : Fill) :
    ∃ picks, (fill n st).chosen = st.chosen ++ ids picks ∧
      (picks ++ (fill n st).remaining).Perm st.remaining ∧
      (fill n st).usedDomains.toFinset = st.usedDomains.toFinset ∪ slotDomains picks ∧
      picks.length = min n st.remaining.length := by
  induction n generalizing st with
  | zero => exact ⟨[], by simp [fill, ids], by simp [fill], by simp [fill, slotDomains], by simp⟩
  | succ n ih =>
    unfold fill
    split
    · next hnone =>
      have hempty : st.remaining = [] := minBy_eq_none.mp hnone
      exact ⟨[], by simp [ids], by simp, by simp [slotDomains], by simp [hempty]⟩
    · next slot hslot =>
      have hmem : slot ∈ st.remaining := minBy_mem hslot
      obtain ⟨picks, hchosen, hperm, hused, hlen⟩ := ih
        { chosen := st.chosen ++ [slot.nodeId]
          usedDomains := slot.domain :: st.usedDomains
          remaining := st.remaining.erase slot }
      refine ⟨slot :: picks, ?_, ?_, ?_, ?_⟩
      · simpa [ids] using hchosen
      · exact (hperm.cons slot).trans (List.perm_cons_erase hmem).symm
      · rw [hused]
        simp [slotDomains, Finset.insert_union, Finset.union_insert]
      · have hpos : 0 < st.remaining.length := List.length_pos_of_mem hmem
        rw [List.length_cons, hlen, List.length_erase_of_mem hmem]
        omega

/-- The fill order as a key. The slot with the largest one is picked. -/
def fillKey (usedDomains : List String) (s : NodeSlot) : Bool ×ₗ ℕᵒᵈ ×ₗ NodeIdᵒᵈ :=
  toLex (!usedDomains.contains s.domain,
    toLex (OrderDual.toDual s.load, OrderDual.toDual s.nodeId))

theorem fillOrder_gt_iff (used : List String) (x y : NodeSlot) :
    (fillOrder used y x == .gt) = true ↔ fillKey used y < fillKey used x := by
  simp only [fillOrder, fillKey, beq_iff_eq, Ordering.then_eq_gt, compare_gt_iff_gt,
    compare_eq_iff_eq, Prod.Lex.toLex_lt_toLex, OrderDual.toDual_lt_toDual,
    EmbeddingLike.apply_eq_iff_eq]
  exact or_congr Iff.rfl (and_congr eq_comm (or_congr Iff.rfl (and_congr Iff.rfl Iff.rfl)))

theorem fillKey_le_of_minBy {used : List String} {slots : List NodeSlot} {slot s : NodeSlot}
    (h : minBy (fillOrder used) slots = some slot) (hs : s ∈ slots) :
    fillKey used s ≤ fillKey used slot :=
  selectBest_max (fun x y hxy => ((fillOrder_gt_iff used x y).mp hxy).le)
    (fun x y hxy => (fillOrder_gt_iff used x y).mpr hxy) h s hs

/-- The pick is in a fresh domain whenever some slot is. -/
theorem minBy_fillOrder_fresh {used : List String} {slots : List NodeSlot} {slot s : NodeSlot}
    (h : minBy (fillOrder used) slots = some slot) (hs : s ∈ slots) (hfresh : s.domain ∉ used) :
    slot.domain ∉ used := by
  have hmax := Prod.Lex.monotone_fst _ _ (fillKey_le_of_minBy h hs)
  intro hused
  simp only [fillKey, ofLex_toLex, hfresh, hused, List.contains_eq_mem, decide_false, decide_true,
    Bool.not_false, Bool.not_true] at hmax
  exact absurd hmax (by decide)

theorem slotDomains_eq_insert_erase {slots : List NodeSlot} {slot : NodeSlot} (h : slot ∈ slots) :
    slotDomains slots = insert slot.domain (slotDomains (slots.erase slot)) := by
  have hperm := (List.perm_cons_erase h).map (·.domain)
  simpa [slotDomains] using List.toFinset_eq_of_perm _ _ hperm

/-- As long as a fresh domain is left every pick takes one. -/
theorem fill_domainCount (n : Nat) (st : Fill) :
    (fill n st).usedDomains.toFinset.card
      = min (st.usedDomains.toFinset.card + min n st.remaining.length)
          (st.usedDomains.toFinset ∪ slotDomains st.remaining).card := by
  induction n generalizing st with
  | zero =>
    have hle := Finset.card_le_card
      (@Finset.subset_union_left _ _ st.usedDomains.toFinset (slotDomains st.remaining))
    simpa [fill] using hle
  | succ n ih =>
    unfold fill
    split
    · next hnone =>
      have hempty : st.remaining = [] := minBy_eq_none.mp hnone
      simp [hempty, slotDomains]
    · next slot hslot =>
      have hmem : slot ∈ st.remaining := minBy_mem hslot
      have hpos : 0 < st.remaining.length := List.length_pos_of_mem hmem
      rw [ih]
      simp only [List.toFinset_cons, List.length_erase_of_mem hmem, Finset.insert_union]
      rw [← Finset.union_insert, ← slotDomains_eq_insert_erase hmem]
      by_cases hused : slot.domain ∈ st.usedDomains
      · -- no slot is in a fresh domain any more, and none was before the pick
        have hsub : slotDomains st.remaining ⊆ st.usedDomains.toFinset := by
          intro d hd
          obtain ⟨s, hs, rfl⟩ := List.mem_map.mp (List.mem_toFinset.mp hd)
          by_contra hfresh
          exact minBy_fillOrder_fresh hslot hs (by simpa using hfresh) hused
        rw [Finset.insert_eq_of_mem (List.mem_toFinset.mpr hused),
          Finset.union_eq_left.mpr hsub]
        omega
      · rw [Finset.card_insert_of_notMem (by simpa using hused)]
        omega

/-! ## What trimming does -/

theorem trimToRf_subperm (healthy : List NodeSlot) (rf : Nat) (chosen : List NodeId) :
    (trimToRf healthy rf chosen).Subperm chosen := by
  unfold trimToRf
  split
  · exact (List.take_sublist _ _).subperm.trans (List.perm_insertionSort _ _).subperm
  · exact List.Subperm.refl chosen

theorem nodup_trimToRf (healthy : List NodeSlot) (rf : Nat) {chosen : List NodeId}
    (h : chosen.Nodup) : (trimToRf healthy rf chosen).Nodup := by
  obtain ⟨l, hperm, hsub⟩ := trimToRf_subperm healthy rf chosen
  exact hperm.nodup_iff.mp (h.sublist hsub)

@[simp] theorem length_trimToRf (healthy : List NodeSlot) (rf : Nat) (chosen : List NodeId) :
    (trimToRf healthy rf chosen).length = min rf chosen.length := by
  unfold trimToRf
  split
  · rw [List.length_take, List.length_insertionSort]
  · omega

theorem trimToRf_of_le {healthy : List NodeSlot} {rf : Nat} {chosen : List NodeId}
    (h : chosen.length ≤ rf) : trimToRf healthy rf chosen = chosen :=
  if_neg (Nat.not_lt.mpr h)

/-! ## What rebalancing does -/

theorem Swap.worthwhile_iff (s : Swap) :
    s.worthwhile = true ↔ 0 < s.domainGain ∨ (s.domainGain = 0 ∧ 0 < s.loadDelta) := by
  rw [worthwhile, Bool.not_eq_true', decide_eq_false_iff_not]
  omega

theorem mem_swaps {healthy : List NodeSlot} {chosen : List NodeId} {remaining : List NodeSlot}
    {s : Swap} :
    s ∈ swaps healthy chosen remaining ↔
      ∃ candidate ∈ remaining, ∃ (i : Nat) (victim : NodeId), chosen[i]? = some victim ∧
        s = trialSwap healthy chosen candidate victim i ∧ s.worthwhile = true := by
  simp only [swaps, List.mem_flatMap, List.mem_filter, List.mem_map, Prod.exists,
    List.mem_zipIdx_iff_getElem?]
  constructor
  · rintro ⟨candidate, hc, ⟨victim, i, hi, rfl⟩, hw⟩
    exact ⟨candidate, hc, i, victim, hi, rfl, hw⟩
  · rintro ⟨candidate, hc, i, victim, hi, rfl, hw⟩
    exact ⟨candidate, hc, ⟨victim, i, hi, rfl⟩, hw⟩

/-- The moves are compared by the spread first and the loads next. -/
def Swap.key (s : Swap) : Int ×ₗ Int := toLex (s.domainGain, s.loadDelta)

theorem selectBest_swap_max {l : List Swap} {best : Swap}
    (h : selectBest Swap.isBetter l = some best) : ∀ s ∈ l, s.key ≤ best.key := by
  refine selectBest_max (fun x y hxy => ?_) (fun x y hxy => ?_) h
  · simp only [Swap.isBetter, decide_eq_true_eq] at hxy
    rw [Swap.key, Swap.key, Prod.Lex.toLex_le_toLex]
    omega
  · rw [Swap.key, Swap.key, Prod.Lex.toLex_lt_toLex] at hxy
    simp only [Swap.isBetter, decide_eq_true_eq]
    rcases hxy with hgain | ⟨hgain, hdelta⟩
    · exact .inl hgain
    · exact .inr (.inl ⟨hgain.symm, hdelta⟩)

/-- A full set with candidates left is changed exactly when some move is worth making, and then by
one of the best moves. -/
theorem rebalance_cases (healthy : List NodeSlot) (rf : Nat) (chosen : List NodeId)
    (remaining : List NodeSlot) :
    (rebalance healthy rf chosen remaining = chosen ∧
      (chosen.length = rf → swaps healthy chosen remaining = [])) ∨
    (chosen.length = rf ∧ ∃ best ∈ swaps healthy chosen remaining,
      (∀ s ∈ swaps healthy chosen remaining, s.key ≤ best.key) ∧
      rebalance healthy rf chosen remaining = chosen.set best.victimIndex best.candidateId) := by
  unfold rebalance
  split
  · next hfull =>
    split
    · next best hbest =>
      exact .inr ⟨hfull.1, best, selectBest_mem hbest, selectBest_swap_max hbest, rfl⟩
    · next hnone => exact .inl ⟨rfl, fun _ => selectBest_eq_none.mp hnone⟩
  · next hnot =>
    refine .inl ⟨rfl, fun hlen => ?_⟩
    have hempty : remaining = [] := by
      by_contra hne
      exact hnot ⟨hlen, hne⟩
    simp [swaps, hempty]

/-! ## What a plan is -/

/-- **A plan is a fill, a trim and at most one move.** -/
theorem planReplicas_eq (current : List NodeId) (healthy : List NodeSlot) (rf : Nat) :
    ∃ picks remaining,
      planReplicas current healthy rf
        = rebalance healthy rf (trimToRf healthy rf (kept current healthy ++ ids picks)) remaining ∧
      (picks ++ remaining).Perm (spare current healthy) ∧
      picks.length = min (rf - (kept current healthy).length) (spare current healthy).length ∧
      (domainsOf healthy (kept current healthy) ∪ slotDomains picks).card
        = min ((domainsOf healthy (kept current healthy)).card + picks.length)
            (domainsOf healthy (kept current healthy) ∪ slotDomains (spare current healthy)).card := by
  set st : Fill :=
    { chosen := kept current healthy
      usedDomains := ((kept current healthy).filterMap (slotOf healthy)).map (·.domain)
      remaining := spare current healthy } with hst
  obtain ⟨picks, hchosen, hperm, hused, hlen⟩ := fill_picks (rf - (kept current healthy).length) st
  refine ⟨picks, (fill (rf - (kept current healthy).length) st).remaining, ?_, hperm, hlen, ?_⟩
  · rw [planReplicas, ← hst, hchosen]
  · have hcard := fill_domainCount (rf - (kept current healthy).length) st
    rw [hused, ← hlen] at hcard
    exact hcard

variable {current : List NodeId} {healthy : List NodeSlot} {rf : Nat}

theorem ids_subset_of_spare {slots rest : List NodeSlot}
    (hperm : (slots ++ rest).Perm (spare current healthy)) {s : NodeSlot} (hs : s ∈ slots ++ rest) :
    s ∈ healthy ∧ s.nodeId ∉ current :=
  mem_spare.mp (hperm.subset hs)

theorem nodup_ids_spare (hid : (ids healthy).Nodup) {slots : List NodeSlot}
    (hperm : slots.Perm (spare current healthy)) : (ids slots).Nodup := by
  have hsub : (ids (spare current healthy)).Nodup := hid.sublist (List.filter_sublist.map _)
  exact (hperm.map NodeSlot.nodeId).nodup_iff.mpr hsub

/-- What a move puts in a replica's place is a remaining candidate. -/
theorem candidate_of_mem_swaps {chosen : List NodeId} {remaining : List NodeSlot} {s : Swap}
    (h : s ∈ swaps healthy chosen remaining) :
    ∃ c ∈ remaining, s.candidateId = c.nodeId ∧ s.victimIndex < chosen.length := by
  obtain ⟨c, hc, i, victim, hi, rfl, -⟩ := mem_swaps.mp h
  exact ⟨c, hc, rfl, (List.getElem?_eq_some_iff.mp hi).1⟩

/-- A candidate takes the place of a chosen node: all are candidates still. -/
theorem mem_ids_of_mem_set {chosen : List NodeId} (hchosen : ∀ id ∈ chosen, id ∈ ids healthy)
    {c : NodeSlot} (hc : c ∈ healthy) (i : Nat) :
    ∀ id ∈ chosen.set i c.nodeId, id ∈ ids healthy := by
  intro id hmem
  rcases List.mem_or_eq_of_mem_set hmem with h | rfl
  · exact hchosen id h
  · exact List.mem_map_of_mem hc

theorem mem_ids_of_mem_rebalance {chosen : List NodeId} {remaining : List NodeSlot}
    (hchosen : ∀ id ∈ chosen, id ∈ ids healthy) (hrem : ∀ s ∈ remaining, s ∈ healthy) :
    ∀ id ∈ rebalance healthy rf chosen remaining, id ∈ ids healthy := by
  rcases rebalance_cases healthy rf chosen remaining with ⟨heq, -⟩ | ⟨-, best, hbest, -, heq⟩
  · rw [heq]
    exact hchosen
  · obtain ⟨c, hc, hcid, -⟩ := candidate_of_mem_swaps hbest
    rw [heq, hcid]
    exact mem_ids_of_mem_set hchosen (hrem c hc) best.victimIndex

/-- **Only candidates are planned on.** -/
theorem mem_ids_of_mem_planReplicas {id : NodeId} (h : id ∈ planReplicas current healthy rf) :
    id ∈ ids healthy := by
  obtain ⟨picks, remaining, hplan, hperm, -, -⟩ := planReplicas_eq current healthy rf
  have hchosen : ∀ x ∈ trimToRf healthy rf (kept current healthy ++ ids picks),
      x ∈ ids healthy := by
    intro x hx
    rcases List.mem_append.mp ((trimToRf_subperm healthy rf _).subset hx) with hk | hp
    · exact (mem_kept.mp hk).2
    · obtain ⟨s, hs, rfl⟩ := List.mem_map.mp hp
      exact List.mem_map_of_mem (ids_subset_of_spare hperm (List.mem_append_left _ hs)).1
  have hrem : ∀ s ∈ remaining, s ∈ healthy := fun s hs =>
    (ids_subset_of_spare hperm (List.mem_append_right _ hs)).1
  rw [hplan] at h
  exact mem_ids_of_mem_rebalance hchosen hrem id h

/-- **A plan is as long as it can be**, up to `rf`. -/
theorem length_planReplicas (current : List NodeId) (healthy : List NodeSlot) (rf : Nat) :
    (planReplicas current healthy rf).length
      = min rf ((kept current healthy).length + (spare current healthy).length) := by
  obtain ⟨picks, remaining, hplan, -, hlen, -⟩ := planReplicas_eq current healthy rf
  have hchosen : (trimToRf healthy rf (kept current healthy ++ ids picks)).length
      = min rf ((kept current healthy).length + (spare current healthy).length) := by
    rw [length_trimToRf, List.length_append, ids, List.length_map, hlen]
    omega
  rw [hplan]
  rcases rebalance_cases healthy rf (trimToRf healthy rf (kept current healthy ++ ids picks))
    remaining with ⟨heq, -⟩ | ⟨-, best, -, -, heq⟩
  · rw [heq, hchosen]
  · rw [heq, List.length_set, hchosen]

/-- What the fill adds to the kept replicas is new. -/
theorem nodup_filled (hid : (ids healthy).Nodup) (hcurrent : current.Nodup)
    {picks remaining : List NodeSlot} (hperm : (picks ++ remaining).Perm (spare current healthy)) :
    (kept current healthy ++ ids picks).Nodup := by
  have hspare : (ids (picks ++ remaining)).Nodup := nodup_ids_spare hid hperm
  rw [ids, List.map_append] at hspare
  refine List.nodup_append.mpr ⟨hcurrent.filter _, hspare.of_append_left, ?_⟩
  rintro x hx y hy rfl
  obtain ⟨s, hs, rfl⟩ := List.mem_map.mp hy
  exact (ids_subset_of_spare hperm (List.mem_append_left _ hs)).2 (mem_kept.mp hx).1

/-- **A plan names no node twice**, when the replicas it starts from do not. -/
theorem nodup_planReplicas (hid : (ids healthy).Nodup) (hcurrent : current.Nodup) :
    (planReplicas current healthy rf).Nodup := by
  obtain ⟨picks, remaining, hplan, hperm, -, -⟩ := planReplicas_eq current healthy rf
  have hspare : (ids (picks ++ remaining)).Nodup := nodup_ids_spare hid hperm
  rw [ids, List.map_append, List.nodup_append] at hspare
  obtain ⟨-, -, hapart⟩ := hspare
  have hfilled : (kept current healthy ++ ids picks).Nodup := nodup_filled hid hcurrent hperm
  have hchosen : (trimToRf healthy rf (kept current healthy ++ ids picks)).Nodup :=
    nodup_trimToRf healthy rf hfilled
  rw [hplan]
  rcases rebalance_cases healthy rf (trimToRf healthy rf (kept current healthy ++ ids picks))
    remaining with ⟨heq, -⟩ | ⟨-, best, hbest, -, heq⟩
  · rwa [heq]
  · rw [heq]
    refine hchosen.set ?_
    obtain ⟨c, hc, hcid, -⟩ := candidate_of_mem_swaps hbest
    rw [hcid]
    intro hmem
    rcases List.mem_append.mp ((trimToRf_subperm healthy rf _).subset hmem) with hk | hp
    · exact (ids_subset_of_spare hperm (List.mem_append_right _ hc)).2 (mem_kept.mp hk).1
    · exact hapart _ hp _ (List.mem_map_of_mem hc) rfl

/-- A plan that falls short has every candidate. -/
theorem mem_planReplicas_of_short (hshort : (planReplicas current healthy rf).length < rf)
    {id : NodeId} (h : id ∈ ids healthy) : id ∈ planReplicas current healthy rf := by
  obtain ⟨picks, remaining, hplan, hperm, hlen, -⟩ := planReplicas_eq current healthy rf
  have htotal := length_planReplicas current healthy rf
  have hperm_len := hperm.length_eq
  rw [List.length_append] at hperm_len
  -- every candidate was picked, so there is nothing to trim or to move
  have hrest : remaining = [] := List.eq_nil_of_length_eq_zero (by omega)
  have hfilled : (kept current healthy ++ ids picks).length < rf := by
    rw [List.length_append, ids, List.length_map]
    omega
  rw [hplan, trimToRf_of_le hfilled.le, rebalance, if_neg (fun hfull => hfull.2 hrest)]
  rw [hrest, List.append_nil] at hperm
  by_cases hcur : id ∈ current
  · exact List.mem_append_left _ (mem_kept.mpr ⟨hcur, h⟩)
  · obtain ⟨s, hs, rfl⟩ := List.mem_map.mp h
    exact List.mem_append_right _
      (List.mem_map_of_mem (hperm.symm.subset (mem_spare.mpr ⟨hs, hcur⟩)))

/-! ## A set that only moves -/

theorem kept_eq_self (h : ∀ id ∈ current, id ∈ ids healthy) : kept current healthy = current :=
  List.filter_eq_self.mpr (fun id hid => by simpa using h id hid)

/-- A set of candidates that is full, or that has every candidate, is neither filled nor trimmed. -/
theorem planReplicas_settled (h : ∀ id ∈ current, id ∈ ids healthy)
    (hlen : current.length = rf ∨ (current.length ≤ rf ∧ spare current healthy = [])) :
    planReplicas current healthy rf = rebalance healthy rf current (spare current healthy) := by
  have hle : current.length ≤ rf := by omega
  have hfill : ∀ used, fill (rf - current.length)
      { chosen := current, usedDomains := used, remaining := spare current healthy }
      = { chosen := current, usedDomains := used, remaining := spare current healthy } := by
    intro used
    rcases hlen with hfull | ⟨-, hnone⟩
    · rw [hfull, Nat.sub_self]
      rfl
    · rw [hnone]
      cases rf - current.length <;> rfl
  rw [planReplicas, kept_eq_self h, hfill, trimToRf_of_le hle]

end FiduciaBrain.Scheduler
