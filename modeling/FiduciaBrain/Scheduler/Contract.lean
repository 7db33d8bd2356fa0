import FiduciaBrain.Scheduler.OneReplica

/-!
# The replica-set contract

What `planReplicas` owes its callers (`Contract`): candidates only, each named once, as many as can
be had, and of the current replicas all but those beyond `rf` and one more. Every choice on the way,
the picks of the fill and the move, is the largest of a key that tells the candidates apart, so the
order in which the candidates are listed does not matter (`planReplicas_perm`).
-/

namespace FiduciaBrain.Scheduler

open Infra

/-- `plan` is a replica set for `current` on the candidates. -/
structure Contract (current : List NodeId) (healthy : List NodeSlot) (rf : Nat)
    (plan : List NodeId) : Prop where
  nodup : plan.Nodup
  candidates : ∀ id ∈ plan, id ∈ ids healthy
  length : plan.length = min rf healthy.length
  /-- What is left of the healthy replicas without those beyond `rf` stays, but for at most one. -/
  keeps : ∃ within, within.Subperm (kept current healthy) ∧
    within.length = min rf (kept current healthy).length ∧ (dropped within plan).length ≤ 1

variable {current : List NodeId} {healthy healthy' : List NodeSlot} {rf : Nat}

/-! ## What is kept -/

/-- Each candidate is kept or spare. -/
theorem length_kept_add_spare (hcurrent : current.Nodup) (hid : (ids healthy).Nodup) :
    (kept current healthy).length + (spare current healthy).length = healthy.length := by
  have hsplit := List.length_eq_length_filter_add (l := healthy)
    fun s => (kept current healthy).contains s.nodeId
  have hsame : (kept current healthy).Perm
      (ids (healthy.filter fun s => (kept current healthy).contains s.nodeId)) := by
    refine (List.perm_ext_iff_of_nodup (hcurrent.filter _)
      (hid.sublist (List.filter_sublist.map _))).mpr (fun id => ?_)
    constructor
    · intro h
      obtain ⟨s, hs, rfl⟩ := List.mem_map.mp (mem_kept.mp h).2
      exact List.mem_map_of_mem (List.mem_filter.mpr ⟨hs, List.contains_iff_mem.mpr h⟩)
    · intro h
      obtain ⟨s, hs, rfl⟩ := List.mem_map.mp h
      exact List.contains_iff_mem.mp (List.mem_filter.mp hs).2
  rw [hsame.length_eq, ids, List.length_map, spare, ← hsplit]

/-- Of a set, the move of a rebalance takes out at most one. -/
theorem dropped_rebalance_le_one {chosen : List NodeId} {remaining : List NodeSlot}
    (h : chosen.Nodup) : (dropped chosen (rebalance healthy rf chosen remaining)).length ≤ 1 := by
  rcases rebalance_cases healthy rf chosen remaining with ⟨heq, -⟩ | ⟨-, best, -, -, heq⟩
  · rw [heq, dropped, List.filter_eq_nil_iff.mpr (fun id hid => by simp [hid])]
    simp
  · rw [heq]
    exact dropped_set_le_one h _ _

theorem dropped_sublist {l l' target : List NodeId} (h : l.Sublist l') :
    (dropped l target).Sublist (dropped l' target) := h.filter _

/-- What the trim leaves of the kept replicas loses at most one to the move. -/
theorem keeps_planReplicas (hcurrent : current.Nodup) (hid : (ids healthy).Nodup) :
    (dropped (trimToRf healthy rf (kept current healthy))
      (planReplicas current healthy rf)).length ≤ 1 := by
  obtain ⟨picks, remaining, hplan, hperm, hlen, -⟩ := planReplicas_eq current healthy rf
  have hfilled : (kept current healthy ++ ids picks).Nodup := nodup_filled hid hcurrent hperm
  have hone := @dropped_rebalance_le_one healthy rf _ remaining (nodup_trimToRf healthy rf hfilled)
  rw [hplan]
  refine le_trans (List.Sublist.length_le (dropped_sublist ?_)) hone
  by_cases hle : (kept current healthy).length ≤ rf
  · -- nothing is trimmed, and the picks are put behind
    have hfull : (kept current healthy ++ ids picks).length ≤ rf := by
      rw [List.length_append, ids, List.length_map, hlen]
      omega
    rw [trimToRf_of_le hle, trimToRf_of_le hfull]
    exact List.sublist_append_left _ _
  · -- nothing is picked
    have hnil : picks = [] := List.eq_nil_of_length_eq_zero (by omega)
    simp [hnil, ids]

theorem contract_planReplicas (hcurrent : current.Nodup) (hid : (ids healthy).Nodup) :
    Contract current healthy rf (planReplicas current healthy rf) where
  nodup := nodup_planReplicas hid hcurrent
  candidates := fun _ h => mem_ids_of_mem_planReplicas h
  length := by rw [length_planReplicas, length_kept_add_spare hcurrent hid]
  keeps := ⟨trimToRf healthy rf (kept current healthy), trimToRf_subperm _ _ _,
    length_trimToRf _ _ _, keeps_planReplicas hcurrent hid⟩

/-! ## The order of the candidates -/

section

variable (hid : (ids healthy).Nodup) (hperm : healthy.Perm healthy')
include hperm

theorem ids_perm : (ids healthy).Perm (ids healthy') := hperm.map _

include hid

theorem slotOf_perm : slotOf healthy = slotOf healthy' := by
  have hid' : (ids healthy').Nodup := (ids_perm hperm).nodup_iff.mp hid
  funext id
  cases hs : slotOf healthy id with
  | some s =>
    obtain ⟨hmem, rfl⟩ := slotOf_eq_some hs
    exact (slotOf_of_mem hid' (hperm.subset hmem)).symm
  | none =>
    cases hs' : slotOf healthy' id with
    | none => rfl
    | some s =>
      obtain ⟨hmem, rfl⟩ := slotOf_eq_some hs'
      rw [slotOf_of_mem hid (hperm.symm.subset hmem)] at hs
      cases hs

theorem loadFor_perm : loadFor healthy = loadFor healthy' := by
  funext id
  rw [loadFor, loadFor, slotOf_perm hid hperm]

theorem domainCount_perm (l : List NodeId) : domainCount l healthy = domainCount l healthy' := by
  rw [domainCount, domainCount, domainsOf, domainsOf, slotOf_perm hid hperm]

theorem trimToRf_perm (chosen : List NodeId) :
    trimToRf healthy rf chosen = trimToRf healthy' rf chosen := by
  simp only [trimToRf, loadFor_perm hid hperm]

theorem trialSwap_perm (chosen : List NodeId) (candidate : NodeSlot) (victim : NodeId) (i : Nat) :
    trialSwap healthy chosen candidate victim i = trialSwap healthy' chosen candidate victim i := by
  simp only [trialSwap, domainCount_perm hid hperm, loadFor_perm hid hperm]

end

theorem kept_perm (hperm : healthy.Perm healthy') : kept current healthy = kept current healthy' := by
  refine List.filter_congr (fun id _ => ?_)
  rw [List.contains_eq_mem, List.contains_eq_mem, decide_eq_decide]
  exact (ids_perm hperm).mem_iff

theorem spare_perm (hperm : healthy.Perm healthy') :
    (spare current healthy).Perm (spare current healthy') := by
  rw [spare, spare, kept_perm hperm]
  exact hperm.filter _

/-! ## The picks -/

theorem fillKey_inj {used : List String} {slots : List NodeSlot} (hid : (ids slots).Nodup) :
    ∀ x ∈ slots, ∀ y ∈ slots, fillKey used x = fillKey used y → x = y := by
  intro x hx y hy heq
  have hnode : x.nodeId = y.nodeId := congrArg (fun k => (ofLex (ofLex k).2).2) heq
  exact List.inj_on_of_nodup_map hid hx hy hnode

/-- The loop picks the same slots whatever order they are in. -/
theorem fill_perm (n : Nat) (chosen : List NodeId) (used : List String) {rest rest' : List NodeSlot}
    (hid : (ids rest).Nodup) (hperm : rest.Perm rest') :
    (fill n ⟨chosen, used, rest⟩).chosen = (fill n ⟨chosen, used, rest'⟩).chosen ∧
      (fill n ⟨chosen, used, rest⟩).remaining.Perm (fill n ⟨chosen, used, rest'⟩).remaining := by
  induction n generalizing chosen used rest rest' with
  | zero => exact ⟨rfl, hperm⟩
  | succ n ih =>
    have hpick : minBy (fillOrder used) rest = minBy (fillOrder used) rest' :=
      selectBest_perm (fun x y => fillOrder_gt_iff used x y) (fillKey_inj hid) hperm
    simp only [fill, ← hpick]
    cases minBy (fillOrder used) rest with
    | none => exact ⟨rfl, hperm⟩
    | some slot =>
      exact ih _ _ (hid.sublist (List.erase_sublist.map _)) (hperm.erase slot)

/-! ## The move -/

/-- All six parts of the comparison. The move with the largest one is made. -/
def Swap.fullKey (s : Swap) : ℤ ×ₗ ℤ ×ₗ ℕ ×ₗ ℕᵒᵈ ×ₗ NodeIdᵒᵈ ×ₗ NodeIdᵒᵈ :=
  toLex (s.domainGain, toLex (s.loadDelta, toLex (s.victimLoad,
    toLex (OrderDual.toDual s.candidateLoad,
      toLex (OrderDual.toDual s.candidateId, OrderDual.toDual s.victimId)))))

theorem Swap.isBetter_iff (x best : Swap) :
    x.isBetter best = true ↔ best.fullKey < x.fullKey := by
  simp only [isBetter, fullKey, decide_eq_true_eq, Prod.Lex.toLex_lt_toLex,
    OrderDual.toDual_lt_toDual, EmbeddingLike.apply_eq_iff_eq]
  grind

/-- The candidate and the replica say which move it is. -/
theorem fullKey_inj {chosen : List NodeId} {remaining : List NodeSlot} (hchosen : chosen.Nodup)
    (hid : (ids remaining).Nodup) :
    ∀ x ∈ swaps healthy chosen remaining, ∀ y ∈ swaps healthy chosen remaining,
      x.fullKey = y.fullKey → x = y := by
  intro x hx y hy heq
  obtain ⟨c, hc, i, v, hi, rfl, -⟩ := mem_swaps.mp hx
  obtain ⟨c', hc', j, w, hj, rfl, -⟩ := mem_swaps.mp hy
  have hcandidate : c.nodeId = c'.nodeId :=
    congrArg (fun k => (ofLex (ofLex (ofLex (ofLex (ofLex k).2).2).2).2).1) heq
  have hvictim : v = w :=
    congrArg (fun k => (ofLex (ofLex (ofLex (ofLex (ofLex k).2).2).2).2).2) heq
  obtain rfl : c = c' := List.inj_on_of_nodup_map hid hc hc' hcandidate
  obtain rfl : i = j := by
    obtain ⟨hlt, rfl⟩ := List.getElem?_eq_some_iff.mp hi
    obtain ⟨hlt', hw⟩ := List.getElem?_eq_some_iff.mp hj
    exact (hchosen.getElem_inj_iff).mp (hvictim.trans hw.symm)
  rw [hvictim]

theorem swaps_perm (hid : (ids healthy).Nodup) (hperm : healthy.Perm healthy')
    (chosen : List NodeId) {rest rest' : List NodeSlot} (hrest : rest.Perm rest') :
    (swaps healthy chosen rest).Perm (swaps healthy' chosen rest') := by
  simp only [swaps, trialSwap_perm hid hperm]
  exact hrest.flatMap_right _

theorem rebalance_perm (hid : (ids healthy).Nodup) (hperm : healthy.Perm healthy')
    {chosen : List NodeId} (hchosen : chosen.Nodup) {rest rest' : List NodeSlot}
    (hrest : (ids rest).Nodup) (hsame : rest.Perm rest') :
    rebalance healthy rf chosen rest = rebalance healthy' rf chosen rest' := by
  have hbest : selectBest Swap.isBetter (swaps healthy chosen rest)
      = selectBest Swap.isBetter (swaps healthy' chosen rest') :=
    selectBest_perm Swap.isBetter_iff (fullKey_inj hchosen hrest) (swaps_perm hid hperm chosen hsame)
  have hnil : rest ≠ [] ↔ rest' ≠ [] := by
    rw [ne_eq, ne_eq, ← List.length_eq_zero_iff, ← List.length_eq_zero_iff, hsame.length_eq]
  simp only [rebalance, hbest, hnil]

/-- What the fill of a plan starts with. -/
def fillStart (current : List NodeId) (healthy : List NodeSlot) : Fill :=
  ⟨kept current healthy, keptDomains current healthy, spare current healthy⟩

/-- What the fill of a plan ends with. -/
def filled (current : List NodeId) (healthy : List NodeSlot) (rf : Nat) : Fill :=
  fill (rf - (kept current healthy).length) (fillStart current healthy)

theorem planReplicas_eq_filled (current : List NodeId) (healthy : List NodeSlot) (rf : Nat) :
    planReplicas current healthy rf
      = rebalance healthy rf (trimToRf healthy rf (filled current healthy rf).chosen)
          (filled current healthy rf).remaining := rfl

/-- The fill ends with each candidate once, chosen or remaining. -/
theorem nodup_filled_parts (hcurrent : current.Nodup) (hid : (ids healthy).Nodup) :
    (filled current healthy rf).chosen.Nodup ∧ (ids (filled current healthy rf).remaining).Nodup := by
  obtain ⟨picks, hchosen, hpicks, -, -⟩ :=
    fill_picks (rf - (kept current healthy).length) (fillStart current healthy)
  have hall : (ids (picks ++ (filled current healthy rf).remaining)).Nodup :=
    nodup_ids_spare hid hpicks
  rw [ids, List.map_append] at hall
  refine ⟨?_, hall.of_append_right⟩
  rw [filled, hchosen]
  exact nodup_filled hid hcurrent hpicks

theorem filled_perm (hid : (ids healthy).Nodup) (hperm : healthy.Perm healthy') :
    (filled current healthy rf).chosen = (filled current healthy' rf).chosen ∧
      (filled current healthy rf).remaining.Perm (filled current healthy' rf).remaining := by
  have hspare : (ids (spare current healthy)).Nodup := nodup_ids_spare hid (List.Perm.refl _)
  have hfill := fill_perm (rf - (kept current healthy).length) (kept current healthy)
    (keptDomains current healthy) hspare (spare_perm hperm)
  rw [filled, filled, fillStart, fillStart, ← kept_perm hperm, keptDomains, keptDomains,
    ← kept_perm hperm, ← slotOf_perm hid hperm]
  exact hfill

/-- **The order of the candidates says nothing.** -/
theorem planReplicas_perm (hcurrent : current.Nodup) (hid : (ids healthy).Nodup)
    (hperm : healthy.Perm healthy') :
    planReplicas current healthy rf = planReplicas current healthy' rf := by
  obtain ⟨hchosen, hremaining⟩ := @nodup_filled_parts current healthy rf hcurrent hid
  obtain ⟨hsame, hrest⟩ := @filled_perm current healthy healthy' rf hid hperm
  rw [planReplicas_eq_filled, planReplicas_eq_filled, ← hsame, ← trimToRf_perm hid hperm]
  exact rebalance_perm hid hperm (nodup_trimToRf healthy rf hchosen) hremaining hrest

/-! ## The contract -/

/-- **A plan meets the contract**, and is the same for every order of the candidates. -/
theorem planReplicas_contract (hcurrent : current.Nodup) (hid : (ids healthy).Nodup) :
    Contract current healthy rf (planReplicas current healthy rf) ∧
      ∀ listed : List NodeSlot, listed.Perm healthy →
        planReplicas current listed rf = planReplicas current healthy rf :=
  ⟨contract_planReplicas hcurrent hid, fun _ h => (planReplicas_perm hcurrent hid h.symm).symm⟩

/-- One replica gone, two candidates spare: they may be listed the other way round. -/
theorem planReplicas_contract_crowded :
    Contract ["a", "b", "x"] crowded 3 (planReplicas ["a", "b", "x"] crowded 3) ∧
      planReplicas ["a", "b", "x"] crowded.reverse 3 = planReplicas ["a", "b", "x"] crowded 3 := by
  obtain ⟨hcontract, hlisted⟩ :=
    @planReplicas_contract ["a", "b", "x"] crowded 3 (by decide) (by decide)
  exact ⟨hcontract, hlisted _ (List.reverse_perm _)⟩

end FiduciaBrain.Scheduler
