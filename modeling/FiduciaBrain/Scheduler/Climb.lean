import FiduciaBrain.Scheduler.Contract
import FiduciaBrain.Scheduler.Spread

/-!
# Spread climbs to the optimum

A plan of at most `rf` replicas takes a fresh domain for every missing replica and one more by its
move, as long as there is one (`domainCount_planReplicas`). So there is no set that is stuck below
the best coverage: planning again on the plan climbs one domain at a time (`spread_climbs`).
-/

namespace FiduciaBrain.Scheduler

open Infra

variable {current : List NodeId} {healthy : List NodeSlot} {rf : Nat}

/-- How many domains the candidates have. -/
def candidateDomains (healthy : List NodeSlot) : Nat := (slotDomains healthy).card

/-! ## The domains of all candidates -/

/-- A replica that is no candidate has no domain. -/
theorem domainsOf_kept (current : List NodeId) (healthy : List NodeSlot) :
    domainsOf healthy (kept current healthy) = domainsOf healthy current := by
  ext d
  simp only [domainsOf, List.mem_toFinset, List.mem_map, List.mem_filterMap, mem_kept]
  constructor
  · rintro ⟨s, ⟨id, ⟨hcur, -⟩, hs⟩, rfl⟩
    exact ⟨s, ⟨id, hcur, hs⟩, rfl⟩
  · rintro ⟨s, ⟨id, hcur, hs⟩, rfl⟩
    obtain ⟨hmem, rfl⟩ := slotOf_eq_some hs
    exact ⟨s, ⟨s.nodeId, ⟨hcur, List.mem_map_of_mem hmem⟩, hs⟩, rfl⟩

/-- What the replicas and the spare candidates cover is all there is. -/
theorem domainsOf_union_spare (hid : (ids healthy).Nodup) (current : List NodeId) :
    domainsOf healthy current ∪ slotDomains (spare current healthy) = slotDomains healthy := by
  ext d
  simp only [domainsOf, slotDomains, Finset.mem_union, List.mem_toFinset, List.mem_map,
    List.mem_filterMap, mem_spare]
  constructor
  · rintro (⟨s, ⟨id, -, hs⟩, rfl⟩ | ⟨s, ⟨hs, -⟩, rfl⟩)
    · exact ⟨s, (slotOf_eq_some hs).1, rfl⟩
    · exact ⟨s, hs, rfl⟩
  · rintro ⟨s, hs, rfl⟩
    by_cases hcur : s.nodeId ∈ current
    · exact .inl ⟨s, ⟨s.nodeId, hcur, slotOf_of_mem hid hs⟩, rfl⟩
    · exact .inr ⟨s, ⟨hs, hcur⟩, rfl⟩

theorem domainCount_le_length_kept (current : List NodeId) (healthy : List NodeSlot) :
    domainCount current healthy ≤ (kept current healthy).length := by
  rw [domainCount, ← domainsOf_kept, domainsOf_eq (fun id h => (mem_kept.mp h).2)]
  exact card_colours_le_length _ _

theorem domainCount_le_candidateDomains (hid : (ids healthy).Nodup) (current : List NodeId) :
    domainCount current healthy ≤ candidateDomains healthy := by
  rw [domainCount, candidateDomains, ← domainsOf_union_spare hid current]
  exact Finset.card_le_card Finset.subset_union_left

/-! ## One plan -/

/-- **What a plan covers** when nothing has to be trimmed. -/
theorem domainCount_planReplicas (hcurrent : current.Nodup) (hid : (ids healthy).Nodup)
    (henough : rf ≤ healthy.length) (hfew : (kept current healthy).length ≤ rf) :
    domainCount (planReplicas current healthy rf) healthy
      = min rf (min (domainCount current healthy + (rf - (kept current healthy).length) + 1)
          (candidateDomains healthy)) := by
  have hcard := @card_domains_planReplicas current healthy rf hid
    (by rwa [length_kept_add_spare hcurrent hid])
  simp only [trimToRf_of_le hfew, domainsOf_kept, domainsOf_union_spare hid] at hcard
  exact hcard

/-! ## Planning again and again -/

/-- The plan of the plan of .., on the same candidates. -/
def replan (healthy : List NodeSlot) (rf : Nat) (current : List NodeId) (n : Nat) : List NodeId :=
  (fun l => planReplicas l healthy rf)^[n] current

theorem replan_succ (healthy : List NodeSlot) (rf : Nat) (current : List NodeId) (n : Nat) :
    replan healthy rf current (n + 1) = planReplicas (replan healthy rf current n) healthy rf :=
  Function.iterate_succ_apply' _ n current

theorem kept_planReplicas_le : (kept (planReplicas current healthy rf) healthy).length ≤ rf := by
  refine (List.length_filter_le _ _).trans ?_
  rw [length_planReplicas]
  exact Nat.min_le_left _ _

/-- Every set on the way names no node twice and has at most `rf` candidates. -/
theorem replan_fits (hcurrent : current.Nodup) (hid : (ids healthy).Nodup)
    (hfew : (kept current healthy).length ≤ rf) (n : Nat) :
    (replan healthy rf current n).Nodup ∧
      (kept (replan healthy rf current n) healthy).length ≤ rf := by
  induction n with
  | zero => exact ⟨hcurrent, hfew⟩
  | succ n ih =>
    rw [replan_succ]
    exact ⟨nodup_planReplicas hid ih.1, kept_planReplicas_le⟩

section

variable (hcurrent : current.Nodup) (hid : (ids healthy).Nodup) (henough : rf ≤ healthy.length)
  (hfew : (kept current healthy).length ≤ rf)
include hcurrent hid hfew

theorem coverage_le (n : Nat) :
    domainCount (replan healthy rf current n) healthy ≤ min rf (candidateDomains healthy) :=
  le_min ((domainCount_le_length_kept _ _).trans (replan_fits hcurrent hid hfew n).2)
    (domainCount_le_candidateDomains hid _)

include henough

/-- One plan more covers one domain more, up to the best there is. -/
theorem coverage_succ (n : Nat) :
    min (min rf (candidateDomains healthy)) (domainCount (replan healthy rf current n) healthy + 1)
      ≤ domainCount (replan healthy rf current (n + 1)) healthy := by
  obtain ⟨hnodup, hle⟩ := replan_fits hcurrent hid hfew n
  rw [replan_succ, domainCount_planReplicas hnodup hid henough hle]
  omega

theorem coverage_ge (n : Nat) :
    min (min rf (candidateDomains healthy)) (domainCount current healthy + n)
      ≤ domainCount (replan healthy rf current n) healthy := by
  induction n with
  | zero => exact Nat.min_le_right _ _
  | succ n ih =>
    have hstep := coverage_succ hcurrent hid henough hfew n
    omega

/-- **Spread climbs to the optimum.** A plan covers one domain more than the replicas did, or as many
as `rf` candidates can; from nothing it covers as many at once. Planning again never covers fewer,
and after `rf` plans the coverage is the best for good. -/
theorem spread_climbs :
    min (min rf (candidateDomains healthy)) (domainCount current healthy + 1)
        ≤ domainCount (planReplicas current healthy rf) healthy ∧
      domainCount (planReplicas [] healthy rf) healthy = min rf (candidateDomains healthy) ∧
      (∀ n, domainCount (replan healthy rf current n) healthy
        ≤ domainCount (replan healthy rf current (n + 1)) healthy) ∧
      ∃ n ≤ rf, ∀ m, n ≤ m →
        domainCount (replan healthy rf current m) healthy = min rf (candidateDomains healthy) := by
  refine ⟨coverage_succ hcurrent hid henough hfew 0, ?_, fun n => ?_, rf, le_refl rf, fun m hm => ?_⟩
  · rw [domainCount_planReplicas List.nodup_nil hid henough (Nat.zero_le rf)]
    show min rf (min (0 + (rf - 0) + 1) (candidateDomains healthy)) = _
    omega
  · have hle := coverage_le hcurrent hid hfew n
    have hstep := coverage_succ hcurrent hid henough hfew n
    omega
  · have hle := coverage_le hcurrent hid hfew m
    have hge := coverage_ge hcurrent hid henough hfew m
    omega

end

/-- Three replicas in one domain, one candidate in each of two others. -/
def clumped : List NodeSlot :=
  [⟨"a", "d1", 0⟩, ⟨"b", "d1", 0⟩, ⟨"c", "d1", 0⟩, ⟨"d", "d2", 5⟩, ⟨"e", "d3", 9⟩]

theorem spread_climbs_clumped :
    min (min 3 (candidateDomains clumped)) (domainCount ["a", "b", "c"] clumped + 1)
        ≤ domainCount (planReplicas ["a", "b", "c"] clumped 3) clumped ∧
      domainCount (planReplicas [] clumped 3) clumped = min 3 (candidateDomains clumped) ∧
      (∀ n, domainCount (replan clumped 3 ["a", "b", "c"] n) clumped
        ≤ domainCount (replan clumped 3 ["a", "b", "c"] (n + 1)) clumped) ∧
      ∃ n ≤ 3, ∀ m, n ≤ m →
        domainCount (replan clumped 3 ["a", "b", "c"] m) clumped = min 3 (candidateDomains clumped) :=
  spread_climbs (by decide) (by decide) (by decide) (by decide)

end FiduciaBrain.Scheduler
