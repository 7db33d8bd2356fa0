import FiduciaBrain.Infra.Balance
import FiduciaBrain.Scheduler.Climb

/-!
# Trimming by load

Of more than `rf` healthy replicas the trim keeps the least loaded, without a look at their domains,
and what it drops is no candidate for the move that follows. So the spread a trimmed set keeps is
that of its least-loaded replicas and one move (`trim_keeps_spread_iff`). `lopsided` is a set that
loses a domain.
-/

namespace FiduciaBrain.Scheduler

open Infra

variable {current : List NodeId} {healthy : List NodeSlot} {rf : Nat}

/-! ## The least-loaded replicas -/

/-- `x` is listed before `y`. -/
def ListedBefore (l : List NodeId) (x y : NodeId) : Prop := l.idxOf x < l.idxOf y

instance (l : List NodeId) : DecidableRel (ListedBefore l) := fun _ _ => Nat.decLt _ _

theorem pairwise_listedBefore {l : List NodeId} (h : l.Nodup) : l.Pairwise (ListedBefore l) := by
  refine List.pairwise_iff_getElem.mpr (fun i j hi hj hij => ?_)
  rw [ListedBefore, h.idxOf_getElem, h.idxOf_getElem]
  exact hij

/-- The smaller load first, and the order of the current replicas on a tie. -/
def LighterThan (current : List NodeId) (healthy : List NodeSlot) : NodeId → NodeId → Prop :=
  orderBy (loadFor healthy) (ListedBefore (kept current healthy))

instance (current : List NodeId) (healthy : List NodeSlot) :
    DecidableRel (LighterThan current healthy) :=
  inferInstanceAs (DecidableRel (orderBy _ _))

/-- The `rf` least-loaded of the healthy replicas. -/
def lightest (current : List NodeId) (healthy : List NodeSlot) (rf : Nat) : List NodeId :=
  (kept current healthy).filter fun id =>
    rankIn (LighterThan current healthy) (kept current healthy).toFinset id < rf

/-- **What the trim keeps** are the `rf` least-loaded replicas. -/
theorem mem_trimToRf_iff (hcurrent : current.Nodup) (hover : rf < (kept current healthy).length)
    {id : NodeId} :
    id ∈ trimToRf healthy rf (kept current healthy) ↔ id ∈ lightest current healthy rf := by
  have hnodup : (kept current healthy).Nodup := hcurrent.filter _
  set sorted := (kept current healthy).insertionSort
    (fun a b => loadFor healthy a ≤ loadFor healthy b) with hsorted
  have hperm : sorted.Perm (kept current healthy) := List.perm_insertionSort _ _
  have horder : sorted.Pairwise (LighterThan current healthy) :=
    pairwise_insertionSort_orderBy (loadFor healthy) (pairwise_listedBefore hnodup)
  have hasymm : ∀ {a b}, LighterThan current healthy a b → ¬ LighterThan current healthy b a :=
    orderBy_asymm (fun h => Nat.lt_asymm h)
  rw [trimToRf, if_pos hover, ← hsorted, lightest, List.mem_filter, decide_eq_true_eq,
    ← List.toFinset_eq_of_perm _ _ hperm]
  constructor
  · intro h
    have hmem : id ∈ sorted := List.mem_of_mem_take h
    exact ⟨hperm.subset hmem, (mem_take_iff_rankIn hasymm horder hmem rf).mp h⟩
  · rintro ⟨hmem, hrank⟩
    exact (mem_take_iff_rankIn hasymm horder (hperm.symm.subset hmem) rf).mpr hrank

theorem domainsOf_congr {l l' : List NodeId} (h : ∀ id, id ∈ l ↔ id ∈ l') :
    domainsOf healthy l = domainsOf healthy l' := by
  ext d
  simp only [domainsOf, List.mem_toFinset, List.mem_map, List.mem_filterMap, h]

/-! ## What a trimmed plan covers -/

/-- **What a plan covers** when replicas have to be trimmed. -/
theorem domainCount_planReplicas_over (hcurrent : current.Nodup) (hid : (ids healthy).Nodup)
    (hover : rf < (kept current healthy).length) :
    domainCount (planReplicas current healthy rf) healthy
      = min rf (min (domainCount (lightest current healthy rf) healthy + 1)
          (domainsOf healthy (lightest current healthy rf)
            ∪ slotDomains (spare current healthy)).card) := by
  have hcard := @card_domains_planReplicas current healthy rf hid (by omega)
  have hfull : rf - (trimToRf healthy rf (kept current healthy)).length = 0 := by
    rw [length_trimToRf]
    omega
  simp only [hfull, domainsOf_congr (fun _ => mem_trimToRf_iff hcurrent hover)] at hcard
  exact hcard

/-- **When trimming keeps the spread**: the least-loaded replicas miss at most one of the domains
that `rf` replicas can keep, and if they miss one, a candidate that is no replica has a domain that
they have not. -/
theorem trim_keeps_spread_iff (hcurrent : current.Nodup) (hid : (ids healthy).Nodup)
    (hover : rf < (kept current healthy).length) :
    min rf (domainCount current healthy) ≤ domainCount (planReplicas current healthy rf) healthy ↔
      min rf (domainCount current healthy) ≤ domainCount (lightest current healthy rf) healthy + 1 ∧
      min rf (domainCount current healthy)
        ≤ (domainsOf healthy (lightest current healthy rf)
            ∪ slotDomains (spare current healthy)).card := by
  rw [domainCount_planReplicas_over hcurrent hid hover]
  omega

/-! ## A trim that leaves one domain -/

/-- The busiest node is the only one in its domain. -/
def lopsided : List NodeSlot := [⟨"a", "d1", 9⟩, ⟨"b", "d2", 0⟩, ⟨"c", "d2", 0⟩]

/-- With a spare candidate in a third domain the move makes up for the trim. -/
theorem trim_keeps_spread_iff_spare :
    min 2 (domainCount ["a", "b", "c"] (⟨"d", "d3", 4⟩ :: lopsided))
      ≤ domainCount (planReplicas ["a", "b", "c"] (⟨"d", "d3", 4⟩ :: lopsided) 2)
          (⟨"d", "d3", 4⟩ :: lopsided) :=
  (trim_keeps_spread_iff (by decide) (by decide) (by decide)).mpr (by decide +kernel)

/-- **A trim loses a domain**: of three replicas in two domains it leaves two in one. -/
theorem trim_loses_spread :
    ["a", "b", "c"].Nodup ∧ (ids lopsided).Nodup ∧ 2 < (kept ["a", "b", "c"] lopsided).length ∧
      planReplicas ["a", "b", "c"] lopsided 2 = ["b", "c"] ∧
      ¬ min 2 (domainCount ["a", "b", "c"] lopsided)
        ≤ domainCount (planReplicas ["a", "b", "c"] lopsided 2) lopsided := by
  decide +kernel

end FiduciaBrain.Scheduler
