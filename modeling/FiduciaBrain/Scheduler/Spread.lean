import FiduciaBrain.Scheduler.Suspect

/-!
# Failure-domain spread

How many domains a plan covers (`card_domains_planReplicas`): the fill takes a fresh domain as long
as there is one, and the one move of a full set takes one more when two replicas share a domain. The
candidates are cut to the target by load and id before any of that, without a look at the domains,
so the spread a tick keeps is that of what the cut leaves (`spread_iff`).
-/

namespace FiduciaBrain.Scheduler

open Infra

section

variable {current : List NodeId} {healthy : List NodeSlot} {rf : Nat}

/-! ## The spread of a plan -/

theorem domainGain_le_one (hid : (ids healthy).Nodup) {chosen : List NodeId}
    {remaining : List NodeSlot} (hchosen : ∀ id ∈ chosen, id ∈ ids healthy)
    (hrem : ∀ s ∈ remaining, s ∈ healthy) {s : Swap} (hs : s ∈ swaps healthy chosen remaining) :
    (domainsOf healthy (chosen.set s.victimIndex s.candidateId)).card
        = (domainsOf healthy chosen).card + s.domainGain ∧
      0 ≤ s.domainGain ∧
      domainsOf healthy (chosen.set s.victimIndex s.candidateId)
        ⊆ domainsOf healthy chosen ∪ slotDomains remaining := by
  obtain ⟨c, hc, i, victim, hi, rfl, hw⟩ := mem_swaps.mp hs
  have hset := mem_ids_of_mem_set hchosen (hrem c hc) i
  refine ⟨?_, ?_, ?_⟩
  · simp only [trialSwap, domainCount]
    omega
  · rw [Swap.worthwhile_iff] at hw
    omega
  · show domainsOf healthy (chosen.set i c.nodeId) ⊆ _
    rw [domainsOf_eq hset, domainsOf_eq hchosen]
    refine (colours_set_subset i c.nodeId).trans (Finset.insert_subset ?_ Finset.subset_union_left)
    rw [domainFor_of_mem hid (hrem c hc)]
    exact Finset.mem_union_right _ (List.mem_toFinset.mpr (List.mem_map_of_mem hc))

/-- A move that gains a domain is there exactly when a fresh domain is left and two replicas share
one. -/
theorem exists_gain (hid : (ids healthy).Nodup) {chosen : List NodeId} {remaining : List NodeSlot}
    (hchosen : ∀ id ∈ chosen, id ∈ ids healthy) (hrem : ∀ s ∈ remaining, s ∈ healthy)
    (hdup : (domainsOf healthy chosen).card < chosen.length)
    (hfresh : (domainsOf healthy chosen).card
      < (domainsOf healthy chosen ∪ slotDomains remaining).card) :
    ∃ s ∈ swaps healthy chosen remaining, 1 ≤ s.domainGain := by
  obtain ⟨d, hd, hnot⟩ : ∃ d ∈ slotDomains remaining, d ∉ domainsOf healthy chosen := by
    by_contra hall
    push Not at hall
    rw [Finset.union_eq_left.mpr (fun d hd => hall d hd)] at hfresh
    omega
  obtain ⟨c, hc, rfl⟩ := List.mem_map.mp (List.mem_toFinset.mp hd)
  rw [domainsOf_eq hchosen] at hdup hnot
  obtain ⟨j, victim, hj, hkeeps⟩ := exists_set_keeps hdup
  have hset := mem_ids_of_mem_set hchosen (hrem c hc) j
  have hgain : (domainsOf healthy (chosen.set j c.nodeId)).card
      = (domainsOf healthy chosen).card + 1 := by
    rw [domainsOf_eq hset, domainsOf_eq hchosen]
    refine card_colours_set_fresh (List.getElem?_eq_some_iff.mp hj).1 (hkeeps _) ?_
    rwa [domainFor_of_mem hid (hrem c hc)]
  refine ⟨trialSwap healthy chosen c victim j, mem_swaps.mpr ⟨c, hc, j, victim, hj, rfl, ?_⟩, ?_⟩
  · refine (Swap.worthwhile_iff _).mpr (.inl ?_)
    simp only [trialSwap, domainCount]
    omega
  · simp only [trialSwap, domainCount]
    omega

theorem domainGain_le_of_key_le {s best : Swap} (h : s.key ≤ best.key) :
    s.domainGain ≤ best.domainGain := by
  rw [Swap.key, Swap.key, Prod.Lex.toLex_le_toLex] at h
  omega

/-- The domains of a full set after its move. -/
theorem card_domains_rebalance (hid : (ids healthy).Nodup) {chosen : List NodeId}
    {remaining : List NodeSlot} (hlen : chosen.length = rf)
    (hchosen : ∀ id ∈ chosen, id ∈ ids healthy) (hrem : ∀ s ∈ remaining, s ∈ healthy) :
    (domainsOf healthy (rebalance healthy rf chosen remaining)).card
      = min rf (min ((domainsOf healthy chosen).card + 1)
          (domainsOf healthy chosen ∪ slotDomains remaining).card) := by
  have hd : (domainsOf healthy chosen).card ≤ rf := by
    rw [domainsOf_eq hchosen, ← hlen]
    exact card_colours_le_length _ _
  have hsub : (domainsOf healthy chosen).card
      ≤ (domainsOf healthy chosen ∪ slotDomains remaining).card :=
    Finset.card_le_card Finset.subset_union_left
  have hgain := exists_gain hid hchosen hrem
  rcases rebalance_cases healthy rf chosen remaining with
    ⟨heq, hnone⟩ | ⟨-, best, hbest, hmax, heq⟩
  · rw [heq]
    by_contra hne
    obtain ⟨s, hs, -⟩ := hgain (by omega) (by omega)
    rw [hnone hlen] at hs
    cases hs
  · obtain ⟨hcard, hpos, hin⟩ := domainGain_le_one hid hchosen hrem hbest
    have hle := Finset.card_le_card hin
    have hset : ∀ id ∈ chosen.set best.victimIndex best.candidateId, id ∈ ids healthy :=
      heq ▸ mem_ids_of_mem_rebalance hchosen hrem
    have hrf : (domainsOf healthy (chosen.set best.victimIndex best.candidateId)).card ≤ rf := by
      rw [domainsOf_eq hset, ← hlen, ← List.length_set]
      exact card_colours_le_length _ _
    have hone : (domainsOf healthy (chosen.set best.victimIndex best.candidateId)).card
        ≤ (domainsOf healthy chosen).card + 1 := by
      rw [domainsOf_eq hset, domainsOf_eq hchosen]
      exact card_colours_set_le _ _
    rw [heq]
    by_contra hne
    obtain ⟨s, hs, hs1⟩ := hgain (by omega) (by omega)
    have hbig := domainGain_le_of_key_le (hmax s hs)
    omega

/-- **How many domains a plan covers.** `T` is what is left of the current replicas; as many slots as
are missing, and the one move, each take a domain that is not covered yet as long as the candidates
that are not replicas have one. -/
theorem card_domains_planReplicas (hid : (ids healthy).Nodup)
    (henough : rf ≤ (kept current healthy).length + (spare current healthy).length) :
    let T := trimToRf healthy rf (kept current healthy)
    (domainsOf healthy (planReplicas current healthy rf)).card
      = min rf (min ((domainsOf healthy T).card + (rf - T.length) + 1)
          (domainsOf healthy T ∪ slotDomains (spare current healthy)).card) := by
  intro T
  obtain ⟨picks, remaining, hplan, hperm, hlen, hcard⟩ := planReplicas_eq current healthy rf
  have hkept : ∀ id ∈ kept current healthy, id ∈ ids healthy := fun id h => (mem_kept.mp h).2
  have hpick : ∀ s ∈ picks, s ∈ healthy := fun s hs =>
    (ids_subset_of_spare hperm (List.mem_append_left _ hs)).1
  have hrem : ∀ s ∈ remaining, s ∈ healthy := fun s hs =>
    (ids_subset_of_spare hperm (List.mem_append_right _ hs)).1
  have hpicked : ∀ id ∈ ids picks, id ∈ ids healthy := by
    intro id h
    obtain ⟨s, hs, rfl⟩ := List.mem_map.mp h
    exact List.mem_map_of_mem (hpick s hs)
  have hspare : slotDomains (spare current healthy) = slotDomains picks ∪ slotDomains remaining := by
    rw [slotDomains, ← List.toFinset_eq_of_perm _ _ (hperm.map (·.domain))]
    simp [slotDomains]
  rw [hplan]
  by_cases hle : (kept current healthy).length ≤ rf
  · -- nothing is trimmed
    have hT : T = kept current healthy := trimToRf_of_le hle
    have hfull : (kept current healthy ++ ids picks).length = rf := by
      rw [List.length_append, ids, List.length_map, hlen]
      omega
    have hchosen : ∀ id ∈ kept current healthy ++ ids picks, id ∈ ids healthy := by
      intro id h
      exact (List.mem_append.mp h).elim (hkept id) (hpicked id)
    have hdomains : domainsOf healthy (kept current healthy ++ ids picks)
        = domainsOf healthy (kept current healthy) ∪ slotDomains picks := by
      rw [domainsOf_eq hchosen, colours_append, domainsOf_eq hkept]
      congr 1
      rw [colours_eq_toFinset_map, slotDomains, ids, List.map_map]
      congr 1
      exact List.map_congr_left (fun s hs => domainFor_of_mem hid (hpick s hs))
    rw [trimToRf_of_le hfull.le, card_domains_rebalance hid hfull hchosen hrem, hdomains, hT,
      Finset.union_assoc, ← hspare, hcard]
    omega
  · -- nothing is picked
    have hnil : picks = [] := List.eq_nil_of_length_eq_zero (by omega)
    subst hnil
    have hfull : T.length = rf := by
      rw [length_trimToRf]
      omega
    have hchosen : ∀ id ∈ T, id ∈ ids healthy := fun id h =>
      hkept id ((trimToRf_subperm healthy rf _).subset h)
    have hrest : slotDomains remaining = slotDomains (spare current healthy) := by
      rw [hspare]
      simp [slotDomains]
    have htrim : trimToRf healthy rf (kept current healthy ++ ids []) = T := by simp [ids, T]
    rw [htrim, card_domains_rebalance hid hfull hchosen hrem, hrest, hfull]
    omega

end

/-! ## The spread a tick keeps -/

/-- The failure domain membership has for a node. -/
def failureDomainOf (sm : StateMachine) (id : NodeId) : String :=
  (sm.membership.nodes[id]?.map (·.failureDomain)).getD ""

/-- How many failure domains some nodes cover. -/
def spread (sm : StateMachine) (l : List NodeId) : Nat := (colours (failureDomainOf sm) l).card

/-- The nodes a tick places on: the target's number of healthy nodes, the most loaded first and by
id on a tie. -/
def activeNodes (sm : StateMachine) : List NodeId := (Tick.of sm).healthyIds

/-- What a tick keeps of a shard's replicas: the active ones, and of more than `rf` of them the least
loaded, by the loads that the walk has when it reaches the shard. -/
def keptReplicas (sm : StateMachine) (s : ShardId) : List NodeId :=
  trimToRf ((Tick.of sm).slots (before sm s).load) (Tick.rfOf sm)
    ((Tick.of sm).survivors (currentReplicas sm s))

/-- The active nodes that are not replicas of the shard. -/
def idleNodes (sm : StateMachine) (s : ShardId) : List NodeId :=
  (Tick.of sm).idle (currentReplicas sm s)

section

variable {sm : StateMachine} {s : ShardId}

theorem domainOf_eq_failureDomainOf (id : NodeId) :
    (Tick.of sm).domainOf id = failureDomainOf sm id := by
  rw [Tick.domainOf, Tick.info_eq]
  rfl

/-- Of active nodes the planner sees the domains that membership has. -/
theorem domainsOf_slots (load : Loads) {l : List NodeId} (hl : ∀ id ∈ l, id ∈ activeNodes sm) :
    domainsOf ((Tick.of sm).slots load) l = colours (failureDomainOf sm) l := by
  rw [domainsOf_eq (by simpa [activeNodes] using hl)]
  refine colours_congr (fun id hid => ?_)
  rw [Tick.domainFor_slots _ (Tick.nodup_healthyIds sm) (hl id hid), domainOf_eq_failureDomainOf]

theorem mem_keptReplicas {id : NodeId} (h : id ∈ keptReplicas sm s) :
    id ∈ currentReplicas sm s ∧ id ∈ activeNodes sm :=
  (Tick.of sm).mem_survivors.mp ((trimToRf_subperm _ _ _).subset h)

/-- **The domains a decided shard covers.** -/
theorem spread_nextAssignment
    (henough : Tick.rfOf sm ≤ ((Tick.of sm).survivors (currentReplicas sm s)).length
      + (idleNodes sm s).length) :
    spread sm (nextAssignment sm s).replicas
      = min (Tick.rfOf sm)
          (min (spread sm (keptReplicas sm s) + (Tick.rfOf sm - (keptReplicas sm s).length) + 1)
            (spread sm (keptReplicas sm s ++ idleNodes sm s))) := by
  have hid : (ids ((Tick.of sm).slots (before sm s).load)).Nodup := by
    simpa using Tick.nodup_healthyIds sm
  have hcard := @card_domains_planReplicas (currentReplicas sm s) _ (Tick.rfOf sm) hid
    (by simpa [Tick.kept_slots, Tick.spare_slots, idleNodes] using henough)
  simp only [Tick.kept_slots] at hcard
  have hidle : slotDomains (spare (currentReplicas sm s) ((Tick.of sm).slots (before sm s).load))
      = colours (failureDomainOf sm) (idleNodes sm s) := by
    rw [Tick.spare_slots, slotDomains, List.map_map, colours_eq_toFinset_map]
    congr 1
    exact List.map_congr_left (fun id _ => domainOf_eq_failureDomainOf id)
  have hplan : ∀ id ∈ planReplicas (currentReplicas sm s) ((Tick.of sm).slots (before sm s).load)
      (Tick.rfOf sm), id ∈ activeNodes sm := fun id h => by
    simpa [activeNodes] using mem_ids_of_mem_planReplicas h
  have hkeep := domainsOf_slots (before sm s).load
    (fun id (h : id ∈ keptReplicas sm s) => (mem_keptReplicas h).2)
  rw [keptReplicas] at hkeep
  rw [hidle, domainsOf_slots _ hplan, hkeep, ← colours_append] at hcard
  rw [nextAssignment_eq_desired]
  exact hcard

/-- Healthy nodes in `rf` domains leave `rf` candidates. -/
theorem rf_le_length_activeNodes (hspan : Tick.rfOf sm ≤ spread sm (healthyNodes sm)) :
    Tick.rfOf sm ≤ (activeNodes sm).length := by
  have hle : spread sm (healthyNodes sm) ≤ (healthyNodes sm).length := card_colours_le_length _ _
  have hiff := Tick.length_healthyIds_lt_rf sm
  have hrf : (Tick.of sm).rf = Tick.rfOf sm := rfl
  have hhealthy : healthyNodes sm = allHealthyIds sm.membership.snapshot := rfl
  rw [hhealthy] at hle hspan
  rw [activeNodes]
  omega

theorem length_activeNodes_le :
    (activeNodes sm).length
      ≤ ((Tick.of sm).survivors (currentReplicas sm s)).length + (idleNodes sm s).length :=
  (Tick.of sm).length_healthyIds_le (Tick.nodup_healthyIds sm) _

/-- A shard whose replicas are healthy is decided, when the healthy nodes span `rf` domains. -/
theorem not_held_of_healthy (hspan : Tick.rfOf sm ≤ spread sm (healthyNodes sm))
    (hcur : ∀ r ∈ currentReplicas sm s, r ∈ healthyNodes sm) :
    (Tick.of sm).held (currentReplicas sm s) = false := by
  rw [← Bool.not_eq_true, held_iff]
  rintro (⟨r, hr, hnone⟩ | ⟨hlt, -⟩)
  · obtain ⟨info, hinfo, -⟩ := mem_allHealthyIds.mp (hcur r hr)
    rw [hinfo] at hnone
    cases hnone
  · have hle : spread sm (healthyNodes sm) ≤ (healthyNodes sm).length := card_colours_le_length _ _
    omega

/-- The assignment a tick leaves such a shard with. -/
theorem get_reconcile_of_healthy (hs : s < sm.placement.shardCount)
    (hspan : Tick.rfOf sm ≤ spread sm (healthyNodes sm))
    (hcur : ∀ r ∈ currentReplicas sm s, r ∈ healthyNodes sm) :
    (reconcile true sm).placement.get s = some (nextAssignment sm s) := by
  rw [get_reconcile, if_pos ⟨hs, not_held_of_healthy hspan hcur⟩, if_neg]
  rintro ⟨-, hnil⟩
  have hlen := Tick.length_desired (Tick.of sm) (before sm s).load (currentReplicas sm s)
  have hactive := rf_le_length_activeNodes hspan
  have hmany := @length_activeNodes_le sm s
  have hone := Tick.one_le_rf sm
  have hrf : (Tick.of sm).rf = Tick.rfOf sm := rfl
  rw [← nextAssignment_eq_desired, hnil, List.length_nil] at hlen
  rw [idleNodes] at hmany
  omega

/-- No healthy node hosts it and nothing is placed: the shard has no replicas. -/
theorem currentReplicas_eq_nil (hnone : sm.placement.get s = none)
    (hnobody : ∀ info ∈ sm.membership.snapshot, info.health = .healthy → s ∉ info.hostedShards) :
    currentReplicas sm s = [] := by
  rw [currentReplicas, hnone]
  refine List.flatMap_eq_nil_iff.mpr (fun info hinfo => ?_)
  obtain ⟨hmem, hhealthy⟩ := List.mem_filter.mp hinfo
  have hnot := hnobody info hmem (of_decide_eq_true hhealthy)
  rw [List.map_eq_nil_iff, List.filter_eq_nil_iff]
  intro x hx heq
  exact hnot (beq_iff_eq.mp heq ▸ hx)

/-- **When a tick keeps the spread**, among healthy nodes that span `rf` domains. A shard that is not
placed and that nobody reports gets `rf` domains exactly when the active nodes span them. A shard
whose replicas are healthy keeps its domains, as far as `rf` asks for them, exactly when what the cut
for the target leaves of its replicas, with a fresh domain for each missing one and for the one move,
covers as many, and those replicas and the other active nodes have as many. -/
theorem spread_kept_iff (hspan : Tick.rfOf sm ≤ spread sm (healthyNodes sm)) :
    (s < sm.placement.shardCount → sm.placement.get s = none →
      (∀ info ∈ sm.membership.snapshot, s ∉ info.hostedShards) →
      ((∃ a, (reconcile true sm).placement.get s = some a ∧ spread sm a.replicas = Tick.rfOf sm) ↔
        Tick.rfOf sm ≤ spread sm (activeNodes sm))) ∧
    (s < sm.placement.shardCount ∨ sm.placement.get s ≠ none →
      (∀ r ∈ currentReplicas sm s, r ∈ healthyNodes sm) →
      (min (spread sm (currentReplicas sm s)) (Tick.rfOf sm)
          ≤ spread sm (replicasOf (reconcile true sm) s) ↔
        sm.placement.shardCount ≤ s ∨
          min (spread sm (currentReplicas sm s)) (Tick.rfOf sm)
            ≤ min (spread sm (keptReplicas sm s)
                + (Tick.rfOf sm - (keptReplicas sm s).length) + 1)
                (spread sm (keptReplicas sm s ++ idleNodes sm s)))) := by
  have hactive := rf_le_length_activeNodes hspan
  have henough := hactive.trans (@length_activeNodes_le sm s)
  constructor
  · intro hs hnone hnobody
    have hempty : currentReplicas sm s = [] :=
      currentReplicas_eq_nil hnone (fun info hinfo _ => hnobody info hinfo)
    have hcur : ∀ r ∈ currentReplicas sm s, r ∈ healthyNodes sm := by simp [hempty]
    have hnext := spread_nextAssignment henough
    have hkept : keptReplicas sm s = [] :=
      List.eq_nil_iff_forall_not_mem.mpr (fun id h => by simpa [hempty] using (mem_keptReplicas h).1)
    have hidle : idleNodes sm s = activeNodes sm := by
      simp [idleNodes, Tick.idle, hempty, activeNodes]
    have hzero : spread sm [] = 0 := rfl
    rw [hkept, hidle, List.nil_append, hzero, List.length_nil] at hnext
    rw [get_reconcile_of_healthy hs hspan hcur]
    constructor
    · rintro ⟨a, ha, hrf⟩
      cases ha
      omega
    · intro hle
      exact ⟨nextAssignment sm s, rfl, by omega⟩
  · intro hplaced hcur
    by_cases hs : s < sm.placement.shardCount
    · have hnext := spread_nextAssignment henough
      have hafter : replicasOf (reconcile true sm) s = (nextAssignment sm s).replicas := by
        rw [replicasOf, get_reconcile_of_healthy hs hspan hcur]
        rfl
      rw [hafter, hnext, or_iff_right (Nat.not_le.mpr hs)]
      omega
    · -- a shard beyond the count is left alone
      have hafter : replicasOf (reconcile true sm) s = currentReplicas sm s := by
        obtain ⟨a, ha⟩ := Option.ne_none_iff_exists'.mp (hplaced.resolve_left hs)
        rw [replicasOf, get_reconcile, if_neg (fun h => hs h.1), currentReplicas, ha]
        rfl
      rw [hafter]
      exact iff_of_true (min_le_left _ _) (.inl (Nat.le_of_not_lt hs))

/-! ## A cut that leaves one domain -/

/-- Five nodes in three domains, cut to three. The nodes in `gcp` come first by load and id. -/
def wideCluster : StateMachine where
  membership := registryOf [("a", "gcp", 0), ("b", "gcp", 0), ("c", "gcp", 0), ("d", "aws", 0),
    ("e", "hetzner", 0)]
  placement := ((Placement.new 3).assign ⟨0, ["a", "d", "e"], some "a", none, none⟩).assign
    ⟨1, ["a", "b", "c"], some "b", none, none⟩
  plan := ⟨3, 3⟩

/-- A target of five leaves all three domains. -/
theorem spread_kept_iff_uncut :
    let sm := { wideCluster with plan := ⟨5, 3⟩ }
    min (spread sm (currentReplicas sm 0)) (Tick.rfOf sm)
      ≤ spread sm (replicasOf (reconcile true sm) 0) := by
  intro sm
  exact ((@spread_kept_iff sm 0 (by decide +kernel)).2 (.inl (by decide))
    (by decide +kernel)).mpr (.inr (by decide +kernel))

/-- **The cut leaves one domain**: shard 0 is taken from three domains to one, and shard 2 is placed
in one. -/
theorem cut_loses_spread :
    Tick.rfOf wideCluster ≤ spread wideCluster (healthyNodes wideCluster) ∧
      (∀ r ∈ currentReplicas wideCluster 0, r ∈ healthyNodes wideCluster) ∧
      spread wideCluster (currentReplicas wideCluster 0) = 3 ∧
      spread wideCluster (replicasOf (reconcile true wideCluster) 0) = 1 ∧
      wideCluster.placement.get 2 = none ∧
      (∀ info ∈ wideCluster.membership.snapshot, 2 ∉ info.hostedShards) ∧
      spread wideCluster (replicasOf (reconcile true wideCluster) 2) = 1 := by
  decide +kernel

end

end FiduciaBrain.Scheduler
