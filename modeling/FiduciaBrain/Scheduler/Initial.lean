import FiduciaBrain.Scheduler.ColdStart
import FiduciaBrain.Scheduler.Contract
import FiduciaBrain.Scheduler.Leaders

/-!
# Initial placement

On a map with nothing in it, with no two healthy nodes in one domain, every candidate is in a fresh
domain for as long as a shard is being filled. So the shard goes to the least loaded nodes, and there
is no move left to make (`planReplicas_fresh`). The loads the walk carries stay even over it, and
with every healthy node a replica of every shard the leader loads do too (`initial_placement`).
-/

namespace FiduciaBrain.Scheduler

open Infra

/-! ## A shard without replicas -/

section

variable {healthy : List NodeSlot} {rf : Nat}

/-- While no two slots share a domain and none is in a used one, what the fill takes has no more load
than what it leaves. -/
theorem fill_least (n : Nat) {st : Fill} (hfresh : ∀ s ∈ st.remaining, s.domain ∉ st.usedDomains)
    (hapart : (st.remaining.map (·.domain)).Nodup) {s q : NodeSlot} (hs : s ∈ st.remaining)
    (htaken : s ∉ (fill n st).remaining) (hq : q ∈ (fill n st).remaining) : s.load ≤ q.load := by
  induction n generalizing st with
  | zero => exact absurd hs htaken
  | succ n ih =>
    unfold fill at htaken hq
    cases hpick : minBy (fillOrder st.usedDomains) st.remaining with
    | none =>
      rw [minBy_eq_none.mp hpick] at hs
      cases hs
    | some slot =>
      simp only [hpick] at htaken hq
      have hmem : slot ∈ st.remaining := minBy_mem hpick
      have hperm := (List.perm_cons_erase hmem).map (·.domain)
      obtain ⟨hnot, hrest⟩ := List.nodup_cons.mp (hperm.nodup_iff.mp hapart)
      by_cases hsame : s = slot
      · -- the pick comes before every slot that is left
        obtain ⟨picks, -, hleft, -, -⟩ := fill_picks n
          { chosen := st.chosen ++ [slot.nodeId]
            usedDomains := slot.domain :: st.usedDomains
            remaining := st.remaining.erase slot }
        have hq' : q ∈ st.remaining :=
          List.mem_of_mem_erase (hleft.subset (List.mem_append_right _ hq))
        rw [hsame]
        exact minBy_fillOrder_load hpick hq' (iff_of_false (hfresh q hq') (hfresh slot hmem))
      · -- the domain of the pick is used from here on, and no other candidate is in it
        refine ih (fun p hp => ?_) hrest ((List.mem_erase_of_ne hsame).mpr hs) htaken hq
        rw [List.mem_cons, not_or]
        refine ⟨fun heq => hnot ?_, hfresh p (List.mem_of_mem_erase hp)⟩
        exact List.mem_map.mpr ⟨p, hp, heq⟩

theorem fillStart_nil : fillStart [] healthy = ⟨[], [], healthy⟩ := by
  simp [fillStart, kept, keptDomains, spare]

/-- What the fill of a shard without replicas chooses and what it leaves are the candidates. -/
theorem filled_nil_parts (hid : (ids healthy).Nodup) :
    (∀ id, id ∈ ids healthy ↔ id ∈ (filled [] healthy rf).chosen ∨
      id ∈ ids (filled [] healthy rf).remaining) ∧
    (∀ s ∈ (filled [] healthy rf).remaining, s ∈ healthy ∧
      s.nodeId ∉ (filled [] healthy rf).chosen) ∧
    (filled [] healthy rf).chosen.length ≤ rf := by
  obtain ⟨picks, hchosen, hperm, -, hlen⟩ := fill_picks (rf - (kept [] healthy).length)
    (fillStart [] healthy)
  rw [← filled] at hchosen hperm
  simp only [fillStart_nil, List.nil_append] at hchosen hperm
  have hsplit : ((filled [] healthy rf).chosen ++ ids (filled [] healthy rf).remaining).Perm
      (ids healthy) := by
    rw [hchosen, ids, ids, ← List.map_append]
    exact hperm.map _
  have hnodup := hsplit.nodup_iff.mpr hid
  refine ⟨fun id => ?_, fun s hs => ⟨hperm.subset (List.mem_append_right _ hs), fun hmem => ?_⟩, ?_⟩
  · rw [← hsplit.mem_iff, List.mem_append]
  · exact (List.nodup_append.mp hnodup).2.2 _ hmem _ (List.mem_map_of_mem hs) rfl
  · rw [hchosen, ids, List.length_map, hlen]
    omega

/-- **A shard without replicas goes to the least loaded candidates**, when no two candidates share a
domain: what the fill has chosen is not moved any more. -/
theorem planReplicas_fresh (hid : (ids healthy).Nodup) (hapart : (healthy.map (·.domain)).Nodup)
    {x y : NodeId} (hx : x ∈ planReplicas [] healthy rf) (hy : y ∈ ids healthy)
    (hout : y ∉ planReplicas [] healthy rf) : loadFor healthy x ≤ loadFor healthy y := by
  obtain ⟨hall, hrem, hlen⟩ := @filled_nil_parts healthy rf hid
  have hcandidates : ∀ id ∈ (filled [] healthy rf).chosen, id ∈ ids healthy := fun id h =>
    (hall id).mpr (.inl h)
  have hleast : ∀ v ∈ (filled [] healthy rf).chosen, ∀ c ∈ (filled [] healthy rf).remaining,
      loadFor healthy v ≤ c.load := by
    intro v hv c hc
    obtain ⟨s, hs, rfl⟩ := List.mem_map.mp (hcandidates v hv)
    have htaken : s ∉ (filled [] healthy rf).remaining := fun h => (hrem s h).2 hv
    rw [filled, fillStart_nil] at htaken hc
    rw [loadFor_of_mem hid hs]
    exact fill_least _ (fun _ _ => List.not_mem_nil) hapart hs htaken hc
  have hspread : ((filled [] healthy rf).chosen.map (domainFor healthy)).Nodup := by
    obtain ⟨hchosen, -⟩ := @nodup_filled_parts [] healthy rf List.nodup_nil hid
    refine hchosen.map_on (fun u hu v hv heq => ?_)
    obtain ⟨s, hs, rfl⟩ := List.mem_map.mp (hcandidates u hu)
    obtain ⟨t, ht, rfl⟩ := List.mem_map.mp (hcandidates v hv)
    rw [domainFor_of_mem hid hs, domainFor_of_mem hid ht] at heq
    rw [List.inj_on_of_nodup_map hapart hs ht heq]
  have hstays : planReplicas [] healthy rf = (filled [] healthy rf).chosen := by
    rw [planReplicas_eq_filled, trimToRf_of_le hlen]
    rcases rebalance_cases healthy rf (filled [] healthy rf).chosen
        (filled [] healthy rf).remaining with ⟨heq, -⟩ | ⟨-, best, hbest, -, -⟩
    · exact heq
    · obtain ⟨v, hv, c, hc, hlt, -⟩ := (exists_swap_iff hid hcandidates hspread hrem).mp
        (List.ne_nil_of_mem hbest)
      exact absurd (hleast v hv c hc) (Nat.not_le.mpr hlt)
  rw [hstays] at hx hout
  obtain ⟨c, hc, rfl⟩ := List.mem_map.mp (((hall y).mp hy).resolve_left hout)
  rw [loadFor_of_mem hid (hrem c hc).1]
  exact hleast x hx c hc

end

/-! ## The first tick -/

/-- How many of some assignments prefer a node as leader. -/
def leaderCount (assignments : List ShardAssignment) (id : NodeId) : Nat :=
  (assignments.map (·.preferredLeader.toList.count id)).sum

/-- Nothing is placed and no policy is set. The healthy nodes are as many as replicas are wanted or
more, all of them active, host nothing, and no two are in one domain. -/
structure Initial (sm : StateMachine) : Prop where
  empty : ∀ s, sm.placement.get s = none
  noPolicy : ∀ s, sm.placement.policy s = none
  enough : Tick.rfOf sm ≤ (healthyNodes sm).length
  target : (healthyNodes sm).length ≤ sm.plan.targetNodes
  idle : ∀ info ∈ sm.membership.snapshot, info.health = .healthy → info.hostedShards = []
  apart : ((sm.membership.snapshot.filter (·.health = .healthy)).map (·.failureDomain)).Nodup

/-- Every shard is on as many distinct healthy nodes as replicas are wanted and is led by one of
them, and no two healthy nodes are further apart than one replica or, when every one of them has
every shard, than one leadership. -/
structure Balanced (sm sm' : StateMachine) : Prop where
  placed : ∀ s < sm.placement.shardCount, ∃ a, sm'.placement.get s = some a ∧
    a.replicas.Nodup ∧ a.replicas.length = Tick.rfOf sm ∧ (∀ x ∈ a.replicas, x ∈ healthyNodes sm) ∧
      ∃ l ∈ a.replicas, a.preferredLeader = some l
  replicas : ∀ x ∈ healthyNodes sm, ∀ y ∈ healthyNodes sm,
    replicaCount sm'.placement.snapshot x ≤ replicaCount sm'.placement.snapshot y + 1
  leaders : (healthyNodes sm).length = Tick.rfOf sm →
    ∀ x ∈ healthyNodes sm, ∀ y ∈ healthyNodes sm,
      leaderCount sm'.placement.snapshot x ≤ leaderCount sm'.placement.snapshot y + 1

section

variable {sm : StateMachine} {s : ShardId}

theorem leaderCount_snapshot {K : Finset ShardId} (h : Covers K sm) (x : NodeId) :
    leaderCount sm.placement.snapshot x = loadOf K (leaders sm) x := by
  rw [leaders_eq]
  exact sum_snapshot h (·.preferredLeader.toList) x

namespace Initial

theorem activeNodes_eq (h : Initial sm) : activeNodes sm = healthyNodes sm :=
  if_pos (h.target.trans (le_max_left _ _))

theorem currentReplicas_nil (h : Initial sm) : currentReplicas sm s = [] :=
  currentReplicas_eq_nil (h.empty s) fun info hinfo hhealthy => by
    rw [h.idle info hinfo hhealthy]
    exact List.not_mem_nil

theorem replicasOf_nil (h : Initial sm) : replicasOf sm s = [] := by
  rw [replicasOf, h.empty s]
  rfl

theorem leaders_nil (h : Initial sm) : leaders sm s = [] := by
  rw [leaders, leaderOf, h.empty s]
  rfl

theorem live (h : Initial sm) (hs : s < sm.placement.shardCount) : Live sm s := by
  refine ⟨hs, not_held_of_subset ?_⟩
  rw [h.currentReplicas_nil]
  exact fun r hr => absurd hr List.not_mem_nil

theorem mapped (h : Initial sm) : Mapped sm := fun _ _ =>
  h.currentReplicas_nil.trans h.replicasOf_nil.symm

/-! ## One shard -/

theorem nextAssignment_eq (h : Initial sm) :
    (nextAssignment sm s).replicas
      = planReplicas [] ((Tick.of sm).slots (before sm s).load) (Tick.rfOf sm) := by
  rw [nextAssignment_eq_desired, h.currentReplicas_nil]
  rfl

theorem apart_slots (h : Initial sm) (load : Loads) :
    (((Tick.of sm).slots load).map (·.domain)).Nodup := by
  have hactive : (Tick.of sm).healthyIds = healthyNodes sm := h.activeNodes_eq
  have hsame : ((Tick.of sm).slots load).map (·.domain)
      = (sm.membership.snapshot.filter (·.health = .healthy)).map (·.failureDomain) := by
    rw [Tick.slots, hactive, healthyNodes, allHealthyIds, List.map_map, List.map_map]
    refine List.map_congr_left (fun info hinfo => ?_)
    have hget := Membership.mem_snapshot.mp (List.mem_of_mem_filter hinfo)
    simp [Tick.domainOf, Tick.info_eq, hget]
  rw [hsame]
  exact h.apart

theorem nodup_next (h : Initial sm) : (nextAssignment sm s).replicas.Nodup := by
  rw [h.nextAssignment_eq]
  exact nodup_planReplicas (by rw [Tick.ids_slots]; exact Tick.nodup_healthyIds sm) List.nodup_nil

theorem length_next (h : Initial sm) : (nextAssignment sm s).replicas.length = Tick.rfOf sm := by
  have hmany := (Tick.of sm).length_healthyIds_le (Tick.nodup_healthyIds sm) (currentReplicas sm s)
  have henough := h.enough
  rw [← h.activeNodes_eq, activeNodes] at henough
  rw [nextAssignment_eq_desired, Tick.length_desired]
  exact Nat.min_eq_left (henough.trans hmany)

theorem next_ne_nil (h : Initial sm) : (nextAssignment sm s).replicas ≠ [] := by
  have hone := Tick.one_le_rf sm
  exact List.ne_nil_of_length_pos (h.length_next ▸ hone)

theorem mem_next_healthy (h : Initial sm) {x : NodeId} (hx : x ∈ (nextAssignment sm s).replicas) :
    x ∈ healthyNodes sm := h.activeNodes_eq ▸ mem_nextAssignment_active hx

theorem get_reconcile (h : Initial sm) (hs : s < sm.placement.shardCount) :
    (reconcile true sm).placement.get s = some (nextAssignment sm s) := by
  rw [get_reconcile_of_live (h.live hs), if_neg (fun hnil => h.next_ne_nil hnil.2)]

/-- **A node that gets the shard carries no more than one that does not.** -/
theorem load_next_le (h : Initial sm) {x y : NodeId} (hx : x ∈ (nextAssignment sm s).replicas)
    (hy : y ∈ healthyNodes sm) (hout : y ∉ (nextAssignment sm s).replicas) :
    (before sm s).load.get x ≤ (before sm s).load.get y := by
  have hnodup := Tick.nodup_healthyIds sm
  have hx' : x ∈ (Tick.of sm).healthyIds := mem_nextAssignment_active hx
  have hy' : y ∈ (Tick.of sm).healthyIds := by
    rw [← h.activeNodes_eq] at hy
    exact hy
  rw [h.nextAssignment_eq] at hx hout
  have hleast := planReplicas_fresh (by rwa [Tick.ids_slots]) (h.apart_slots _) hx
    (by rwa [Tick.ids_slots]) hout
  rwa [Tick.loadFor_slots _ hnodup hx', Tick.loadFor_slots _ hnodup hy'] at hleast

/-- With no policy the leader is a node that leads least. -/
theorem lead_next_le (h : Initial sm) :
    ∃ l ∈ (nextAssignment sm s).replicas, (nextAssignment sm s).preferredLeader = some l ∧
      ∀ x ∈ (nextAssignment sm s).replicas, othersLead sm s l ≤ othersLead sm s x := by
  obtain ⟨l, hl, hleader, hmax⟩ := @nextLeader_max sm s h.next_ne_nil
  refine ⟨l, hl, hleader, fun x hx => ?_⟩
  have hsame : affinityAt sm s x = affinityAt sm s l := by
    rw [affinityAt, affinityAt, h.noPolicy s]
    rfl
  -- with equal affinities the next component of the key decides
  have hkey := hmax x hx
  rw [hsame, Prod.Lex.toLex_le_toLex, Prod.Lex.toLex_le_toLex, OrderDual.toDual_lt_toDual,
    OrderDual.toDual_inj] at hkey
  rcases hkey with hlt | ⟨-, hless | ⟨heq, -⟩⟩
  · exact absurd hlt (lt_irrefl _)
  · exact hless.le
  · exact heq.ge

/-! ## The walk -/

theorem even_replicas (h : Initial sm) {K : Finset ShardId} (hK : Covers K sm) :
    EvenLoads (healthyNodes sm) (loadOf K (replicasOf (reconcile true sm))) := by
  rw [← layoutAt_shardCount, layoutAt_eq]
  have hnew : ∀ n < sm.placement.shardCount,
      replicasOf (reconcile true sm) n = (nextAssignment sm n).replicas := fun n hn =>
    replicasOf_reconcile_of_live (h.live hn)
  refine evenLoads_upTo hK.inRange (fun x _ y _ => ?_) (fun n _ => h.replicasOf_nil)
    (fun n hn => hnew n hn ▸ h.nodup_next) (fun n hn x hx y hy hin hout => ?_)
  · simp [loadOf, h.replicasOf_nil]
  · rw [hnew n hn] at hin hout
    have hle := h.load_next_le hin hy hout
    rw [← h.activeNodes_eq] at hx hy
    rwa [Loads.get, Loads.get, before_load h.mapped hK hx hn.le, before_load h.mapped hK hy hn.le]
      at hle

/-- With no more healthy nodes than replicas every one of them has every shard. -/
theorem mem_next_iff (h : Initial sm) (hall : (healthyNodes sm).length = Tick.rfOf sm) {x : NodeId} :
    x ∈ (nextAssignment sm s).replicas ↔ x ∈ healthyNodes sm := by
  have hsub : (nextAssignment sm s).replicas.Subperm (healthyNodes sm) :=
    h.nodup_next.subperm (fun _ hr => h.mem_next_healthy hr)
  exact (hsub.perm_of_length_le (hall.trans h.length_next.symm).le).mem_iff

theorem even_leaders (h : Initial sm) {K : Finset ShardId} (hK : Covers K sm)
    (hall : (healthyNodes sm).length = Tick.rfOf sm) :
    EvenLoads (healthyNodes sm) (loadOf K (leaders (reconcile true sm))) := by
  rw [← leadersAt_shardCount, leadersAt]
  refine evenLoads_upTo hK.inRange (fun x _ y _ => ?_) (fun n _ => h.leaders_nil)
    (fun n _ => ?_) (fun n hn x hx y hy hin _ => ?_)
  · simp [loadOf, h.leaders_nil]
  · rw [leaders]
    cases leaderOf (reconcile true sm) n <;> simp
  · obtain ⟨l, -, hleader, hleast⟩ := @lead_next_le sm n h
    rw [leaders, leaderOf_reconcile_of_live (h.live hn), hleader, Option.mem_toList,
      Option.some_inj] at hin
    have hle := hleast y ((h.mem_next_iff hall).mpr hy)
    rw [← h.activeNodes_eq] at hx hy
    rw [hin, othersLead_eq hK hx hn.le, othersLead_eq hK hy hn.le, h.leaders_nil, List.count_nil,
      List.count_nil] at hle
    exact hle

end Initial

/-- **Initial placement is balanced.** -/
theorem initial_placement (h : Initial sm) : Balanced sm (reconcile true sm) := by
  obtain ⟨K, hK⟩ := exists_covers sm
  refine ⟨fun s hs => ?_, fun x hx y hy => ?_, fun hall x hx y hy => ?_⟩
  · obtain ⟨l, hl, hleader, -⟩ := @Initial.lead_next_le sm s h
    exact ⟨nextAssignment sm s, h.get_reconcile hs, h.nodup_next, h.length_next,
      fun _ hx => h.mem_next_healthy hx, l, hl, hleader⟩
  · rw [replicaCount_snapshot hK.reconcile, replicaCount_snapshot hK.reconcile]
    exact h.even_replicas hK x hx y hy
  · rw [leaderCount_snapshot hK.reconcile, leaderCount_snapshot hK.reconcile]
    exact h.even_leaders hK hall x hx y hy

end

/-- Three nodes in three domains, with nothing placed. -/
def emptyCluster (replicationFactor : Nat) : StateMachine where
  membership := registryOf [("a", "gcp", 0), ("b", "aws", 0), ("c", "hetzner", 0)]
  placement := Placement.new 4
  plan := ⟨3, replicationFactor⟩

theorem initial_emptyCluster {rf : Nat} (h : rf = 2 ∨ rf = 3) : Initial (emptyCluster rf) where
  empty := fun _ => by simp [emptyCluster, Placement.new, Placement.get]
  noPolicy := fun _ => by simp [emptyCluster, Placement.new, Placement.policy]
  enough := by rcases h with rfl | rfl <;> decide +kernel
  target := by rcases h with rfl | rfl <;> decide +kernel
  idle := by rcases h with rfl | rfl <;> decide +kernel
  apart := by rcases h with rfl | rfl <;> decide +kernel

/-- Four shards on three nodes, with two replicas each, and with one on every node. -/
theorem initial_placement_three :
    Balanced (emptyCluster 2) (reconcile true (emptyCluster 2)) ∧
      Balanced (emptyCluster 3) (reconcile true (emptyCluster 3)) :=
  ⟨initial_placement (initial_emptyCluster (.inl rfl)),
    initial_placement (initial_emptyCluster (.inr rfl))⟩

end FiduciaBrain.Scheduler
