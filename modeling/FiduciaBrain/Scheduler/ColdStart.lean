import FiduciaBrain.Scheduler.Loads
import FiduciaBrain.Scheduler.Placed
import FiduciaBrain.Scheduler.Spread

/-!
# Cold start

With an empty map the walk starts from what the healthy nodes report and counts loads from zero: a
node has load 1 as soon as the walk has adopted a shard it hosts, and 0 before
(`load_of_adopted`). A shard whose hosts are all active and in distinct domains keeps them unless some
idle node looks better at that point, so whether the layout is adopted is decided by the order of the
shards (`cold_start_adopts_iff`).
-/

namespace FiduciaBrain.Scheduler

open Infra

/-! ## When a spread set moves -/

section

variable {healthy : List NodeSlot} {chosen : List NodeId} {remaining : List NodeSlot}

/-- Putting `c` in the place of `v` keeps the domains distinct exactly when no other replica has the
domain of `c`. -/
theorem spread_set_iff {f : NodeId → String} (hspread : (chosen.map f).Nodup) {i : Nat}
    {v c : NodeId} (hi : chosen[i]? = some v) (hc : c ∉ chosen) :
    ((chosen.set i c).map f).Nodup ↔ ∀ u ∈ chosen, u ≠ v → f u ≠ f c := by
  obtain ⟨hlt, hv⟩ := List.getElem?_eq_some_iff.mp hi
  constructor
  · intro hnodup u hu huv heq
    obtain ⟨j, hj⟩ := List.mem_iff_getElem?.mp hu
    have hij : i ≠ j := by
      rintro rfl
      rw [hi] at hj
      cases hj
      exact huv rfl
    have hmem : u ∈ chosen.set i c :=
      List.mem_iff_getElem?.mpr ⟨j, by rw [List.getElem?_set_ne hij, hj]⟩
    have hsame := List.inj_on_of_nodup_map hnodup hmem (List.mem_set hlt c) heq
    exact hc (hsame ▸ hu)
  · intro hother
    rw [List.map_set]
    by_cases hfresh : f c ∈ chosen.map f
    · -- only `v` can have the domain of `c`
      obtain ⟨u, hu, heq⟩ := List.mem_map.mp hfresh
      have huv : u = v := by
        by_contra hne
        exact hother u hu hne heq
      have hsame : (chosen.map f).set i (f c) = chosen.map f := by
        rw [← heq, huv, ← hv, ← List.map_set, List.set_getElem_self]
      rwa [hsame]
    · exact hspread.set hfresh

/-- A set in distinct domains moves exactly to a less loaded candidate whose domain no other replica
has. -/
theorem exists_swap_iff (hid : (ids healthy).Nodup) (hchosen : ∀ id ∈ chosen, id ∈ ids healthy)
    (hspread : (chosen.map (domainFor healthy)).Nodup)
    (hrem : ∀ s ∈ remaining, s ∈ healthy ∧ s.nodeId ∉ chosen) :
    swaps healthy chosen remaining ≠ [] ↔
      ∃ v ∈ chosen, ∃ c ∈ remaining, c.load < loadFor healthy v ∧
        ∀ u ∈ chosen, u ≠ v → domainFor healthy u ≠ c.domain := by
  have hcount : domainCount chosen healthy = chosen.length := by
    rw [domainCount, domainsOf_eq hchosen]
    exact card_colours_eq_length_iff.mpr hspread
  have hset : ∀ c ∈ remaining, ∀ i, ∀ id ∈ chosen.set i c.nodeId, id ∈ ids healthy :=
    fun c hc => mem_ids_of_mem_set hchosen (hrem c hc).1
  have hgain : ∀ c ∈ remaining, ∀ i v, chosen[i]? = some v →
      (trialSwap healthy chosen c v i).domainGain ≤ 0 ∧
        ((trialSwap healthy chosen c v i).domainGain = 0 ↔
          ∀ u ∈ chosen, u ≠ v → domainFor healthy u ≠ c.domain) := by
    intro c hc i v hi
    have hle := card_colours_le_length (domainFor healthy) (chosen.set i c.nodeId)
    have hiff := card_colours_eq_length_iff (f := domainFor healthy) (l := chosen.set i c.nodeId)
    rw [spread_set_iff hspread hi (hrem c hc).2, domainFor_of_mem hid (hrem c hc).1] at hiff
    rw [← domainsOf_eq (hset c hc i), List.length_set] at hle hiff
    rw [← hiff]
    simp only [trialSwap, domainCount] at hcount ⊢
    omega
  constructor
  · intro hne
    obtain ⟨s, hs⟩ := List.exists_mem_of_ne_nil _ hne
    obtain ⟨c, hc, i, v, hi, rfl, hw⟩ := mem_swaps.mp hs
    obtain ⟨hle, hiff⟩ := hgain c hc i v hi
    rw [Swap.worthwhile_iff] at hw
    have hload : 0 < (trialSwap healthy chosen c v i).loadDelta := by omega
    simp only [trialSwap] at hload
    exact ⟨v, List.mem_of_getElem? hi, c, hc, by omega, hiff.mp (by omega)⟩
  · rintro ⟨v, hv, c, hc, hload, hother⟩
    obtain ⟨i, hi⟩ := List.mem_iff_getElem?.mp hv
    have hzero := (hgain c hc i v hi).2.mpr hother
    have hmem : trialSwap healthy chosen c v i ∈ swaps healthy chosen remaining := by
      refine mem_swaps.mpr ⟨c, hc, i, v, hi, rfl, (Swap.worthwhile_iff _).mpr (.inr ⟨hzero, ?_⟩)⟩
      simp only [trialSwap]
      omega
    exact List.ne_nil_of_mem hmem

end

/-! ## The reported layout -/

/-- The healthy nodes that report hosting a shard. -/
def hosts (sm : StateMachine) (s : ShardId) : List NodeId := (Tick.of sm).observedReplicas s

/-- Nothing is placed, and every shard is hosted by `rf` healthy nodes in `rf` domains. -/
structure ColdStart (sm : StateMachine) : Prop where
  empty : ∀ s, sm.placement.get s = none
  sanitized : ∀ (id : NodeId) (info : NodeInfo), sm.membership.nodes[id]? = some info →
    info.hostedShards.Nodup
  hosted : ∀ s, s < sm.placement.shardCount →
    (hosts sm s).length = Tick.rfOf sm ∧ spread sm (hosts sm s) = Tick.rfOf sm

/-- The node hosts a shard that the walk meets before `s`. -/
def HostsEarlier (sm : StateMachine) (s : ShardId) (n : NodeId) : Prop := ∃ s' < s, n ∈ hosts sm s'

instance (sm : StateMachine) (s : ShardId) (n : NodeId) : Decidable (HostsEarlier sm s n) :=
  inferInstanceAs (Decidable (∃ s' < s, n ∈ hosts sm s'))

/-- An active node that is no host of `s` and hosts nothing the walk has met looks better than the
host `v`, which hosts something it has met, and its domain is that of no other host. -/
def Tempted (sm : StateMachine) (s : ShardId) (v c : NodeId) : Prop :=
  v ∈ hosts sm s ∧ c ∈ activeNodes sm ∧ c ∉ hosts sm s ∧
    HostsEarlier sm s v ∧ ¬ HostsEarlier sm s c ∧
    ∀ u ∈ hosts sm s, u ≠ v → failureDomainOf sm u ≠ failureDomainOf sm c

/-- Every shard is assigned exactly its hosts. -/
def Adopts (sm : StateMachine) : Prop :=
  ∀ s, s < sm.placement.shardCount →
    ∃ a, (reconcile true sm).placement.get s = some a ∧ ∀ n, n ∈ a.replicas ↔ n ∈ hosts sm s

section

variable {sm : StateMachine} {s : ShardId}

theorem currentReplicas_eq_hosts (h : ColdStart sm) : currentReplicas sm s = hosts sm s := by
  rw [currentReplicas, h.empty s]
  rfl

theorem nodup_hosts (h : ColdStart sm) : (hosts sm s).Nodup :=
  nodup_observedReplicas rfl h.sanitized s

theorem count_hosts (h : ColdStart sm) (n : NodeId) :
    (hosts sm s).count n = if n ∈ hosts sm s then 1 else 0 := by
  split
  · next hmem => exact List.count_eq_one_of_mem (nodup_hosts h) hmem
  · next hnot => exact List.count_eq_zero_of_not_mem hnot

/-- The load the walk has for a node when it arrives at a shard, while it adopts. -/
def adoptedLoad (sm : StateMachine) (s : ShardId) (n : NodeId) : Nat :=
  if HostsEarlier sm s n then 1 else 0

/-- All hosts of a shard are active. -/
def HostsActive (sm : StateMachine) (s : ShardId) : Prop := ∀ n ∈ hosts sm s, n ∈ activeNodes sm

theorem not_held_of_active (h : ColdStart sm) (hs : s < sm.placement.shardCount)
    (hactive : HostsActive sm s) : (Tick.of sm).held (currentReplicas sm s) = false := by
  rw [currentReplicas_eq_hosts h, ← Bool.not_eq_true, held_iff]
  have hle : (hosts sm s).length ≤ (activeNodes sm).length :=
    ((nodup_hosts h).subperm hactive).length_le
  rintro (⟨r, hr, hnone⟩ | ⟨hlt, -⟩)
  · obtain ⟨info, hinfo, -⟩ := mem_allHealthyIds.mp (Tick.healthyIds_subset sm (hactive r hr))
    rw [hinfo] at hnone
    cases hnone
  · have hfew := (Tick.length_healthyIds_lt_rf sm).mpr hlt
    rw [(h.hosted s hs).1] at hle
    exact absurd hle (Nat.not_le.mpr hfew)

/-- A shard whose hosts are active is only moved. -/
theorem nextAssignment_eq_rebalance (h : ColdStart sm) (hs : s < sm.placement.shardCount)
    (hactive : HostsActive sm s) :
    (nextAssignment sm s).replicas
      = rebalance ((Tick.of sm).slots (before sm s).load) (Tick.rfOf sm) (hosts sm s)
          (spare (hosts sm s) ((Tick.of sm).slots (before sm s).load)) := by
  rw [nextAssignment_eq_desired, currentReplicas_eq_hosts h, Tick.desired]
  exact planReplicas_settled (fun id hid => by rw [Tick.ids_slots]; exact hactive id hid)
    (.inl (h.hosted s hs).1)

theorem adoptedLoad_lt {v c : NodeId} :
    adoptedLoad sm s c < adoptedLoad sm s v ↔ HostsEarlier sm s v ∧ ¬ HostsEarlier sm s c := by
  unfold adoptedLoad
  split <;> split <;> simp_all

/-- The move is there exactly when some node is tempting. -/
theorem swaps_ne_nil_iff (h : ColdStart sm) (hs : s < sm.placement.shardCount)
    (hactive : HostsActive sm s)
    (hload : ∀ n ∈ activeNodes sm, (before sm s).load n = some (adoptedLoad sm s n)) :
    swaps ((Tick.of sm).slots (before sm s).load) (hosts sm s)
        (spare (hosts sm s) ((Tick.of sm).slots (before sm s).load)) ≠ [] ↔
      ∃ v c, Tempted sm s v c := by
  have hnodup := Tick.nodup_healthyIds sm
  have hdomain : ∀ n ∈ activeNodes sm,
      domainFor ((Tick.of sm).slots (before sm s).load) n = failureDomainOf sm n := fun n hn => by
    rw [Tick.domainFor_slots _ hnodup hn, domainOf_eq_failureDomainOf]
  have hget : ∀ n ∈ activeNodes sm, (before sm s).load.get n = adoptedLoad sm s n := fun n hn => by
    rw [Loads.get, hload n hn, Option.getD_some]
  have hspread : ((hosts sm s).map (domainFor ((Tick.of sm).slots (before sm s).load))).Nodup := by
    rw [List.map_congr_left (fun n hn => hdomain n (hactive n hn))]
    refine card_colours_eq_length_iff.mp ?_
    exact (h.hosted s hs).2.trans (h.hosted s hs).1.symm
  rw [exists_swap_iff (by rwa [Tick.ids_slots])
    (fun n hn => by rw [Tick.ids_slots]; exact hactive n hn) hspread (fun c hc => mem_spare.mp hc)]
  constructor
  · rintro ⟨v, hv, c, hc, hlt, hother⟩
    rw [Tick.spare_slots] at hc
    obtain ⟨n, hn, rfl⟩ := List.mem_map.mp hc
    obtain ⟨hna, hnh⟩ := (Tick.of sm).mem_idle.mp hn
    rw [Tick.loadFor_slots _ hnodup (hactive v hv), hget v (hactive v hv)] at hlt
    obtain ⟨hve, hce⟩ := adoptedLoad_lt.mp ((hget n hna) ▸ hlt)
    refine ⟨v, n, hv, hna, hnh, hve, hce, fun u hu huv => ?_⟩
    rw [← hdomain u (hactive u hu), ← domainOf_eq_failureDomainOf]
    exact hother u hu huv
  · rintro ⟨v, n, hv, hna, hnh, hve, hce, hother⟩
    refine ⟨v, hv, ⟨n, (Tick.of sm).domainOf n, (before sm s).load.get n⟩, ?_, ?_, ?_⟩
    · rw [Tick.spare_slots]
      exact List.mem_map.mpr ⟨n, (Tick.of sm).mem_idle.mpr ⟨hna, hnh⟩, rfl⟩
    · rw [Tick.loadFor_slots _ hnodup (hactive v hv), hget v (hactive v hv)]
      exact (hget n hna) ▸ adoptedLoad_lt.mpr ⟨hve, hce⟩
    · intro u hu huv
      rw [hdomain u (hactive u hu), domainOf_eq_failureDomainOf]
      exact hother u hu huv

/-- Without a tempting node the hosts stay. -/
theorem nextAssignment_of_not_tempted (h : ColdStart sm) (hs : s < sm.placement.shardCount)
    (hactive : HostsActive sm s)
    (hload : ∀ n ∈ activeNodes sm, (before sm s).load n = some (adoptedLoad sm s n))
    (hnot : ¬ ∃ v c, Tempted sm s v c) : (nextAssignment sm s).replicas = hosts sm s := by
  rw [nextAssignment_eq_rebalance h hs hactive]
  rcases rebalance_cases ((Tick.of sm).slots (before sm s).load) (Tick.rfOf sm) (hosts sm s)
      (spare (hosts sm s) ((Tick.of sm).slots (before sm s).load)) with
    ⟨heq, -⟩ | ⟨-, best, hbest, -, -⟩
  · exact heq
  · exact absurd ((swaps_ne_nil_iff h hs hactive hload).mp (List.ne_nil_of_mem hbest)) hnot

/-- With one a node that is no host is assigned. -/
theorem not_tempted_of_adopted (h : ColdStart sm) (hs : s < sm.placement.shardCount)
    (hactive : HostsActive sm s)
    (hload : ∀ n ∈ activeNodes sm, (before sm s).load n = some (adoptedLoad sm s n))
    (hadopted : ∀ n, n ∈ (nextAssignment sm s).replicas → n ∈ hosts sm s) :
    ¬ ∃ v c, Tempted sm s v c := by
  intro htempted
  rw [nextAssignment_eq_rebalance h hs hactive] at hadopted
  rcases rebalance_cases ((Tick.of sm).slots (before sm s).load) (Tick.rfOf sm) (hosts sm s)
      (spare (hosts sm s) ((Tick.of sm).slots (before sm s).load)) with
    ⟨-, hnil⟩ | ⟨-, best, hbest, -, heq⟩
  · exact (swaps_ne_nil_iff h hs hactive hload).mpr htempted (hnil (h.hosted s hs).1)
  · obtain ⟨c, hc, hcid, hlt⟩ := candidate_of_mem_swaps hbest
    rw [heq] at hadopted
    exact (mem_spare.mp hc).2 (hcid ▸ hadopted _ (List.mem_set hlt best.candidateId))

/-! ## The walk -/

theorem snapshot_of_empty (h : ∀ s, sm.placement.get s = none) : sm.placement.snapshot = [] := by
  refine List.eq_nil_iff_forall_not_mem.mpr (fun a ha => ?_)
  have hget : sm.placement.get a.shardId = some a := Assignments.mem_snapshot.mp ha
  rw [h] at hget
  cases hget

theorem start_load_of_empty (h : ColdStart sm) {n : NodeId} (hn : n ∈ activeNodes sm) :
    (before sm 0).load n = some (adoptedLoad sm 0 n) := by
  have hsnapshot : sm.placement.snapshot = [] := snapshot_of_empty h.empty
  have hactive : n ∈ (Tick.of sm).healthyIds := hn
  have hnone : ¬ HostsEarlier sm 0 n := fun ⟨s', hs', _⟩ => Nat.not_lt_zero s' hs'
  rw [before, Tick.walk_zero, start_load, if_pos hactive, hsnapshot, adoptedLoad, if_neg hnone]
  rfl

/-- **A node has load 1 once a shard it hosts is adopted.** -/
theorem load_of_adopted (h : ColdStart sm) (hs : s ≤ sm.placement.shardCount)
    (hactive : ∀ s', s' < s → HostsActive sm s')
    (hadopted : ∀ s', s' < s → (nextAssignment sm s').replicas = hosts sm s') {n : NodeId}
    (hn : n ∈ activeNodes sm) : (before sm s).load n = some (adoptedLoad sm s n) := by
  induction s with
  | zero => exact start_load_of_empty h hn
  | succ s ih =>
    have hlast : s < s + 1 := Nat.lt_succ_self s
    have ih := ih (Nat.le_of_succ_le hs) (fun s' hs' => hactive s' (hs'.trans hlast))
      (fun s' hs' => hadopted s' (hs'.trans hlast))
    rw [before_succ_load, not_held_of_active h hs (hactive s hlast), if_neg (by simp), ih,
      currentReplicas_eq_hosts h, hadopted s hlast, Option.map_some, count_hosts h]
    congr 1
    have hstep : HostsEarlier sm (s + 1) n ↔ HostsEarlier sm s n ∨ n ∈ hosts sm s := by
      constructor
      · rintro ⟨s', hs', hmem⟩
        rcases Nat.lt_succ_iff_lt_or_eq.mp hs' with hlt | rfl
        · exact .inl ⟨s', hlt, hmem⟩
        · exact .inr hmem
      · rintro (⟨s', hs', hmem⟩ | hmem)
        · exact ⟨s', hs'.trans hlast, hmem⟩
        · exact ⟨s, hlast, hmem⟩
    unfold adoptedLoad
    simp only [hstep]
    split <;> split <;> simp_all

/-- While no shard is tempted the walk adopts each of them. -/
theorem nextAssignment_of_none_tempted (h : ColdStart sm)
    (hactive : ∀ s', s' < sm.placement.shardCount → HostsActive sm s')
    (hnot : ∀ s', s' ≤ s → ¬ ∃ v c, Tempted sm s' v c) (hs : s < sm.placement.shardCount) :
    (nextAssignment sm s).replicas = hosts sm s := by
  induction s using Nat.strong_induction_on with
  | _ s ih =>
    have hload : ∀ n ∈ activeNodes sm, (before sm s).load n = some (adoptedLoad sm s n) :=
      fun n hn => load_of_adopted h hs.le (fun s' hs' => hactive s' (hs'.trans hs))
        (fun s' hs' => ih s' hs' (fun s'' hs'' => hnot s'' (hs''.trans hs'.le)) (hs'.trans hs)) hn
    exact nextAssignment_of_not_tempted h hs (hactive s hs) hload (hnot s (le_refl s))

/-- What adoption says of the walk. -/
theorem mem_nextAssignment_of_adopts (h : ColdStart sm) (hadopts : Adopts sm)
    (hs : s < sm.placement.shardCount) (n : NodeId) :
    n ∈ (nextAssignment sm s).replicas ↔ n ∈ hosts sm s := by
  obtain ⟨a, ha, hmem⟩ := hadopts s hs
  rw [get_reconcile, h.empty s] at ha
  split at ha
  · split at ha
    · cases ha
    · cases ha
      exact hmem n
  · cases ha

/-- **When a cold start adopts the running layout**: every host is active, and the walk meets no
shard at which some active node looks better than a host. -/
theorem cold_start_adopts_iff (h : ColdStart sm) :
    Adopts sm ↔ ∀ s, s < sm.placement.shardCount →
      HostsActive sm s ∧ ¬ ∃ v c, Tempted sm s v c := by
  constructor
  · intro hadopts
    have hactive : ∀ s, s < sm.placement.shardCount → HostsActive sm s := by
      intro s hs n hn
      have hmem := (mem_nextAssignment_of_adopts h hadopts hs n).mpr hn
      rw [nextAssignment_eq_desired] at hmem
      exact (Tick.of sm).mem_desired hmem
    have hall : ∀ s, s < sm.placement.shardCount → ¬ ∃ v c, Tempted sm s v c := by
      intro s
      induction s using Nat.strong_induction_on with
      | _ s ih =>
        intro hs
        have hload : ∀ n ∈ activeNodes sm, (before sm s).load n = some (adoptedLoad sm s n) :=
          fun n hn => load_of_adopted h hs.le (fun s' hs' => hactive s' (hs'.trans hs))
            (fun s' hs' => nextAssignment_of_none_tempted h hactive
              (fun s'' hs'' => ih s'' (lt_of_le_of_lt hs'' hs') ((lt_of_le_of_lt hs'' hs').trans hs))
              (hs'.trans hs)) hn
        exact not_tempted_of_adopted h hs (hactive s hs) hload
          (fun n hn => (mem_nextAssignment_of_adopts h hadopts hs n).mp hn)
    exact fun s hs => ⟨hactive s hs, hall s hs⟩
  · intro hcond s hs
    have hactive : ∀ s', s' < sm.placement.shardCount → HostsActive sm s' :=
      fun s' hs' => (hcond s' hs').1
    have hsame : (nextAssignment sm s).replicas = hosts sm s :=
      nextAssignment_of_none_tempted h hactive
        (fun s' hs' => (hcond s' (lt_of_le_of_lt hs' hs)).2) hs
    refine ⟨nextAssignment sm s, ?_, fun n => by rw [hsame]⟩
    rw [get_reconcile, if_pos ⟨hs, not_held_of_active h hs (hactive s hs)⟩, if_neg]
    rintro ⟨-, hnil⟩
    have hlen := (h.hosted s hs).1
    have hone : 1 ≤ Tick.rfOf sm := le_max_right _ _
    rw [← hsame, hnil, List.length_nil] at hlen
    omega

end

/-! ## Restarted clusters -/

/-- Nodes that each reported once: id, failure domain, hosted shards. -/
def hostingRegistry (nodes : List (NodeId × String × List ShardId)) : Membership :=
  nodes.foldl
    (fun m n => (m.heartbeat n.1 0 { plainReport n.2.1 with hostedShards := n.2.2 }).2) .new

/-- A brain that restarted with an empty map. -/
def restarted (shardCount : Nat) (plan : ScalePlan)
    (nodes : List (NodeId × String × List ShardId)) : StateMachine :=
  { fresh shardCount plan with membership := hostingRegistry nodes }

/-- How many nodes report hosting some shard. -/
def hostingNodes (sm : StateMachine) : Nat :=
  (sm.membership.snapshot.filter (fun info => info.hostedShards ≠ [])).length

theorem coldStart_restarted {shardCount : Nat} {plan : ScalePlan}
    {nodes : List (NodeId × String × List ShardId)}
    (hsanitized : ∀ info ∈ (hostingRegistry nodes).snapshot, info.hostedShards.Nodup)
    (hhosted : ∀ s, s < shardCount →
      (hosts (restarted shardCount plan nodes) s).length
          = Tick.rfOf (restarted shardCount plan nodes) ∧
        spread (restarted shardCount plan nodes) (hosts (restarted shardCount plan nodes) s)
          = Tick.rfOf (restarted shardCount plan nodes)) :
    ColdStart (restarted shardCount plan nodes) where
  empty := fun s => by simp [restarted, fresh, Placement.new, Placement.get]
  sanitized := fun id info hinfo => by
    have hid : info.nodeId = id := (hostingRegistry nodes).keyed id info hinfo
    exact hsanitized info (Membership.mem_snapshot.mpr (hid ▸ hinfo))
  hosted := hhosted

/-- `a` and `d` share a domain and take the shards in turn. -/
def inTurn : StateMachine :=
  restarted 3 ⟨4, 3⟩ [("a", "gcp", [0, 2]), ("b", "aws", [0, 1, 2]), ("c", "hetzner", [0, 1, 2]),
    ("d", "gcp", [1])]

/-- When the walk reaches shard 1, `a` has load 1 and looks no better than the hosts, and so has `d`
when it reaches shard 2. -/
theorem cold_start_adopts_in_turn : Adopts inTurn := by
  have hcold : ColdStart inTurn := coldStart_restarted (by decide +kernel) (by decide +kernel)
  have hactive : ∀ s < 3, HostsActive inTurn s := by
    unfold HostsActive
    decide +kernel
  have hmet : ∀ s < 3, ∀ c ∈ activeNodes inTurn, c ∈ hosts inTurn s ∨ HostsEarlier inTurn s c ∨
      s = 0 := by decide +kernel
  refine (cold_start_adopts_iff hcold).mpr fun s hs => ⟨hactive s hs, ?_⟩
  rintro ⟨v, c, -, hc, hother, hearlier, hidle, -⟩
  rcases hmet s hs c hc with hhost | hload | rfl
  · exact hother hhost
  · exact hidle hload
  · obtain ⟨s', hs', -⟩ := hearlier
    exact Nat.not_lt_zero s' hs'

/-- The shard is on `b`, `c` and `d`, and the idle `a` comes first by id. -/
def idleFirst : StateMachine :=
  restarted 1 ⟨3, 3⟩ [("a", "gcp", []), ("b", "aws", [0]), ("c", "hetzner", [0]), ("d", "gcp", [0])]

/-- Shards 0 and 1 are on `a`, `b` and `c`, shard 2 is on `d`, `b` and `c`, and `a` and `d` share a
domain. -/
def sharedDomain : StateMachine :=
  restarted 3 ⟨4, 3⟩ [("a", "gcp", [0, 1]), ("b", "aws", [0, 1, 2]), ("c", "hetzner", [0, 1, 2]),
    ("d", "gcp", [2])]

theorem coldStart_idleFirst : ColdStart idleFirst :=
  coldStart_restarted (by decide +kernel) (by decide +kernel)

theorem coldStart_sharedDomain : ColdStart sharedDomain :=
  coldStart_restarted (by decide +kernel) (by decide +kernel)

/-- **A restart that moves data**: the idle node is active in the place of the host `d`, and in the
other cluster shard 1 is moved from `a`, which has a shard by then, to `d`, which has none yet. -/
theorem cold_start_moves :
    (ColdStart idleFirst ∧ idleFirst.plan.targetNodes = hostingNodes idleFirst ∧
      hosts idleFirst 0 = ["b", "c", "d"] ∧
      replicasOf (reconcile true idleFirst) 0 = ["b", "c", "a"]) ∧
    (ColdStart sharedDomain ∧ sharedDomain.plan.targetNodes = hostingNodes sharedDomain ∧
      hosts sharedDomain 1 = ["a", "b", "c"] ∧
      replicasOf (reconcile true sharedDomain) 1 = ["d", "b", "c"]) :=
  ⟨⟨coldStart_idleFirst, by decide +kernel, by decide +kernel, by decide +kernel⟩,
    ⟨coldStart_sharedDomain, by decide +kernel, by decide +kernel, by decide +kernel⟩⟩

end FiduciaBrain.Scheduler
