import FiduciaBrain.Scheduler.Walk

/-!
# Suspect nodes and their replicas

The detector documents the suspect band as one that placement avoids without moving data. The walk
has no such band: whatever is not healthy is not a candidate, so a shard that the tick does not hold
leaves its suspect replicas. `suspect_listed_iff` says when the shard is held.
-/

namespace FiduciaBrain.Scheduler

/-- The nodes a tick may place on, before the cut for the target. -/
def healthyNodes (sm : StateMachine) : List NodeId := allHealthyIds sm.membership.snapshot

/-- Too few nodes are healthy, and the replicas that are, together with the healthy nodes that are
not replicas, are fewer than the shard has now. -/
def TooFewHealthy (sm : StateMachine) (replicas : List NodeId) : Prop :=
  (healthyNodes sm).length < Tick.rfOf sm ∧
    (replicas.filter ((healthyNodes sm).contains ·)).length
        + ((healthyNodes sm).filter (!replicas.contains ·)).length
      < min replicas.length (Tick.rfOf sm)

/-- With too few healthy nodes the target cuts nothing. -/
theorem healthyIds_eq_of_lt {sm : StateMachine}
    (h : (healthyNodes sm).length < Tick.rfOf sm) : (Tick.of sm).healthyIds = healthyNodes sm :=
  if_pos (h.le.trans (le_max_right _ _))

theorem incomplete_iff {sm : StateMachine} {replicas : List NodeId} :
    (Tick.of sm).incomplete replicas = true ↔
      ∃ r ∈ replicas, sm.membership.nodes[r]? = none := by
  simp only [Tick.incomplete, Bool.and_eq_true, Bool.not_eq_true', List.isEmpty_eq_false_iff,
    List.all_eq_false, Tick.known_eq, Bool.not_eq_true, Option.isSome_eq_false_iff,
    Option.isNone_iff_eq_none]
  constructor
  · rintro ⟨-, r, hr, h⟩
    exact ⟨r, hr, h⟩
  · rintro ⟨r, hr, h⟩
    exact ⟨List.ne_nil_of_mem hr, r, hr, h⟩

/-- **What holds a shard**: a replica that membership does not know, or too few healthy nodes. -/
theorem held_iff {sm : StateMachine} {replicas : List NodeId} :
    (Tick.of sm).held replicas = true ↔
      (∃ r ∈ replicas, sm.membership.nodes[r]? = none) ∨ TooFewHealthy sm replicas := by
  rw [Tick.held, Bool.or_eq_true, incomplete_iff, decide_eq_true_eq, Tick.length_healthyIds_lt_rf]
  refine or_congr_right ?_
  refine and_congr_right (fun hlt => ?_)
  have hrf : (Tick.of sm).rf = Tick.rfOf sm := rfl
  rw [Tick.survivors, Tick.idle, healthyIds_eq_of_lt hlt, hrf]
  omega

/-- A tick only leaves on healthy nodes what it does not hold. -/
theorem health_of_mem_nextAssignment {sm : StateMachine} {s : ShardId} {n : NodeId}
    (h : n ∈ (nextAssignment sm s).replicas) : n ∈ healthyNodes sm := by
  rw [nextAssignment_eq_desired] at h
  exact Tick.healthyIds_subset sm (Tick.mem_desired _ h)

/-- **A suspect replica stays listed exactly when its shard is not decided**: the id is beyond the
shard count, some replica is unknown, or too few nodes are healthy. -/
theorem suspect_listed_iff {sm : StateMachine} {s : ShardId} {a : ShardAssignment} {n : NodeId}
    {info : NodeInfo} (hget : sm.placement.get s = some a) (hn : n ∈ a.replicas)
    (hinfo : sm.membership.nodes[n]? = some info) (hsuspect : info.health = .suspect) :
    (∃ a', (reconcile true sm).placement.get s = some a' ∧ n ∈ a'.replicas) ↔
      sm.placement.shardCount ≤ s ∨ (∃ r ∈ a.replicas, sm.membership.nodes[r]? = none) ∨
        TooFewHealthy sm a.replicas := by
  have hcurrent : currentReplicas sm s = a.replicas := by
    rw [currentReplicas, hget]
    rfl
  rw [← held_iff, ← hcurrent, get_reconcile]
  constructor
  · rintro ⟨a', ha', hn'⟩
    by_contra hdecided
    rw [not_or, Nat.not_le, Bool.not_eq_true] at hdecided
    rw [if_pos hdecided, if_neg (by simp [hget])] at ha'
    cases ha'
    obtain ⟨info', hinfo', hhealthy⟩ :=
      mem_allHealthyIds.mp (health_of_mem_nextAssignment hn')
    rw [hinfo] at hinfo'
    cases hinfo'
    rw [hsuspect] at hhealthy
    cases hhealthy
  · intro h
    refine ⟨a, ?_, hn⟩
    rw [if_neg ?_, hget]
    rintro ⟨hs, hheld⟩
    rcases h with h | h
    · exact absurd hs (Nat.not_lt.mpr h)
    · rw [hheld] at h
      cases h

/-! ## A silent node whose pod runs -/

/-- A heartbeat that reports nothing but a failure domain. -/
def plainReport (failureDomain : String) : HeartbeatReport where
  address := ""
  cloudProvider := ""
  region := ""
  clusterId := ""
  failureDomain := failureDomain
  hostedShards := []
  leadingShards := []
  seq := 0

/-- Nodes that each reported once: id, failure domain, time. -/
def registryOf (nodes : List (NodeId × String × Nat)) : Membership :=
  nodes.foldl (fun m n => (m.heartbeat n.1 n.2.2 (plainReport n.2.1)).2) .new

/-- `a` went silent at 0 while the others kept reporting, and the sweep at 40 s asked an oracle that
says its pod is running. One shard is on `a`, `b` and `c`. -/
def silentA (others : List (NodeId × String × Nat)) : StateMachine where
  membership := ((registryOf (("a", "gcp", 0) :: others)).sweep ⟨6000, 30000⟩
    (fun id => if id = "a" then .running else .unknown) 40000).2
  placement := (Placement.new 1).assign ⟨0, ["a", "b", "c"], some "b", none, none⟩
  plan := ⟨3, 3⟩

/-- With only `b` and `c` left the shard is held. -/
theorem suspect_listed_iff_two_left :
    ∃ a', (reconcile true (silentA [("b", "aws", 39000), ("c", "hetzner", 39000)])).placement.get 0
        = some a' ∧ "a" ∈ a'.replicas :=
  (@suspect_listed_iff (silentA [("b", "aws", 39000), ("c", "hetzner", 39000)]) 0
    ⟨0, ["a", "b", "c"], some "b", none, none⟩ "a"
    ⟨"a", "", .suspect, "", "", "", "gcp", 0, [], [], 0⟩
    (by decide +kernel) (by decide) (by decide +kernel) rfl).mpr
      (.inr (.inr (by
        unfold TooFewHealthy
        decide +kernel)))

/-- **With a spare node the replica is moved**, although the oracle held `a` at suspect. -/
theorem suspect_replica_moved :
    let sm := silentA [("b", "aws", 39000), ("c", "hetzner", 39000), ("d", "gcp", 39000)]
    sm.membership.nodes["a"]?.map (·.health) = some .suspect ∧
      (sm.placement.get 0).map (·.replicas) = some ["a", "b", "c"] ∧
      ((reconcile true sm).placement.get 0).map (·.replicas) = some ["b", "c", "d"] := by
  decide +kernel

end FiduciaBrain.Scheduler
