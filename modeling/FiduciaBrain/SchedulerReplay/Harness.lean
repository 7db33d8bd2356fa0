import FiduciaBrain.Scheduler.Reconcile
import FiduciaBrain.SchedulerReplay.Machine

/-!
# The replay harness

`formal/scheduler_replay_common.rs`: a brain with one shard on which every action of the model is
carried out by the calls of production, and what is compared with the model's state behind it.
-/

namespace FiduciaBrain.SchedulerReplay

open Scheduler

/-- `SHARD`. -/
def shard : ShardId := 0

def nodeA : NodeId := "a"

def nodeB : NodeId := "b"

def nodeC : NodeId := "c"

def nodeD : NodeId := "d"

/-- `node_id`, on the numbers of the model. -/
def nodeId (node : Nat) : NodeId :=
  match node with
  | 1 => nodeA
  | 2 => nodeB
  | 3 => nodeC
  | _ => nodeD

def nodeNumber (node : NodeId) : Option Nat :=
  if node = nodeA then some 1
  else if node = nodeB then some 2
  else if node = nodeC then some 3
  else if node = nodeD then some 4
  else none

def report (node : Nat) (hosts leads : Bool) : HeartbeatReport :=
  let id := nodeId node
  { address := s!"10.0.0.{node}:8090"
    cloudProvider := s!"cloud-{id}"
    region := s!"region-{id}"
    clusterId := s!"cluster-{id}"
    failureDomain := s!"domain-{id}"
    hostedShards := if hosts then [shard] else []
    leadingShards := if leads then [shard] else []
    seq := 0 }

def assignment (nodes : List Nat) (leader : Nat) : ShardAssignment where
  shardId := shard
  replicas := nodes.map nodeId
  preferredLeader := if leader ≠ 0 then some (nodeId leader) else none
  preferredRegion := none
  preferredCloudProvider := none

def config : MembershipConfig := { suspectAfterMs := 10, deadAfterMs := 20 }

/-- The brain under test and the role that its control plane is told to have. -/
@[ext] structure Harness where
  sm : StateMachine
  leader : Bool
  forgotten : Finset Nat

/-- What is compared. -/
structure Projection where
  leader : Bool
  known : Finset Nat
  healthy : Finset Nat
  draining : Finset Nat
  hosted : Finset Nat
  observedLeader : Nat
  placement : Finset Nat
  preferredLeader : Nat
  generation : Nat
  forgotten : Finset Nat
  deriving DecidableEq

/-- `expected_projection`. -/
def expectedProjection (s : State) : Projection where
  leader := s.role = .leader
  known := s.known
  healthy := s.healthy
  draining := s.draining
  hosted := s.hosted
  observedLeader := s.observedLeader
  placement := s.placement
  preferredLeader := s.preferredLeader
  generation := s.generation
  forgotten := s.forgotten

namespace Harness

def heartbeat (h : Harness) (node : NodeId) (nowMs : Nat) (report : HeartbeatReport) : Harness :=
  { h with sm := { h.sm with membership := (h.sm.membership.heartbeat node nowMs report).2 } }

def initial : Harness :=
  let membership := (Membership.new.heartbeat nodeA 0 (report 1 true true)).2
  let membership := (membership.heartbeat nodeB 0 (report 2 true false)).2
  let membership := (membership.heartbeat nodeC 0 (report 3 true false)).2
  { sm :=
      { membership := membership
        placement := (Placement.new 1).assign (assignment [1, 2, 3] 1)
        plan := { targetNodes := 3, replicationFactor := 3 } }
    leader := true
    forgotten := ∅ }

/-- The numbers of the known nodes that `keep` accepts. -/
def numbers (h : Harness) (keep : NodeInfo → Bool) : Finset Nat :=
  (((h.sm.membership.snapshot.filter keep).map (·.nodeId)).filterMap nodeNumber).toFinset

def projection (h : Harness) : Projection where
  leader := h.leader
  known := h.numbers fun _ => true
  healthy := h.numbers (·.health = .healthy)
  draining := h.numbers (·.health = .draining)
  hosted := h.numbers (·.hostedShards.contains shard)
  observedLeader :=
    ((h.sm.membership.snapshot.find? fun node =>
      node.health = .healthy ∧ node.leadingShards.contains shard).bind
        (nodeNumber ·.nodeId)).getD 0
  placement :=
    (((h.sm.placement.get shard).map fun a => (a.replicas.filterMap nodeNumber).toFinset).getD ∅)
  preferredLeader :=
    (((h.sm.placement.get shard).bind (·.preferredLeader)).bind nodeNumber).getD 0
  generation := h.sm.placement.generation
  forgotten := h.forgotten

/-- `ControlPlane::propose` of the harness. A node is forgotten for good once a `ForgetNode` has
been applied and membership does not know it. -/
def propose (h : Harness) (command : Command) : Bool × Harness :=
  if h.leader then
    let sm := applyCommand h.sm command
    (true,
      { h with
        sm := sm
        forgotten :=
          match command with
          | .forgetNode id =>
            match nodeNumber id with
            | some node =>
              if sm.membership.snapshot.all (·.nodeId ≠ nodeId node) then insert node h.forgotten
              else h.forgotten
            | none => h.forgotten
          | .assignShard _ | .setScalePlan _ => h.forgotten })
  else (false, h)

/-- A tick on the harness's control plane. It proposes to forget only nodes that membership knows,
so the ones it forgets are those that are no longer known behind it. -/
def reconcile (h : Harness) : Harness :=
  let sm := Scheduler.reconcile h.leader h.sm
  { h with
    sm := sm
    forgotten := h.forgotten ∪
      (((h.sm.membership.snapshot.map (·.nodeId)).filter fun id =>
        sm.membership.snapshot.all (·.nodeId ≠ id)).filterMap nodeNumber).toFinset }

def ensure (condition : Bool) (message : String) (h : Harness) : Except String Harness :=
  if condition then .ok h else .error message

/-- `{:?}` of a list of ids without characters to escape. -/
def debugIds (ids : List NodeId) : String :=
  "[" ++ ", ".intercalate (ids.map fun id => "\"" ++ id ++ "\"") ++ "]"

/-- The loop of `mark_a_dead`: every healthy node but A reports again. -/
def refreshOthers (h : Harness) (refreshAt : Nat) : Harness :=
  (h.sm.membership.snapshot.filter fun node =>
      !(node.nodeId == nodeA || node.health ≠ .healthy)).foldl
    (fun h node => h.heartbeat node.nodeId refreshAt
      { address := node.address
        cloudProvider := node.cloudProvider
        region := node.region
        clusterId := node.clusterId
        failureDomain := node.failureDomain
        hostedShards := node.hostedShards
        leadingShards := node.leadingShards
        seq := 0 }) h

def markADead (h : Harness) : Except String Harness :=
  let refreshAt := 100
  let h := h.refreshOthers refreshAt
  let (newlyDead, membership) := h.sm.membership.sweep config (fun _ => .unknown) refreshAt
  ensure (newlyDead = [nodeA]) ("expected only A to become dead, got " ++ debugIds newlyDead)
    { h with sm := { h.sm with membership := membership } }

def prepareColdStart (h : Harness) : Harness :=
  let h := { h with sm := { h.sm with placement := h.sm.placement.restoreFrom [] } }
  let h := h.heartbeat nodeA 1 (report 1 true false)
  let h := h.heartbeat nodeB 1 (report 2 true true)
  h.heartbeat nodeC 1 (report 3 true false)

/-- What the harness does for an action of the model. -/
def apply (h : Harness) : Action → Except String Harness
  | .idle => .ok h
  | .becomeFollower => .ok { h with leader := false }
  | .becomeLeader => .ok { h with leader := true }
  | .loseAFromSoftMembership =>
    let (present, membership) := h.sm.membership.forget nodeA
    ensure present "A was not present for soft-membership loss"
      { h with sm := { h.sm with membership := membership } }
  | .heartbeatA => .ok (h.heartbeat nodeA 0 (report 1 true true))
  | .addD => .ok (h.heartbeat nodeD 0 (report 4 false false))
  | .markADead => h.markADead
  | .beginDrainA =>
    let (present, membership) := h.sm.membership.drain nodeA
    ensure present "A was not present for drain"
      { h with sm := { h.sm with membership := membership } }
  | .evacuateA => .ok (h.heartbeat nodeA 1 (report 1 false false))
  | .prepareColdStart => .ok h.prepareColdStart
  | .restoreSnapshotBcd =>
    .ok { h with
      sm := { h.sm with placement := h.sm.placement.restoreFrom [assignment [2, 3, 4] 2] } }
  | .reconcileFollowerHold | .reconcileIncompleteHold | .reconcileDegradedHold
  | .reconcileColdAdopt | .reconcileReplaceDeadA | .reconcileReplaceAndForgetDrainedA
  | .reconcileForgetDrainedAAfterPlacement | .reconcileIdempotent => .ok h.reconcile
  | .attemptForgetARejected =>
    let (accepted, h) := h.propose (.forgetNode nodeA)
    ensure accepted "leader did not accept the stale ForgetNode proposal for evaluation" h

end Harness

end FiduciaBrain.SchedulerReplay
