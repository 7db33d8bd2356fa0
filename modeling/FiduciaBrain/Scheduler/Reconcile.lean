import FiduciaBrain.Cluster
import FiduciaBrain.Scheduler.Plan

/-!
# The reconciliation tick

`src/leadership.rs` and `Scheduler::reconcile` of `src/scheduler.rs`. A tick reads the membership and
the plan (`Tick`), walks the shards with the loads it keeps (`Pass`, `reconcileShard`), and proposes
the removal of drained nodes at the end (`finalizeScaleDown`). A proposal is applied at once, as the
local control plane does.

`HashSet`s that are only asked for membership are lists, and a `HashMap` of counts is the partial
function that looks a node up in it (`Loads`).
-/

namespace FiduciaBrain.Scheduler

open Infra

/-! ## Leader affinity -/

/-- A candidate replica that can lead a shard. -/
structure LeaderSlot where
  nodeId : NodeId
  cloudProvider : String
  region : String
  leaderLoad : Nat

/-- `str::eq_ignore_ascii_case`. -/
def eqIgnoreAsciiCase (a b : String) : Bool := toAsciiLowercase a == toAsciiLowercase b

/-- Region affinity first, provider affinity second, then the least-loaded leader, then whoever
leads already, then the lowest node id. -/
def leaderOrder (policy : Option PlacementPolicy) (current : Option NodeId) (a b : LeaderSlot) :
    Ordering :=
  let homeRegion := policy.bind (·.homeRegion)
  let preferredCloud := policy.bind (·.preferredCloudProvider)
  let aRegion := homeRegion.any (eqIgnoreAsciiCase · a.region)
  let bRegion := homeRegion.any (eqIgnoreAsciiCase · b.region)
  let aCloud := preferredCloud.any (eqIgnoreAsciiCase · a.cloudProvider)
  let bCloud := preferredCloud.any (eqIgnoreAsciiCase · b.cloudProvider)
  let aCurrent := current == some a.nodeId
  let bCurrent := current == some b.nodeId
  (compare bRegion aRegion).then <| (compare bCloud aCloud).then <|
    (compare a.leaderLoad b.leaderLoad).then <| (compare bCurrent aCurrent).then
      (compare a.nodeId b.nodeId)

/-- Pick the preferred leader target for a shard. -/
def preferredLeaderForPolicy (policy : Option PlacementPolicy) (replicas healthy : List NodeId)
    (slots : List LeaderSlot) (current : Option NodeId) : Option NodeId :=
  (minBy (leaderOrder policy current) (slots.filter fun slot =>
    healthy.contains slot.nodeId && replicas.any (· == slot.nodeId))).map (·.nodeId)

/-- Affinity, else stickiness, else failover. -/
def desiredLeader (preferred : Option NodeId) (replicas healthy : List NodeId)
    (current : Option NodeId) : Option NodeId :=
  let ok := fun n => healthy.contains n && replicas.any (· == n)
  (preferred.filter ok).or ((current.filter ok).or (replicas.find? healthy.contains))

/-! ## Loads -/

/-- A count for each node that is counted. -/
abbrev Loads := NodeId → Option Nat

namespace Loads

def zero (ids : List NodeId) : Loads := fun id => if id ∈ ids then some 0 else none

/-- The count of a node, 0 for a node that is not counted. -/
def get (l : Loads) (id : NodeId) : Nat := (l id).getD 0

def add (l : Loads) (id : NodeId) : Loads := fun x => if x = id then (l x).map (· + 1) else l x

def sub (l : Loads) (id : NodeId) : Loads := fun x => if x = id then (l x).map (· - 1) else l x

def retain (l : Loads) (ids : List NodeId) : Loads := fun x => if x ∈ ids then l x else none

end Loads

/-- How many replicas the placement gives each of `ids`. -/
def replicaLoads (assignments : List ShardAssignment) (ids : List NodeId) : Loads :=
  assignments.foldl (fun l a => a.replicas.foldl Loads.add l) (.zero ids)

/-- How many shards prefer each of `ids` as leader. -/
def leaderLoads (assignments : List ShardAssignment) (ids : List NodeId) : Loads :=
  assignments.foldl (fun l a => a.preferredLeader.elim l l.add) (.zero ids)

/-! ## What a tick reads first -/

def allHealthyIds (nodes : List NodeInfo) : List NodeId :=
  (nodes.filter (·.health = .healthy)).map (·.nodeId)

/-- Keep only as many healthy nodes as the plan wants: the most loaded ones, by id on a tie. -/
def activeNodesForTarget (healthyIds : List NodeId) (load : Loads) (targetNodes : Nat) :
    List NodeId :=
  if healthyIds.length ≤ targetNodes then healthyIds
  else
    ((healthyIds.insertionSort fun a b =>
      ((compare (load.get b) (load.get a)).then (compare a b)).isLE = true).take
        targetNodes).insertionSort (· ≤ ·)

/-- The nodes, the replication factor, and the nodes that are placed on. -/
structure Tick where
  nodes : List NodeInfo
  rf : Nat
  healthyIds : List NodeId

namespace Tick

/-- The replication factor in force. -/
def rfOf (sm : StateMachine) : Nat := max sm.plan.replicationFactor 1

def of (sm : StateMachine) : Tick where
  nodes := sm.membership.snapshot
  rf := rfOf sm
  healthyIds :=
    activeNodesForTarget (allHealthyIds sm.membership.snapshot)
      (replicaLoads sm.placement.snapshot (allHealthyIds sm.membership.snapshot))
      (max sm.plan.targetNodes (rfOf sm))

def info (t : Tick) (id : NodeId) : Option NodeInfo := t.nodes.find? (fun n => n.nodeId == id)

def domainOf (t : Tick) (id : NodeId) : String := ((t.info id).map (·.failureDomain)).getD ""

def cloudOf (t : Tick) (id : NodeId) : String := ((t.info id).map (·.cloudProvider)).getD ""

def regionOf (t : Tick) (id : NodeId) : String := ((t.info id).map (·.region)).getD ""

/-- Membership knows the node, at any health. -/
def known (t : Tick) (id : NodeId) : Bool := t.nodes.any (fun n => n.nodeId == id)

/-- The healthy nodes that report hosting the shard, each as often as it does. -/
def observedReplicas (t : Tick) (shard : ShardId) : List NodeId :=
  (t.nodes.filter (·.health = .healthy)).flatMap fun n =>
    (n.hostedShards.filter (· == shard)).map fun _ => n.nodeId

/-- The last of the healthy nodes that report leading the shard. -/
def observedLeader (t : Tick) (shard : ShardId) : Option NodeId :=
  ((t.nodes.filter (·.health = .healthy)).filter
    (fun n => n.leadingShards.contains shard)).getLast?.map (·.nodeId)

/-- The replicas a shard has: what the map says, or what the nodes report when it is not placed. -/
def currentReplicas (t : Tick) (current : Option ShardAssignment) (shard : ShardId) : List NodeId :=
  match current with
  | some a => a.replicas
  | none => t.observedReplicas shard

/-- The candidates with their loads. -/
def slots (t : Tick) (load : Loads) : List NodeSlot :=
  t.healthyIds.map fun id => ⟨id, t.domainOf id, load.get id⟩

/-- The replicas the planner wants. -/
def desired (t : Tick) (load : Loads) (replicas : List NodeId) : List NodeId :=
  planReplicas replicas (t.slots load) t.rf

/-- Membership does not know all the replicas yet. -/
def incomplete (t : Tick) (replicas : List NodeId) : Bool :=
  !replicas.isEmpty && !replicas.all t.known

/-- Too few candidates, and the plan would shrink the live replica set. -/
def degraded (t : Tick) (replicas desired : List NodeId) : Bool :=
  decide (t.healthyIds.length < t.rf ∧ desired.length < min replicas.length t.rf)

end Tick

/-! ## The walk over the shards -/

/-- What the walk carries. -/
structure Pass where
  sm : StateMachine
  load : Loads
  leaderLoad : Loads

namespace Pass

def start (sm : StateMachine) : Pass where
  sm := sm
  load :=
    (replicaLoads sm.placement.snapshot (allHealthyIds sm.membership.snapshot)).retain
      (Tick.of sm).healthyIds
  leaderLoad := leaderLoads sm.placement.snapshot (Tick.of sm).healthyIds

end Pass

/-- Take one load off the previous leader of the shard. -/
def releaseLeader (leaderLoad : Loads) (current : Option ShardAssignment) : Loads :=
  (current.bind (·.preferredLeader)).elim leaderLoad leaderLoad.sub

/-- The leader the tick wants for `desired`. -/
def Tick.preferredLeader (t : Tick) (leaderLoad : Loads) (policy : Option PlacementPolicy)
    (desired : List NodeId) (shard : ShardId) : Option NodeId :=
  let leaderSlots := desired.map fun id =>
    (⟨id, t.cloudOf id, t.regionOf id, leaderLoad.get id⟩ : LeaderSlot)
  let affinityTarget := preferredLeaderForPolicy policy desired t.healthyIds leaderSlots
    (t.observedLeader shard)
  desiredLeader affinityTarget desired t.healthyIds (t.observedLeader shard)

/-- Does the assignment the tick computed differ from the one the map has? -/
def differs (current : Option ShardAssignment) (next : ShardAssignment) : Bool :=
  match current with
  | none => !next.replicas.isEmpty
  | some a =>
    decide (a.replicas ≠ next.replicas ∨ a.preferredLeader ≠ next.preferredLeader ∨
      a.preferredRegion ≠ next.preferredRegion ∨
      a.preferredCloudProvider ≠ next.preferredCloudProvider)

/-- Decide one shard. -/
def reconcileShard (t : Tick) (p : Pass) (shard : ShardId) : Pass :=
  let current := p.sm.placement.get shard
  let replicas := t.currentReplicas current shard
  -- do not shrink a placement on incomplete membership
  if t.incomplete replicas then p
  else
    let desired := t.desired p.load replicas
    -- nor when there are too few candidates
    if t.degraded replicas desired then p
    else
      let leaderLoad := releaseLeader p.leaderLoad current
      let policy := p.sm.placement.policy shard
      let preferredLeader := t.preferredLeader leaderLoad policy desired shard
      let next : ShardAssignment :=
        { shardId := shard
          replicas := desired
          preferredLeader := preferredLeader
          preferredRegion := policy.bind (·.homeRegion)
          preferredCloudProvider := policy.bind (·.preferredCloudProvider) }
      { sm := if differs current next then applyCommand p.sm (.assignShard next) else p.sm
        load := desired.foldl Loads.add (replicas.foldl Loads.sub p.load)
        leaderLoad := preferredLeader.elim leaderLoad leaderLoad.add }

/-- The walk up to a shard. -/
def Tick.walk (t : Tick) (p : Pass) (count : Nat) : Pass :=
  (List.range count).foldl (reconcileShard t) p

/-! ## The tick -/

/-- A drained node that hosts nothing and that no assignment names is forgotten. -/
def finalizeScaleDown (nodes : List NodeInfo) (sm : StateMachine) : StateMachine :=
  let assignedNodes := sm.placement.snapshot.flatMap (·.replicas)
  nodes.foldl
    (fun sm n =>
      if n.health = .draining ∧ n.hostedShards = [] ∧ n.nodeId ∉ assignedNodes then
        applyCommand sm (.forgetNode n.nodeId)
      else sm)
    sm

/-- One reconciliation tick. A follower does nothing. -/
def reconcile (isLeader : Bool) (sm : StateMachine) : StateMachine :=
  if isLeader then
    finalizeScaleDown sm.membership.snapshot
      ((Tick.of sm).walk (.start sm) sm.placement.shardCount).sm
  else sm

end FiduciaBrain.Scheduler
