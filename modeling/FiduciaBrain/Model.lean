/-!
# Shared control-plane types

`src/model.rs`. `u32` and `u64` counters are `Nat`.
-/

namespace FiduciaBrain

/-- A node's stable id: a data-plane node's, or a brain member's `host:port`. -/
abbrev NodeId := String

/-- A shard id, one independent Raft group in the data plane. -/
abbrev ShardId := Nat

/-- Opaque serialized data. -/
abbrev Bytes := List UInt8

/-- Liveness of a node, as judged by the failure detector. -/
inductive NodeHealth
  | healthy
  | suspect
  | dead
  | draining
  deriving DecidableEq, Repr

/-- What the brain knows about one data-plane node. -/
structure NodeInfo where
  nodeId : NodeId
  address : String
  health : NodeHealth
  cloudProvider : String
  region : String
  clusterId : String
  failureDomain : String
  lastSeenMs : Nat
  hostedShards : List ShardId
  leadingShards : List ShardId
  lastSeq : Nat
  deriving DecidableEq, Repr

/-- The body of a node's heartbeat. -/
structure HeartbeatReport where
  address : String
  cloudProvider : String
  region : String
  clusterId : String
  failureDomain : String
  hostedShards : List ShardId
  leadingShards : List ShardId
  seq : Nat
  deriving DecidableEq, Repr

/-- The authoritative placement for one shard. -/
structure ShardAssignment where
  shardId : ShardId
  replicas : List NodeId
  preferredLeader : Option NodeId
  preferredRegion : Option String
  preferredCloudProvider : Option String
  deriving DecidableEq, Repr

/-- Region and provider affinity for the shard that owns a namespace. -/
structure PlacementPolicy where
  «namespace» : String
  shardId : ShardId
  homeRegion : Option String
  preferredCloudProvider : Option String
  deriving DecidableEq, Repr

/-- The body of a policy write. -/
structure PlacementPolicyUpdate where
  «namespace» : String
  homeRegion : Option String
  preferredCloudProvider : Option String
  deriving DecidableEq, Repr

/-- A scaling intent the reconciler drives toward. -/
structure ScalePlan where
  targetNodes : Nat
  replicationFactor : Nat
  deriving DecidableEq, Repr

end FiduciaBrain
