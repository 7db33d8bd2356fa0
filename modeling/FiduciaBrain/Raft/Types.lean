import FiduciaBrain.Cluster
import Mathlib.Data.Finset.Basic

/-!
# The engine's data

`src/raft.rs`: log entries, durable state, wire messages, timing and the engine state. Terms and
indices are `Nat`; where the source saturates or checks a `u64` addition, so does the model.
-/

namespace FiduciaBrain

def u64Max : Nat := 18446744073709551615

def saturatingAdd (a b : Nat) : Nat := min (a + b) u64Max

def checkedAdd (a b : Nat) : Option Nat := if a + b ≤ u64Max then some (a + b) else none

/-- One replicated log entry; `command` is `none` for the no-op of a fresh leader. -/
structure LogEntry where
  term : Nat
  index : Nat
  command : Option Command
  deriving DecidableEq, Repr

/-- Raft state that must be durable. -/
structure Persisted where
  currentTerm : Nat
  votedFor : Option NodeId
  commitIndex : Nat
  log : List LogEntry
  baseIndex : Nat
  baseTerm : Nat
  snapshot : Option Bytes
  deriving DecidableEq, Repr

/-- The state of a fresh member. -/
def Persisted.default : Persisted where
  currentTerm := 0
  votedFor := none
  commitIndex := 0
  log := []
  baseIndex := 0
  baseTerm := 0
  snapshot := none

inductive Role
  | follower
  | preCandidate
  | candidate
  | leader
  deriving DecidableEq, Repr

/-! ## Messages -/

structure RequestVoteReq where
  term : Nat
  candidateId : NodeId
  lastLogIndex : Nat
  lastLogTerm : Nat
  preVote : Bool
  deriving DecidableEq, Repr

structure RequestVoteResp where
  term : Nat
  granted : Bool
  preVote : Bool
  deriving DecidableEq, Repr

structure AppendEntriesReq where
  term : Nat
  leaderId : NodeId
  prevLogIndex : Nat
  prevLogTerm : Nat
  entries : List LogEntry
  leaderCommit : Nat
  deriving DecidableEq, Repr

structure AppendEntriesResp where
  term : Nat
  success : Bool
  matchIndex : Nat
  deriving DecidableEq, Repr

structure InstallSnapshotReq where
  term : Nat
  leaderId : NodeId
  lastIncludedIndex : Nat
  lastIncludedTerm : Nat
  data : Bytes
  deriving DecidableEq, Repr

structure InstallSnapshotResp where
  term : Nat
  success : Bool
  lastIncludedIndex : Nat
  deriving DecidableEq, Repr

inductive RaftMessage
  | requestVote (req : RequestVoteReq)
  | requestVoteResp (resp : RequestVoteResp)
  | appendEntries (req : AppendEntriesReq)
  | appendEntriesResp (resp : AppendEntriesResp)
  | installSnapshot (req : InstallSnapshotReq)
  | installSnapshotResp (resp : InstallSnapshotResp)
  deriving DecidableEq, Repr

/-- An outbound message and its recipient. -/
structure Addressed where
  recipient : NodeId
  msg : RaftMessage
  deriving DecidableEq, Repr

/-! ## Engine state -/

/-- Timing, in driver ticks. -/
structure RaftConfig where
  heartbeatTicks : Nat
  electionMinTicks : Nat
  electionMaxTicks : Nat
  deriving DecidableEq, Repr

/-- Is the timing consistent? -/
def RaftConfig.validate (cfg : RaftConfig) : Except String Unit :=
  if cfg.heartbeatTicks = 0 then .error "heartbeat_ticks must be greater than zero"
  else if cfg.electionMinTicks ≤ cfg.heartbeatTicks then
    .error "election_min_ticks must exceed heartbeat_ticks"
  else if cfg.electionMaxTicks < cfg.electionMinTicks then
    .error "election_max_ticks must be at least election_min_ticks"
  else .ok ()

/-- The side effects of a step, drained by the driver. -/
structure Ready where
  persist : Option Persisted
  restore : Option Bytes
  appliedFrom : Nat
  appliedUpto : Nat
  messages : List Addressed
  committed : List (Nat × Command)
  deriving DecidableEq, Repr

/-- The fixed-membership single-group Raft state machine. A map that is only looked up is its
lookup function. -/
structure Raft where
  id : NodeId
  peers : List NodeId
  cfg : RaftConfig
  currentTerm : Nat
  votedFor : Option NodeId
  log : List LogEntry
  baseIndex : Nat
  baseTerm : Nat
  snapshot : Option Bytes
  role : Role
  commitIndex : Nat
  lastApplied : Nat
  leaderId : Option NodeId
  pendingRestore : Bool
  votes : Finset NodeId
  ackedSinceCheck : Finset NodeId
  nextIndex : NodeId → Option Nat
  matchIndex : NodeId → Option Nat
  snapshotInflight : NodeId → Option Nat
  electionElapsed : Nat
  heartbeatElapsed : Nat
  randomizedElectionTimeout : Nat
  rng : UInt64
  out : List Addressed
  dirty : Bool

end FiduciaBrain
