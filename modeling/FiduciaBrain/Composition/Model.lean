import FiduciaBrain.Raft.Types
import Mathlib.Data.Finset.Basic
import Mathlib.Data.Finset.SDiff
import Mathlib.Data.Finset.Dedup
import Std.Data.ExtTreeMap

/-!
# Publishing, staging and activating a placement

`tools/scheduler-data-plane-composition/src/lib.rs`: the brain's publisher and the data-plane node.
A method that can fail returns what it leaves behind only when it succeeds; `NodeReplica.stage` is
the one that changes the node and may still fail.
-/

namespace FiduciaBrain.Composition

abbrev Term := Nat

abbrev Generation := Nat

abbrev ShardId := Nat

abbrev NodeId := Nat

inductive BrainRole
  | leader
  | follower
  deriving DecidableEq, Repr

inductive ModelError
  | invalidTerm
  | invalidGeneration
  | notLeader
  | emptyPlacement
  | emptyReplicaSet (shard : ShardId)
  | duplicateReplica (shard : ShardId) (node : NodeId)
  | generationOverflow
  | unknownPublishedGeneration (generation : Generation)
  | conflictingGeneration (generation : Generation)
  | nonSequentialCommit (expected provided : Generation)
  | uncommittedGeneration (committed requested : Generation)
  | staleTerm (observed provided : Term)
  | staleGeneration (active provided : Generation)
  | noStagedPlacement
  | ackGenerationMismatch (staged provided : Generation)
  | shardNotAssigned (shard : ShardId)
  | partialActivation (missing : Finset ShardId)
  | noActivePlacement
  | authorityMismatch (active requested : Generation)
  deriving DecidableEq

/-- What a method that returns the changed `x` leaves behind. -/
def orKeep {α : Type*} (x : α) : Except ModelError α → α
  | .ok x' => x'
  | .error _ => x

/-! ## Snapshots -/

structure PlacementSnapshot where
  term : Term
  generation : Generation
  assignments : Std.ExtTreeMap ShardId (Finset NodeId)
  deriving DecidableEq

namespace PlacementSnapshot

/-- The replica set of one shard, read one node at a time. -/
def uniqueReplicas (shard : ShardId) : Finset NodeId → List NodeId →
    Except ModelError (Finset NodeId)
  | unique, [] => .ok unique
  | unique, node :: rest =>
    if node ∈ unique then .error (.duplicateReplica shard node)
    else uniqueReplicas shard (insert node unique) rest

/-- The canonical form, read one shard at a time. -/
def canonicalize : Std.ExtTreeMap ShardId (Finset NodeId) → List (ShardId × List NodeId) →
    Except ModelError (Std.ExtTreeMap ShardId (Finset NodeId))
  | canonical, [] => .ok canonical
  | canonical, (shard, replicas) :: rest => do
    if replicas.isEmpty then .error (.emptyReplicaSet shard)
    else
      let unique ← uniqueReplicas shard ∅ replicas
      canonicalize (canonical.insert shard unique) rest

def new (term : Term) (generation : Generation)
    (assignments : Std.ExtTreeMap ShardId (List NodeId)) : Except ModelError PlacementSnapshot := do
  if term = 0 then .error .invalidTerm
  else if generation = 0 then .error .invalidGeneration
  else if assignments.isEmpty then .error .emptyPlacement
  else
    let canonical ← canonicalize ∅ assignments.toList
    .ok { term := term, generation := generation, assignments := canonical }

def replicas (s : PlacementSnapshot) (shard : ShardId) : Option (Finset NodeId) :=
  s.assignments[shard]?

/-- The shards a node replicates. -/
def shardsFor (s : PlacementSnapshot) (node : NodeId) : Finset ShardId :=
  (s.assignments.toList.filterMap fun (shard, replicas) =>
    if node ∈ replicas then some shard else none).toFinset

theorem mem_shardsFor {s : PlacementSnapshot} {node : NodeId} {shard : ShardId} :
    shard ∈ s.shardsFor node ↔ ∃ replicas, s.replicas shard = some replicas ∧ node ∈ replicas := by
  simp only [shardsFor, List.mem_toFinset, List.mem_filterMap, Prod.exists, replicas]
  constructor
  · rintro ⟨k, nodes, hmem, h⟩
    split at h
    · next hnode =>
      cases h
      exact ⟨nodes, Std.ExtTreeMap.mem_toList_iff_getElem?_eq_some.mp hmem, hnode⟩
    · cases h
  · rintro ⟨nodes, hget, hnode⟩
    exact ⟨shard, nodes, Std.ExtTreeMap.mem_toList_iff_getElem?_eq_some.mpr hget, by simp [hnode]⟩

end PlacementSnapshot

structure WriteFence where
  term : Term
  generation : Generation
  deriving DecidableEq

/-! ## The publisher -/

/-- Scheduler-side publication and commit boundary. -/
structure BrainPublisher where
  role : BrainRole
  term : Term
  lastPublishedGeneration : Generation
  committedGeneration : Generation
  published : Std.ExtTreeMap Generation PlacementSnapshot

namespace BrainPublisher

def new (role : BrainRole) (term : Term) (committedGeneration : Generation) :
    Except ModelError BrainPublisher :=
  if term = 0 then .error .invalidTerm
  else .ok
    { role := role
      term := term
      lastPublishedGeneration := committedGeneration
      committedGeneration := committedGeneration
      published := ∅ }

def becomeLeader (p : BrainPublisher) (newTerm : Term) : Except ModelError BrainPublisher :=
  if newTerm ≤ p.term then .error (.staleTerm p.term newTerm)
  else .ok { p with
    term := newTerm
    role := .leader
    published := ∅
    lastPublishedGeneration := p.committedGeneration }

def stepDown (p : BrainPublisher) (observedTerm : Term) : Except ModelError BrainPublisher :=
  if observedTerm < p.term then .error (.staleTerm p.term observedTerm)
  else .ok { p with
    term := observedTerm
    role := .follower
    published := ∅
    lastPublishedGeneration := p.committedGeneration }

def publishNext (p : BrainPublisher) (assignments : Std.ExtTreeMap ShardId (List NodeId)) :
    Except ModelError (PlacementSnapshot × BrainPublisher) := do
  if p.role ≠ .leader then .error .notLeader
  else
    match checkedAdd p.lastPublishedGeneration 1 with
    | none => .error .generationOverflow
    | some generation =>
      let snapshot ← PlacementSnapshot.new p.term generation assignments
      .ok (snapshot, { p with
        lastPublishedGeneration := generation
        published := p.published.insert generation snapshot })

/-- Record the result of the Raft commit boundary. -/
def commit (p : BrainPublisher) (snapshot : PlacementSnapshot) : Except ModelError BrainPublisher :=
  if p.role ≠ .leader then .error .notLeader
  else if snapshot.term ≠ p.term then .error (.staleTerm p.term snapshot.term)
  else if snapshot.generation = p.committedGeneration then .ok p
  else
    match checkedAdd p.committedGeneration 1 with
    | none => .error .generationOverflow
    | some expected =>
      if snapshot.generation ≠ expected then
        .error (.nonSequentialCommit expected snapshot.generation)
      else
        match p.published[snapshot.generation]? with
        | some published =>
          if published = snapshot then .ok { p with committedGeneration := snapshot.generation }
          else .error (.conflictingGeneration snapshot.generation)
        | none => .error (.unknownPublishedGeneration snapshot.generation)

def writeFence (p : BrainPublisher) (generation : Generation) : Except ModelError WriteFence :=
  if p.role ≠ .leader then .error .notLeader
  else if generation ≠ p.committedGeneration ∨ generation = 0 then
    .error (.uncommittedGeneration p.committedGeneration generation)
  else .ok { term := p.term, generation := generation }

end BrainPublisher

/-! ## The node -/

structure ActivePlacement where
  generation : Generation
  assignedShards : Finset ShardId
  deriving DecidableEq

structure StagedPlacement where
  snapshot : PlacementSnapshot
  assignedShards : Finset ShardId
  acknowledgedShards : Finset ShardId
  deriving DecidableEq

inductive StageOutcome
  | staged
  | duplicateStaged
  | duplicateActive
  deriving DecidableEq, Repr

inductive AckOutcome
  | recorded
  | replay
  deriving DecidableEq, Repr

/-- Node-side durable activation model. -/
structure NodeReplica where
  nodeId : NodeId
  observedTerm : Term
  active : Option ActivePlacement
  staged : Option StagedPlacement
  writeFence : Option WriteFence
  deriving DecidableEq

namespace NodeReplica

def new (nodeId : NodeId) : NodeReplica where
  nodeId := nodeId
  observedTerm := 0
  active := none
  staged := none
  writeFence := none

def activeGeneration (r : NodeReplica) : Option Generation := r.active.map (·.generation)

def activeShards (r : NodeReplica) : Finset ShardId :=
  match r.active with
  | none => ∅
  | some placement => placement.assignedShards

def observeTerm (r : NodeReplica) (term : Term) : Except ModelError NodeReplica :=
  if term = 0 then .error .invalidTerm
  else if term < r.observedTerm then .error (.staleTerm r.observedTerm term)
  else if term > r.observedTerm then .ok { r with
    observedTerm := term
    writeFence := none
    staged := r.staged.filter fun placement => ¬ placement.snapshot.term < term }
  else .ok r

/-- Stage a snapshot. An error past the term check leaves the term observed. -/
def stage (r : NodeReplica) (snapshot : PlacementSnapshot) :
    NodeReplica × Except ModelError StageOutcome :=
  if snapshot.term < r.observedTerm then (r, .error (.staleTerm r.observedTerm snapshot.term))
  else
    match r.observeTerm snapshot.term with
    | .error e => (r, .error e)
    | .ok r =>
      let assignedShards := snapshot.shardsFor r.nodeId
      match againstActive r snapshot assignedShards with
      | some outcome => (r, outcome)
      | none =>
        match againstStaged r snapshot with
        | some outcome => (r, outcome)
        | none =>
          ({ r with
            writeFence := none
            staged := some
              { snapshot := snapshot, assignedShards := assignedShards, acknowledgedShards := ∅ } },
            .ok .staged)
where
  /-- The answer that the active placement decides. -/
  againstActive (r : NodeReplica) (snapshot : PlacementSnapshot) (assignedShards : Finset ShardId) :
      Option (Except ModelError StageOutcome) :=
    match r.active with
    | none => none
    | some active =>
      if snapshot.generation < active.generation then
        some (.error (.staleGeneration active.generation snapshot.generation))
      else if snapshot.generation = active.generation then
        if assignedShards = active.assignedShards then some (.ok .duplicateActive)
        else some (.error (.conflictingGeneration snapshot.generation))
      else none
  /-- The answer that the staged placement decides. -/
  againstStaged (r : NodeReplica) (snapshot : PlacementSnapshot) :
      Option (Except ModelError StageOutcome) :=
    match r.staged with
    | none => none
    | some staged =>
      if snapshot.generation < staged.snapshot.generation then
        some (.error (.staleGeneration staged.snapshot.generation snapshot.generation))
      else if snapshot.generation = staged.snapshot.generation then
        if snapshot = staged.snapshot then some (.ok .duplicateStaged)
        else some (.error (.conflictingGeneration snapshot.generation))
      else none

def acknowledgeShard (r : NodeReplica) (generation : Generation) (shard : ShardId) :
    Except ModelError (AckOutcome × NodeReplica) :=
  match r.staged with
  | none => .error .noStagedPlacement
  | some staged =>
    if generation ≠ staged.snapshot.generation then
      .error (.ackGenerationMismatch staged.snapshot.generation generation)
    else if shard ∉ staged.assignedShards then .error (.shardNotAssigned shard)
    else .ok
      (if shard ∈ staged.acknowledgedShards then .replay else .recorded,
        { r with staged := some { staged with
            acknowledgedShards := insert shard staged.acknowledgedShards } })

def activate (r : NodeReplica) (generation : Generation) : Except ModelError NodeReplica :=
  match r.staged with
  | none => .error .noStagedPlacement
  | some staged =>
    if generation ≠ staged.snapshot.generation then
      .error (.ackGenerationMismatch staged.snapshot.generation generation)
    else if staged.snapshot.term ≠ r.observedTerm then
      .error (.staleTerm r.observedTerm staged.snapshot.term)
    else if staged.assignedShards \ staged.acknowledgedShards ≠ ∅ then
      .error (.partialActivation (staged.assignedShards \ staged.acknowledgedShards))
    else .ok { r with
      active := some { generation := generation, assignedShards := staged.assignedShards }
      staged := none
      writeFence := none }

def installWriteFence (r : NodeReplica) (fence : WriteFence) : Except ModelError NodeReplica :=
  if fence.term ≠ r.observedTerm then .error (.staleTerm r.observedTerm fence.term)
  else
    match r.active with
    | none => .error .noActivePlacement
    | some active =>
      if active.generation ≠ fence.generation then
        .error (.authorityMismatch active.generation fence.generation)
      else .ok { r with writeFence := some fence }

def acceptsWrite (r : NodeReplica) (fence : WriteFence) (shard : ShardId) : Bool :=
  r.writeFence = some fence ∧ r.active.any fun active =>
    active.generation = fence.generation ∧ shard ∈ active.assignedShards

/-- Restart: what is active and what is staged survive, acknowledgements and authority do not. -/
def restart (r : NodeReplica) : NodeReplica :=
  { r with
    writeFence := none
    staged := r.staged.map fun staged => { staged with acknowledgedShards := ∅ } }

end NodeReplica

end FiduciaBrain.Composition
