import FiduciaBrain.Composition.Node
import Mathlib.Data.Finset.Lattice.Lemmas

/-!
# Acknowledgements in any order

A node with a staged placement, and calls of `acknowledge_shard` with any generations and shards.
The node after them is the node before with the accepted shards added (`acknowledgeAll_eq`), so only
the set of these matters, to the node and to what `activate` makes of it.
-/

namespace FiduciaBrain.Composition.NodeReplica

variable {r : NodeReplica} {p : StagedPlacement}

/-- The calls in order, each with its generation and its shard. -/
def acknowledgeAll (r : NodeReplica) (acks : List (Generation × ShardId)) : NodeReplica :=
  r.run (acks.map fun ack => .acknowledgeShard ack.1 ack.2)

/-- The shards of the calls that return `Ok`. -/
def acceptedShards (r : NodeReplica) : List (Generation × ShardId) → Finset ShardId
  | [] => ∅
  | (generation, shard) :: rest =>
    match r.acknowledgeShard generation shard with
    | .ok (_, r') => insert shard (r'.acceptedShards rest)
    | .error _ => r.acceptedShards rest

/-- The node with these shards of its staged placement acknowledged. -/
def withAcknowledged (r : NodeReplica) (p : StagedPlacement) (shards : Finset ShardId) :
    NodeReplica :=
  { r with staged := some { p with acknowledgedShards := shards } }

/-! ## One call -/

/-- A rejected call changes nothing. -/
theorem call_of_rejected {generation : Generation} {shard : ShardId} {e : ModelError}
    (h : r.acknowledgeShard generation shard = .error e) :
    r.call (.acknowledgeShard generation shard) = r := by
  simp only [call, h]
  rfl

theorem call_of_accepted {generation : Generation} {shard : ShardId}
    {out : AckOutcome × NodeReplica} (h : r.acknowledgeShard generation shard = .ok out) :
    r.call (.acknowledgeShard generation shard) = out.2 := by
  simp only [call, h]
  rfl

theorem call_of_activate_error {generation : Generation} {e : ModelError}
    (h : r.activate generation = .error e) : r.call (.activate generation) = r := by
  simp only [call, h]
  rfl

/-! ## A sequence of calls -/

theorem acknowledgeAll_cons (generation : Generation) (shard : ShardId)
    (rest : List (Generation × ShardId)) :
    r.acknowledgeAll ((generation, shard) :: rest)
      = (r.call (.acknowledgeShard generation shard)).acknowledgeAll rest := rfl

/-- **The calls add the accepted shards and nothing else.** -/
theorem acknowledgeAll_eq (hp : r.staged = some p) (acks : List (Generation × ShardId)) :
    r.acknowledgeAll acks
      = r.withAcknowledged p (p.acknowledgedShards ∪ r.acceptedShards acks) := by
  induction acks generalizing r p with
  | nil =>
    simp only [acceptedShards, Finset.union_empty, withAcknowledged]
    rw [← hp]
    rfl
  | cons ack rest ih =>
    obtain ⟨generation, shard⟩ := ack
    rw [acknowledgeAll_cons]
    cases h : r.acknowledgeShard generation shard with
    | error e =>
      have haccepted : r.acceptedShards ((generation, shard) :: rest) = r.acceptedShards rest := by
        rw [acceptedShards, h]
      rw [call_of_rejected h, haccepted]
      exact ih hp
    | ok out =>
      obtain ⟨staged, outcome, hs, -, -, rfl⟩ := acknowledgeShard_ok h
      obtain rfl : p = staged := Option.some_inj.mp (hp.symm.trans hs)
      have haccepted : r.acceptedShards ((generation, shard) :: rest)
          = insert shard ((r.acknowledged p shard).acceptedShards rest) := by
        rw [acceptedShards, h]
      -- the call has put the shard into the staged placement that the rest starts from
      rw [call_of_accepted h, haccepted, Finset.union_insert, ← Finset.insert_union]
      exact ih (r := r.acknowledged p shard) rfl

/-! ## Activation -/

/-- **What `activate` answers**: it takes the placement over when nothing is missing, and otherwise
says what is. -/
theorem activate_withAcknowledged (hterm : p.snapshot.term = r.observedTerm)
    (shards : Finset ShardId) :
    (r.withAcknowledged p shards).activate p.snapshot.generation =
      if p.assignedShards ⊆ shards then .ok (r.activated p)
      else .error (.partialActivation (p.assignedShards \ shards)) := by
  unfold activate withAcknowledged
  simp only [ne_eq, not_true_eq_false, if_false, hterm, Finset.sdiff_eq_empty_iff_subset, ite_not]
  rfl

/-- Only assigned shards are acknowledged. -/
theorem acceptedShards_subset (hp : r.staged = some p) (acks : List (Generation × ShardId)) :
    r.acceptedShards acks ⊆ p.assignedShards := by
  induction acks generalizing r p with
  | nil => exact Finset.empty_subset _
  | cons ack rest ih =>
    obtain ⟨generation, shard⟩ := ack
    cases h : r.acknowledgeShard generation shard with
    | error e =>
      rw [acceptedShards, h]
      exact ih hp
    | ok out =>
      obtain ⟨staged, outcome, hs, -, hshard, rfl⟩ := acknowledgeShard_ok h
      obtain rfl : p = staged := Option.some_inj.mp (hp.symm.trans hs)
      rw [acceptedShards, h]
      exact Finset.insert_subset hshard (ih (r := r.acknowledged p shard)
        (p := { p with acknowledgedShards := insert shard p.acknowledgedShards }) rfl)

/-- **The order of acknowledgements does not matter.** Two sequences of calls on a node with a staged
placement that accept the same set of shards leave the same node. A rejected call changes nothing.
`activate` succeeds after one exactly when it does after the other, and of the staged generation
exactly when every assigned shard is acknowledged; when it fails it changes nothing and says which
are missing. -/
theorem acknowledgements_commute {nodeId : NodeId} {calls : List Call}
    (hr : r = (new nodeId).run calls) (hp : r.staged = some p)
    {acks acks' : List (Generation × ShardId)}
    (hsame : r.acceptedShards acks = r.acceptedShards acks') :
    r.acknowledgeAll acks = r.acknowledgeAll acks' ∧
    (∀ generation shard e,
      (r.acknowledgeAll acks).acknowledgeShard generation shard = .error e →
        (r.acknowledgeAll acks).call (.acknowledgeShard generation shard)
          = r.acknowledgeAll acks) ∧
    (∀ generation, (∃ r', (r.acknowledgeAll acks).activate generation = .ok r') ↔
      ∃ r', (r.acknowledgeAll acks').activate generation = .ok r') ∧
    ((∃ r', (r.acknowledgeAll acks).activate p.snapshot.generation = .ok r') ↔
      p.acknowledgedShards ∪ r.acceptedShards acks = p.assignedShards) ∧
    (∀ generation e, (r.acknowledgeAll acks).activate generation = .error e →
      (r.acknowledgeAll acks).call (.activate generation) = r.acknowledgeAll acks) ∧
    (p.acknowledgedShards ∪ r.acceptedShards acks ≠ p.assignedShards →
      (r.acknowledgeAll acks).activate p.snapshot.generation = .error (.partialActivation
        (p.assignedShards \ (p.acknowledgedShards ∪ r.acceptedShards acks)))) := by
  have hfenced : Fenced r := hr ▸ (fenced_new nodeId).run calls
  have hsub : p.acknowledgedShards ∪ r.acceptedShards acks ⊆ p.assignedShards :=
    Finset.union_subset (hfenced.acknowledged p hp) (acceptedShards_subset hp acks)
  have hall : p.assignedShards ⊆ p.acknowledgedShards ∪ r.acceptedShards acks ↔
      p.acknowledgedShards ∪ r.acceptedShards acks = p.assignedShards :=
    ⟨fun h => hsub.antisymm h, fun h => h ▸ Finset.Subset.refl _⟩
  have heq : r.acknowledgeAll acks = r.acknowledgeAll acks' := by
    rw [acknowledgeAll_eq hp, acknowledgeAll_eq hp, hsame]
  have hactivate := activate_withAcknowledged (hfenced.term p hp)
    (p.acknowledgedShards ∪ r.acceptedShards acks)
  rw [← acknowledgeAll_eq hp] at hactivate
  refine ⟨heq, fun _ _ _ h => call_of_rejected h, fun _ => by rw [heq], ?_,
    fun _ _ h => call_of_activate_error h, fun hne => ?_⟩
  · rw [hactivate, ← hall]
    split <;> simp_all
  · rw [hactivate, if_neg (mt hall.mp hne)]

/-- A snapshot that gives a node three shards. -/
def threeShards : PlacementSnapshot where
  term := 4
  generation := 9
  assignments := ((Std.ExtTreeMap.empty.insert 1 {7}).insert 2 {7}).insert 3 {7}

def threeStaged : NodeReplica := (new 7).run [.stage threeShards]

def threePlacement : StagedPlacement where
  snapshot := threeShards
  assignedShards := threeShards.shardsFor 7
  acknowledgedShards := ∅

theorem acknowledgements_commute_three :
    threeStaged.acknowledgeAll [(9, 1), (8, 3), (9, 2)]
        = threeStaged.acknowledgeAll [(9, 2), (9, 5), (9, 1), (9, 2)] ∧
      (threeStaged.acknowledgeAll [(9, 1), (8, 3), (9, 2)]).activate 9
        = .error (.partialActivation {3}) := by
  have hp : threeStaged.staged = some threePlacement := by decide
  have hsame : threeStaged.acceptedShards [(9, 1), (8, 3), (9, 2)]
      = threeStaged.acceptedShards [(9, 2), (9, 5), (9, 1), (9, 2)] := by decide
  have hrun : threeStaged = (new 7).run [.stage threeShards] := rfl
  obtain ⟨heq, -, -, -, -, hmissing⟩ := acknowledgements_commute hrun hp hsame
  refine ⟨heq, (hmissing (by decide)).trans ?_⟩
  exact congrArg (fun missing => Except.error (ModelError.partialActivation missing)) (by decide)

end FiduciaBrain.Composition.NodeReplica
