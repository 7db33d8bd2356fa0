import FiduciaBrain.Infra.Guarded
import FiduciaBrain.Infra.Majority
import Mathlib.Data.Finset.SDiff

/-!
# Staged replacement of a voter

`formal/brain_reconfiguration.qnt`: how the data plane enacts one replica move of a shard.

    plan → add learner → catch up → promote → transfer leader → remove old

The node set and the replication factor are parameters here; the file fixes four nodes and a factor
of three.
-/

namespace FiduciaBrain.Reconfiguration

open Infra

inductive Phase
  | stable
  | planned
  | learnerAdded
  | caughtUp
  | promoted
  deriving DecidableEq, Repr

inductive Event
  | initEvent
  | membershipLost
  | membershipRestored
  | healthChanged
  | incompleteHeld
  | degradedHeld
  | movePlanned
  | learnerAddedEvent
  | caughtUpEvent
  | promotedEvent
  | leaderTransferred
  | oldRemoved
  | unpromotedAborted
  | promotedRolledBack
  deriving DecidableEq, Repr

variable {α : Type} [DecidableEq α]

/-- The constants `NODES`, `RF` and `NO_NODE`. -/
structure Params (α : Type) where
  nodes : Finset α
  rf : Nat
  noNode : α

structure State (α : Type) where
  known : Finset α
  healthy : Finset α
  voters : Finset α
  learners : Finset α
  leader : α
  phase : Phase
  moveFrom : α
  moveTo : α
  votersBeforeMove : Finset α
  knownAtPlan : Finset α
  healthyAtPlan : Finset α
  lastEvent : Event
  deriving DecidableEq

namespace State

def membershipComplete (s : State α) : Prop := s.voters ⊆ s.known

instance (s : State α) : Decidable s.membershipComplete :=
  inferInstanceAs (Decidable (s.voters ⊆ s.known))

end State

/-- Everything known and healthy, `rf` voters, one of them the leader. -/
def init (c : Params α) (s : State α) : Prop :=
  ∃ voters leader, voters ⊆ c.nodes ∧ voters.card = c.rf ∧ leader ∈ voters ∧
    s =
      { known := c.nodes
        healthy := c.nodes
        voters := voters
        learners := ∅
        leader := leader
        phase := .stable
        moveFrom := c.noNode
        moveTo := c.noNode
        votersBeforeMove := voters
        knownAtPlan := c.nodes
        healthyAtPlan := c.nodes
        lastEvent := .initEvent }

inductive Action (α : Type)
  | loseMembership (node : α)
  | restoreMembership (node : α)
  | markHealthy (node : α)
  | markUnhealthy (node : α)
  | holdIncompleteMembership
  | holdDegradedMembership
  | planMove (source target : α)
  | addLearner
  | catchUpLearner
  | promoteLearner
  | transferLeader (candidate : α)
  | removeOldVoter
  | abortUnpromoted
  | rollbackPromoted
  | idle
  deriving DecidableEq, Repr

namespace Action

/-- The guard of an action. -/
def Enabled (c : Params α) (s : State α) : Action α → Prop
  | loseMembership node => s.phase = .stable ∧ node ∈ s.known
  | restoreMembership node => s.phase = .stable ∧ node ∈ c.nodes ∧ node ∉ s.known
  | markHealthy node => node ∈ c.nodes
  | markUnhealthy node => node ∈ c.nodes
  | holdIncompleteMembership => s.phase = .stable ∧ ¬ s.membershipComplete
  | holdDegradedMembership => s.phase = .stable ∧ s.membershipComplete ∧ s.healthy.card < c.rf
  | planMove source target =>
    s.phase = .stable ∧ s.membershipComplete ∧ c.rf ≤ s.healthy.card ∧ source ∈ s.voters ∧
      target ∈ s.known ∧ target ∉ s.voters ∧ target ∈ s.healthy
  | addLearner => s.phase = .planned ∧ s.moveTo ∈ s.known ∧ s.moveTo ∈ s.healthy
  | catchUpLearner => s.phase = .learnerAdded ∧ s.moveTo ∈ s.learners ∧ s.moveTo ∈ s.healthy
  | promoteLearner => s.phase = .caughtUp ∧ s.moveTo ∈ s.learners ∧ s.moveTo ∈ s.healthy
  | transferLeader candidate =>
    candidate ∈ s.voters ∧ candidate ∈ s.healthy ∧ candidate ≠ s.leader
  | removeOldVoter =>
    s.phase = .promoted ∧ s.moveFrom ∈ s.voters ∧ s.moveTo ∈ s.voters ∧ s.moveTo ∈ s.healthy ∧
      s.leader ≠ s.moveFrom
  | abortUnpromoted => s.phase = .planned ∨ s.phase = .learnerAdded ∨ s.phase = .caughtUp
  | rollbackPromoted =>
    s.phase = .promoted ∧ s.moveFrom ∈ s.voters ∧ s.moveTo ∈ s.voters ∧ s.leader ≠ s.moveTo
  | idle => True

instance (c : Params α) (s : State α) (a : Action α) : Decidable (a.Enabled c s) := by
  cases a <;> dsimp only [Enabled] <;> infer_instance

/-- What an enabled action does. -/
def apply (c : Params α) (s : State α) : Action α → State α
  | loseMembership node => { s with known := s.known.erase node, lastEvent := .membershipLost }
  | restoreMembership node =>
    { s with known := insert node s.known, lastEvent := .membershipRestored }
  | markHealthy node => { s with healthy := insert node s.healthy, lastEvent := .healthChanged }
  | markUnhealthy node => { s with healthy := s.healthy.erase node, lastEvent := .healthChanged }
  | holdIncompleteMembership => { s with lastEvent := .incompleteHeld }
  | holdDegradedMembership => { s with lastEvent := .degradedHeld }
  | planMove source target =>
    { s with
      phase := .planned
      moveFrom := source
      moveTo := target
      votersBeforeMove := s.voters
      knownAtPlan := s.known
      healthyAtPlan := s.healthy
      lastEvent := .movePlanned }
  | addLearner =>
    { s with
      learners := insert s.moveTo s.learners
      phase := .learnerAdded
      lastEvent := .learnerAddedEvent }
  | catchUpLearner => { s with phase := .caughtUp, lastEvent := .caughtUpEvent }
  | promoteLearner =>
    { s with
      voters := insert s.moveTo s.voters
      learners := s.learners.erase s.moveTo
      phase := .promoted
      lastEvent := .promotedEvent }
  | transferLeader candidate => { s with leader := candidate, lastEvent := .leaderTransferred }
  | removeOldVoter =>
    { s with
      voters := s.voters.erase s.moveFrom
      phase := .stable
      moveFrom := c.noNode
      moveTo := c.noNode
      lastEvent := .oldRemoved }
  | abortUnpromoted =>
    { s with
      voters := s.votersBeforeMove
      learners := ∅
      phase := .stable
      moveFrom := c.noNode
      moveTo := c.noNode
      lastEvent := .unpromotedAborted }
  | rollbackPromoted =>
    { s with
      voters := s.voters.erase s.moveTo
      learners := ∅
      phase := .stable
      moveFrom := c.noNode
      moveTo := c.noNode
      lastEvent := .promotedRolledBack }
  | idle => s

end Action

/-- An action, if its guard holds. -/
def fire (c : Params α) : State α → Action α → Option (State α) :=
  fireIf (fun s a => a.Enabled c s) fun s a => a.apply c s

/-- One action after the other. -/
def execute (c : Params α) : State α → List (Action α) → Option (State α) := runAll (fire c)

/-- The transition system of the file. -/
def system (c : Params α) : TransitionSystem (State α) := guarded (fire c) (init c)

variable {c : Params α} {s s' : State α}

theorem fire_eq_some {a : Action α} :
    fire c s a = some s' ↔ a.Enabled c s ∧ s' = a.apply c s :=
  fireIf_eq_some

theorem steps_of_execute {as : List (Action α)} (h : execute c s as = some s') :
    (system c).Steps s s' :=
  steps_of_runAll _ h

end FiduciaBrain.Reconfiguration
