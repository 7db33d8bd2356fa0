import FiduciaBrain.Infra.Guarded
import Mathlib.Data.Finset.SDiff
import Mathlib.Data.Finset.Card

/-!
# The executable model of the reconciler

`formal/brain_scheduler.qnt`: one shard on four nodes, the decisions of the leader's tick as named
actions: only the leader writes, it holds on incomplete or degraded membership, and a node is
forgotten only once no placement needs it (`SchedulerSafety`).
-/

namespace FiduciaBrain.SchedulerReplay

open Infra

inductive Role
  | leader
  | follower
  deriving DecidableEq, Repr

inductive Event
  | initEvent
  | becameLeader
  | becameFollower
  | softMembershipLost
  | heartbeatRestored
  | nodeAdded
  | nodeDied
  | drainStarted
  | drainEvacuated
  | coldStartPrepared
  | snapshotRestored
  | followerHeld
  | incompleteHeld
  | degradedHeld
  | forgetRejected
  | coldAdopted
  | deadReplaced
  | drainReplacedAndForgotten
  | drainForgottenAfterPlacement
  | idempotentHeld
  deriving DecidableEq, Repr

def nodes : Finset Nat := {1, 2, 3, 4}

def abc : Finset Nat := {1, 2, 3}

def bcd : Finset Nat := {2, 3, 4}

/-- `RF`. -/
def replicas : Nat := 3

def noNode : Nat := 0

structure State where
  role : Role
  known : Finset Nat
  healthy : Finset Nat
  draining : Finset Nat
  hosted : Finset Nat
  observedLeader : Nat
  placement : Finset Nat
  preferredLeader : Nat
  generation : Nat
  forgotten : Finset Nat
  lastEvent : Event
  lastGenerationDelta : Nat
  lastPlacementWrite : Bool
  lastForgetWrite : Bool
  deriving DecidableEq

def initial : State where
  role := .leader
  known := abc
  healthy := abc
  draining := ∅
  hosted := abc
  observedLeader := 1
  placement := abc
  preferredLeader := 1
  generation := 1
  forgotten := ∅
  lastEvent := .initEvent
  lastGenerationDelta := 0
  lastPlacementWrite := false
  lastForgetWrite := false

inductive Action
  | becomeFollower
  | becomeLeader
  | loseAFromSoftMembership
  | heartbeatA
  | addD
  | markADead
  | beginDrainA
  | evacuateA
  | prepareColdStart
  | restoreSnapshotBcd
  | reconcileFollowerHold
  | reconcileIncompleteHold
  | reconcileDegradedHold
  | attemptForgetARejected
  | reconcileColdAdopt
  | reconcileReplaceDeadA
  | reconcileReplaceAndForgetDrainedA
  | reconcileForgetDrainedAAfterPlacement
  | reconcileIdempotent
  | idle
  deriving DecidableEq, Repr

/-- The accounting of an action that writes nothing. -/
def State.holds (s : State) (event : Event) : State :=
  { s with
    lastEvent := event
    lastGenerationDelta := 0
    lastPlacementWrite := false
    lastForgetWrite := false }

/-- The accounting of an action that writes the placement. -/
def State.writes (s : State) (event : Event) (forgets : Bool) : State :=
  { s with
    generation := s.generation + 1
    lastEvent := event
    lastGenerationDelta := 1
    lastPlacementWrite := true
    lastForgetWrite := forgets }

/-- The leader observed once node 1 no longer counts. -/
def State.leaderWithoutA (s : State) : Nat :=
  if s.observedLeader = 1 then noNode else s.observedLeader

namespace Action

/-- The guard of an action. -/
def Enabled (s : State) : Action → Prop
  | becomeFollower => s.role = .leader
  | becomeLeader => s.role = .follower
  | loseAFromSoftMembership => 1 ∈ s.known ∧ 1 ∉ s.forgotten ∧ s.observedLeader = 1
  | heartbeatA => 1 ∉ s.forgotten ∧ 1 ∉ s.known
  | addD => 4 ∉ s.known
  | markADead => 1 ∈ s.known ∧ 1 ∈ s.healthy ∧ 1 ∉ s.draining
  | beginDrainA => 1 ∈ s.known ∧ 1 ∈ s.healthy ∧ 1 ∉ s.forgotten
  | evacuateA => 1 ∈ s.draining ∧ 1 ∈ s.hosted
  | prepareColdStart =>
    s.role = .leader ∧ s.generation = 1 ∧ s.known = abc ∧ s.healthy = abc ∧ s.draining.card = 0 ∧
      s.placement = abc ∧ s.forgotten.card = 0
  | restoreSnapshotBcd =>
    s.role = .leader ∧ s.generation = 1 ∧ s.placement = abc ∧ s.forgotten.card = 0
  | reconcileFollowerHold => s.role = .follower
  | reconcileIncompleteHold =>
    s.role = .leader ∧ s.placement.card > 0 ∧ ¬ s.placement ⊆ s.known
  | reconcileDegradedHold =>
    s.role = .leader ∧ s.placement = abc ∧ s.placement ⊆ s.known ∧ s.healthy = {2, 3} ∧
      1 ∈ s.draining ∧ 1 ∉ s.hosted
  | attemptForgetARejected =>
    s.role = .leader ∧ 1 ∈ s.known ∧ 1 ∈ s.draining ∧ 1 ∉ s.hosted ∧ 1 ∈ s.placement
  | reconcileColdAdopt =>
    s.role = .leader ∧ s.placement.card = 0 ∧ s.known = abc ∧ s.healthy = abc ∧ s.hosted = abc ∧
      s.observedLeader = 2
  | reconcileReplaceDeadA =>
    s.role = .leader ∧ s.known = nodes ∧ s.healthy = bcd ∧ s.draining.card = 0 ∧
      s.placement = abc ∧ s.observedLeader = noNode
  | reconcileReplaceAndForgetDrainedA =>
    s.role = .leader ∧ s.known = nodes ∧ s.healthy = bcd ∧ s.draining = {1} ∧ 1 ∉ s.hosted ∧
      s.placement = abc ∧ s.observedLeader = noNode
  | reconcileForgetDrainedAAfterPlacement =>
    s.role = .leader ∧ s.known = nodes ∧ s.healthy = bcd ∧ s.draining = {1} ∧ 1 ∉ s.hosted ∧
      s.placement = bcd ∧ s.preferredLeader = 2
  | reconcileIdempotent =>
    s.role = .leader ∧ s.placement ⊆ s.known ∧ s.placement ⊆ s.healthy ∧
      ¬ (1 ∈ s.draining ∧ 1 ∉ s.hosted ∧ 1 ∉ s.placement) ∧
      (s.placement = abc ∧ s.preferredLeader = 1 ∧ s.observedLeader = 1 ∨
        s.placement = abc ∧ s.preferredLeader = 2 ∧ s.observedLeader = 2 ∨
        s.placement = bcd ∧ s.preferredLeader = 2 ∧ s.observedLeader = noNode ∨
        s.placement = bcd ∧ s.preferredLeader = 2 ∧ s.observedLeader = 1)
  | idle => True

instance (s : State) (a : Action) : Decidable (a.Enabled s) := by
  cases a <;> dsimp only [Enabled] <;> infer_instance

/-- What an enabled action does. -/
def apply (s : State) : Action → State
  | becomeFollower => { s with role := .follower }.holds .becameFollower
  | becomeLeader => { s with role := .leader }.holds .becameLeader
  | loseAFromSoftMembership =>
    { s with
      known := s.known \ {1}
      healthy := s.healthy \ {1}
      draining := s.draining \ {1}
      hosted := s.hosted \ {1}
      observedLeader := noNode }.holds .softMembershipLost
  | heartbeatA =>
    { s with
      known := s.known ∪ {1}
      healthy := s.healthy ∪ {1}
      hosted := s.hosted ∪ {1}
      observedLeader := 1 }.holds .heartbeatRestored
  | addD =>
    { s with known := s.known ∪ {4}, healthy := s.healthy ∪ {4} }.holds .nodeAdded
  | markADead =>
    { s with healthy := s.healthy \ {1}, observedLeader := s.leaderWithoutA }.holds .nodeDied
  | beginDrainA =>
    { s with
      healthy := s.healthy \ {1}
      draining := s.draining ∪ {1}
      observedLeader := s.leaderWithoutA }.holds .drainStarted
  | evacuateA =>
    { s with
      hosted := s.hosted \ {1}
      observedLeader := s.leaderWithoutA }.holds .drainEvacuated
  | prepareColdStart =>
    { s with
      placement := ∅
      preferredLeader := noNode
      hosted := abc
      observedLeader := 2 }.writes .coldStartPrepared false
  | restoreSnapshotBcd =>
    { s with placement := bcd, preferredLeader := 2 }.writes .snapshotRestored false
  | reconcileFollowerHold => s.holds .followerHeld
  | reconcileIncompleteHold => s.holds .incompleteHeld
  | reconcileDegradedHold => s.holds .degradedHeld
  | attemptForgetARejected => s.holds .forgetRejected
  | reconcileColdAdopt =>
    { s with placement := abc, preferredLeader := 2 }.writes .coldAdopted false
  | reconcileReplaceDeadA =>
    { s with placement := bcd, preferredLeader := 2 }.writes .deadReplaced false
  | reconcileReplaceAndForgetDrainedA =>
    { s with
      known := bcd
      draining := ∅
      placement := bcd
      preferredLeader := 2
      forgotten := s.forgotten ∪ {1} }.writes .drainReplacedAndForgotten true
  | reconcileForgetDrainedAAfterPlacement =>
    { { s with
        known := bcd
        draining := ∅
        forgotten := s.forgotten ∪ {1} }.holds .drainForgottenAfterPlacement with
      lastForgetWrite := true }
  | reconcileIdempotent => s.holds .idempotentHeld
  | idle => s

end Action

/-- An action, if its guard holds. -/
def fire : State → Action → Option State := fireIf (fun s a => a.Enabled s) Action.apply

/-- The transition system of the file. -/
def system : TransitionSystem State := guarded fire (· = initial)

variable {s s' : State} {a : Action}

theorem fire_eq_some : fire s a = some s' ↔ a.Enabled s ∧ s' = a.apply s := fireIf_eq_some

/-! ## Safety -/

section Predicates

variable (s : State)

structure IdentifiersAreBounded : Prop where
  known : s.known ⊆ nodes
  healthy : s.healthy ⊆ nodes
  draining : s.draining ⊆ nodes
  hosted : s.hosted ⊆ nodes
  placement : s.placement ⊆ nodes
  forgotten : s.forgotten ⊆ nodes
  healthyKnown : s.healthy ⊆ s.known
  drainingKnown : s.draining ⊆ s.known
  hostedKnown : s.hosted ⊆ s.known
  healthyOrDraining : (s.healthy ∩ s.draining).card = 0
  forgottenUnknown : (s.forgotten ∩ s.known).card = 0
  observedLeader : s.observedLeader = noNode ∨ s.observedLeader ∈ nodes
  preferredLeader : s.preferredLeader = noNode ∨ s.preferredLeader ∈ nodes

structure PlacementShape : Prop where
  size : s.placement.card ≤ replicas
  leader : s.preferredLeader = noNode ∨ s.preferredLeader ∈ s.placement
  forgotten : (s.forgotten ∩ s.placement).card = 0

def ObservedLeaderIsEligible : Prop :=
  s.observedLeader = noNode ∨
    s.observedLeader ∈ s.known ∧ s.observedLeader ∈ s.healthy ∧ s.observedLeader ∈ s.hosted

def TransitionAccountingIsBounded : Prop :=
  (s.lastGenerationDelta = 0 ∨ s.lastGenerationDelta = 1) ∧ 1 ≤ s.generation ∧ s.generation ≤ 4

def HoldOrRejectionHasNoWrite : Prop :=
  s.lastEvent ∈ [.followerHeld, .incompleteHeld, .degradedHeld, .forgetRejected, .idempotentHeld] →
    s.lastGenerationDelta = 0 ∧ s.lastPlacementWrite = false ∧ s.lastForgetWrite = false

def PlacementWriteAccounting : Prop :=
  s.lastPlacementWrite = true ↔
    s.lastEvent ∈ [.coldStartPrepared, .snapshotRestored, .coldAdopted, .deadReplaced,
      .drainReplacedAndForgotten]

def GenerationAccounting : Prop := s.lastGenerationDelta = if s.lastPlacementWrite then 1 else 0

def ForgetAccounting : Prop :=
  s.lastForgetWrite = true ↔
    s.lastEvent ∈ [.drainReplacedAndForgotten, .drainForgottenAfterPlacement]

def DurableWritesAreLeaderOnly : Prop :=
  s.lastPlacementWrite = true ∨ s.lastForgetWrite = true → s.role = .leader

def FollowerHoldShape : Prop := s.lastEvent = .followerHeld → s.role = .follower

def IncompleteHoldShape : Prop :=
  s.lastEvent = .incompleteHeld → s.placement.card > 0 ∧ ¬ s.placement ⊆ s.known

def DegradedHoldShape : Prop :=
  s.lastEvent = .degradedHeld →
    s.placement = abc ∧ s.healthy = {2, 3} ∧ 1 ∈ s.draining ∧ 1 ∈ s.known ∧ 1 ∉ s.hosted

def RejectedForgetShape : Prop :=
  s.lastEvent = .forgetRejected →
    1 ∈ s.known ∧ 1 ∈ s.draining ∧ 1 ∈ s.placement ∧ 1 ∉ s.forgotten

def ColdAdoptionShape : Prop :=
  s.lastEvent = .coldAdopted → s.placement = abc ∧ s.preferredLeader = 2 ∧ s.generation ≥ 3

def DeadReplacementShape : Prop :=
  s.lastEvent = .deadReplaced →
    s.known = nodes ∧ s.healthy = bcd ∧ s.placement = bcd ∧ s.preferredLeader = 2 ∧
      1 ∉ s.forgotten

def DrainFinalizationIsSafe : Prop :=
  s.lastEvent ∈ [.drainReplacedAndForgotten, .drainForgottenAfterPlacement] →
    s.known = bcd ∧ s.healthy = bcd ∧ s.placement = bcd ∧ s.preferredLeader = 2 ∧
      1 ∉ s.draining ∧ 1 ∈ s.forgotten

def SnapshotIsAuthoritative : Prop :=
  s.lastEvent = .snapshotRestored →
    s.placement = bcd ∧ s.preferredLeader = 2 ∧ s.lastGenerationDelta = 1

/-- `scheduler_safety`. -/
structure SchedulerSafety : Prop where
  bounded : IdentifiersAreBounded s
  placement : PlacementShape s
  observedLeader : ObservedLeaderIsEligible s
  transition : TransitionAccountingIsBounded s
  hold : HoldOrRejectionHasNoWrite s
  placementWrite : PlacementWriteAccounting s
  generation : GenerationAccounting s
  forget : ForgetAccounting s
  leaderOnly : DurableWritesAreLeaderOnly s
  followerHold : FollowerHoldShape s
  incompleteHold : IncompleteHoldShape s
  degradedHold : DegradedHoldShape s
  rejectedForget : RejectedForgetShape s
  coldAdoption : ColdAdoptionShape s
  deadReplacement : DeadReplacementShape s
  drainFinalization : DrainFinalizationIsSafe s
  snapshot : SnapshotIsAuthoritative s

end Predicates

end FiduciaBrain.SchedulerReplay
