import FiduciaBrain.Membership
import FiduciaBrain.Placement

/-!
# The replicated commands

`src/cluster.rs`: the three commands of the replicated log and the one definition of how they
mutate the brain's state. The replicated part of that state is the placement map and the scale
plan (`Replicated`); a command's effect on it does not depend on the soft state beside it
(`replicated_applyCommand`).
-/

namespace FiduciaBrain

/-- A durable, replicated state mutation. -/
inductive Command
  | assignShard (assignment : ShardAssignment)
  | setScalePlan (plan : ScalePlan)
  | forgetNode (nodeId : NodeId)
  deriving DecidableEq, Repr

/-- The handles a committed command is applied to. -/
structure StateMachine where
  membership : Membership
  placement : Placement
  plan : ScalePlan

/-- Is the node a replica of some current assignment? -/
def stillAssigned (placement : Placement) (nodeId : NodeId) : Bool :=
  placement.snapshot.any (fun assignment => assignment.replicas.any (· == nodeId))

/-- Apply one committed command. A node that an assignment still requires is not forgotten. -/
def applyCommand (sm : StateMachine) : Command → StateMachine
  | .assignShard assignment => { sm with placement := sm.placement.assign assignment }
  | .setScalePlan plan => { sm with plan := plan }
  | .forgetNode nodeId =>
    if stillAssigned sm.placement nodeId then sm
    else { sm with membership := (sm.membership.forget nodeId).2 }

/-- What the log replicates: the placement map and the scale plan. -/
structure Replicated where
  assignments : Assignments
  plan : ScalePlan

def StateMachine.replicated (sm : StateMachine) : Replicated where
  assignments := sm.placement.assignments
  plan := sm.plan

/-- The effect of a command on the replicated part. -/
def Replicated.apply (st : Replicated) : Command → Replicated
  | .assignShard assignment => { st with assignments := st.assignments.insert assignment }
  | .setScalePlan plan => { st with plan := plan }
  | .forgetNode _ => st

theorem replicated_applyCommand (sm : StateMachine) (c : Command) :
    (applyCommand sm c).replicated = sm.replicated.apply c := by
  cases c with
  | assignShard assignment => rfl
  | setScalePlan plan => rfl
  | forgetNode nodeId =>
    simp only [applyCommand]
    split <;> rfl

end FiduciaBrain
