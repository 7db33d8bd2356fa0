import FiduciaBrain.Infra.Transition
import FiduciaBrain.Scheduler.Suspect

/-!
# A single-member brain

Everything that writes the state of a brain with a local control plane: the handlers of `src/api.rs`
(`heartbeat` through `sanitize_report`, `remove_node`, `set_scale`, `set_policy`) and the two calls of
the scheduler's loop, the sweep and the tick, in any order.
-/

namespace FiduciaBrain.Scheduler

open Infra

/-! ## Reports at the trust boundary -/

/-- `Vec::retain` with a predicate and a set of what was seen: the first occurrences of what `keep`
accepts. -/
def retainFirst (keep : ShardId → Bool) : List ShardId → List ShardId → List ShardId
  | _, [] => []
  | seen, shard :: rest =>
    if keep shard && !seen.contains shard then shard :: retainFirst keep (shard :: seen) rest
    else retainFirst keep seen rest

/-- Drop the shards that do not exist, the duplicates, and the leading claims without hosting. -/
def sanitizeReport (report : HeartbeatReport) (shardCount : Nat) : HeartbeatReport :=
  let hosted := retainFirst (fun shard => decide (shard < shardCount)) [] report.hostedShards
  { report with
    hostedShards := hosted
    leadingShards := retainFirst hosted.contains [] report.leadingShards }

theorem retainFirst_spec (keep : ShardId → Bool) (seen l : List ShardId) :
    (retainFirst keep seen l).Nodup ∧
      ∀ shard ∈ retainFirst keep seen l, keep shard = true ∧ shard ∉ seen := by
  induction l generalizing seen with
  | nil => exact ⟨List.nodup_nil, fun _ h => by cases h⟩
  | cons x rest ih =>
    unfold retainFirst
    split
    · next h =>
      obtain ⟨hnodup, hmem⟩ := ih (x :: seen)
      simp only [Bool.and_eq_true, Bool.not_eq_true', List.contains_eq_mem,
        decide_eq_false_iff_not] at h
      refine ⟨List.nodup_cons.mpr ⟨fun hx => (hmem x hx).2 List.mem_cons_self, hnodup⟩, ?_⟩
      intro shard hs
      rcases List.mem_cons.mp hs with rfl | hs
      · exact h
      · exact ⟨(hmem shard hs).1, fun hseen => (hmem shard hs).2 (List.mem_cons_of_mem _ hseen)⟩
    · exact ih seen

/-- A sanitized report hosts existing shards, each once. -/
theorem sanitizeReport_hosted (report : HeartbeatReport) (shardCount : Nat) :
    (sanitizeReport report shardCount).hostedShards.Nodup ∧
      ∀ shard ∈ (sanitizeReport report shardCount).hostedShards, shard < shardCount := by
  obtain ⟨hnodup, hmem⟩ :=
    retainFirst_spec (fun shard => decide (shard < shardCount)) [] report.hostedShards
  exact ⟨hnodup, fun shard h => of_decide_eq_true (hmem shard h).1⟩

/-! ## The actions -/

inductive Action
  | heartbeat (nodeId : NodeId) (nowMs : Nat) (report : HeartbeatReport)
  | drain (nodeId : NodeId)
  | sweep (oracle : NodeId → PodLiveness) (nowMs : Nat)
  | setScale (plan : ScalePlan)
  | setPolicy (policy : PlacementPolicy)
  | reconcile

def act (config : MembershipConfig) (sm : StateMachine) : Action → StateMachine
  | .heartbeat nodeId nowMs report =>
    { sm with
      membership :=
        (sm.membership.heartbeat nodeId nowMs (sanitizeReport report sm.placement.shardCount)).2 }
  | .drain nodeId => { sm with membership := (sm.membership.drain nodeId).2 }
  | .sweep oracle nowMs => { sm with membership := (sm.membership.sweep config oracle nowMs).2 }
  | .setScale plan => applyCommand sm (.setScalePlan plan)
  | .setPolicy policy => { sm with placement := sm.placement.setPolicy policy }
  | .reconcile => Scheduler.reconcile true sm

/-- The brain with nothing known and nothing placed. -/
def fresh (shardCount : Nat) (plan : ScalePlan) : StateMachine where
  membership := .new
  placement := .new shardCount
  plan := plan

/-- The runs whose actions `allowed` admits. -/
def brainSystem (config : MembershipConfig) (init : StateMachine → Prop)
    (allowed : StateMachine → Action → Prop) : TransitionSystem StateMachine where
  init := init
  step sm sm' := ∃ a, allowed sm a ∧ act config sm a = sm'

/-- The actions of a run in order. -/
def acts (config : MembershipConfig) (sm : StateMachine) (l : List Action) : StateMachine :=
  l.foldl (act config) sm

/-- Each action of the run is admitted where it is taken. -/
def Admitted (config : MembershipConfig) (allowed : StateMachine → Action → Prop) :
    StateMachine → List Action → Prop
  | _, [] => True
  | sm, a :: rest => allowed sm a ∧ Admitted config allowed (act config sm a) rest

theorem steps_acts {config : MembershipConfig} {init : StateMachine → Prop}
    {allowed : StateMachine → Action → Prop} {l : List Action} {sm : StateMachine}
    (h : Admitted config allowed sm l) :
    (brainSystem config init allowed).Steps sm (acts config sm l) := by
  induction l generalizing sm with
  | nil => exact .refl sm
  | cons a rest ih =>
    obtain ⟨ha, hrest⟩ := h
    exact .trans (.single ⟨a, ha, rfl⟩) (ih hrest)

/-! ## What finalizing a scale-down forgets -/

/-- The last step of a tick leaves a node as it was or forgets it, and never one that an assignment
names. -/
theorem finalizeScaleDown_nodes (nodes : List NodeInfo) (sm : StateMachine) (id : NodeId) :
    (finalizeScaleDown nodes sm).membership.nodes[id]? = sm.membership.nodes[id]? ∨
      (stillAssigned sm.placement id = false ∧
        (finalizeScaleDown nodes sm).membership.nodes[id]? = none) := by
  unfold finalizeScaleDown
  generalize sm.placement.snapshot.flatMap (·.replicas) = assigned
  induction nodes generalizing sm with
  | nil => exact .inl rfl
  | cons n rest ih =>
    rw [List.foldl_cons]
    split
    · have hplacement := (applyCommand_forgetNode_placement sm n.nodeId).1
      have hforget : (applyCommand sm (.forgetNode n.nodeId)).membership.nodes[id]?
            = sm.membership.nodes[id]? ∨
          (stillAssigned sm.placement id = false ∧
            (applyCommand sm (.forgetNode n.nodeId)).membership.nodes[id]? = none) := by
        simp only [applyCommand]
        split
        · exact .inl rfl
        · next hnot =>
          rw [Membership.getElem?_forget]
          split
          · next heq =>
            subst heq
            exact .inr ⟨by simpa using hnot, rfl⟩
          · exact .inl rfl
      rcases ih (applyCommand sm (.forgetNode n.nodeId)) with h | ⟨hnot, h⟩
      · rwa [h]
      · exact .inr ⟨hplacement ▸ hnot, h⟩
    · exact ih sm

theorem reconcile_nodes (sm : StateMachine) (id : NodeId) :
    (reconcile true sm).membership.nodes[id]? = sm.membership.nodes[id]? ∨
      (stillAssigned (reconcile true sm).placement id = false ∧
        (reconcile true sm).membership.nodes[id]? = none) := by
  rw [reconcile, if_pos rfl, (finalizeScaleDown_placement _ _).1]
  have h := finalizeScaleDown_nodes sm.membership.snapshot
    ((Tick.of sm).walk (.start sm) sm.placement.shardCount).sm id
  rwa [(Tick.sameFrame_walk _ _ _).membership] at h

end FiduciaBrain.Scheduler
