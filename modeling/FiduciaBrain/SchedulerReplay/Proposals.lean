import FiduciaBrain.Scheduler.Walk
import FiduciaBrain.SchedulerReplay.Harness

/-!
# A tick of the harness, one proposal at a time

The scheduler hands every command of a tick to `ControlPlane::propose`, and the harness notes there
which nodes are forgotten for good. `Harness.reconcile` reads that off the registry before and
behind the tick; `Harness.reconcile_eq_proposals` says that this comes to the same.
-/

namespace FiduciaBrain.SchedulerReplay

open Scheduler

/-! ## What a tick proposes -/

/-- What the walk proposes at a shard. -/
def shardCommands (t : Tick) (p : Pass) (shard : ShardId) : List Command :=
  if t.held (t.replicasAt p shard) = false ∧
      differs (p.sm.placement.get shard) (t.nextAssignment p shard) = true then
    [.assignShard (t.nextAssignment p shard)]
  else []

def walkCommands (t : Tick) (p : Pass) (count : Nat) : List Command :=
  (List.range count).flatMap fun shard => shardCommands t (t.walk p shard) shard

/-- What the end of a tick proposes. -/
def finalizeCommands (nodes : List NodeInfo) (sm : StateMachine) : List Command :=
  (nodes.filter fun n => n.health = .draining ∧ n.hostedShards = [] ∧
    n.nodeId ∉ sm.placement.snapshot.flatMap (·.replicas)).map (.forgetNode ·.nodeId)

/-- What a tick proposes, in order. -/
def tickCommands (sm : StateMachine) : List Command :=
  walkCommands (Tick.of sm) (.start sm) sm.placement.shardCount ++
    finalizeCommands sm.membership.snapshot
      ((Tick.of sm).walk (.start sm) sm.placement.shardCount).sm

section

variable {t : Tick} {p : Pass} {shard : ShardId}

theorem foldl_shardCommands :
    (shardCommands t p shard).foldl applyCommand p.sm = (reconcileShard t p shard).sm := by
  unfold shardCommands
  cases h : t.held (t.replicasAt p shard) with
  | true => rw [reconcileShard_of_held h, if_neg (by simp), List.foldl_nil]
  | false =>
    rw [reconcileShard_of_not_held h]
    by_cases hd : differs (p.sm.placement.get shard) (t.nextAssignment p shard) = true
    · rw [if_pos ⟨rfl, hd⟩, if_pos hd]
      rfl
    · rw [if_neg fun h => hd h.2, if_neg hd]
      rfl

theorem foldl_walkCommands (count : Nat) :
    (walkCommands t p count).foldl applyCommand p.sm = (t.walk p count).sm := by
  induction count with
  | zero => rfl
  | succ n ih =>
    rw [walkCommands, List.range_succ, List.flatMap_append, List.flatMap_singleton,
      List.foldl_append, ← walkCommands, ih, foldl_shardCommands, Tick.walk_succ]

end

theorem foldl_finalizeCommands (nodes : List NodeInfo) (sm : StateMachine) :
    (finalizeCommands nodes sm).foldl applyCommand sm = finalizeScaleDown nodes sm := by
  rw [finalizeCommands, List.foldl_map, List.foldl_filter]
  simp only [decide_eq_true_eq]
  rfl

/-- **The commands of a tick are all that it does.** -/
theorem foldl_tickCommands (sm : StateMachine) :
    (tickCommands sm).foldl applyCommand sm = Scheduler.reconcile true sm := by
  have hwalk : (walkCommands (Tick.of sm) (.start sm) sm.placement.shardCount).foldl applyCommand sm
      = ((Tick.of sm).walk (.start sm) sm.placement.shardCount).sm :=
    foldl_walkCommands (p := .start sm) sm.placement.shardCount
  rw [tickCommands, List.foldl_append, hwalk, foldl_finalizeCommands, Scheduler.reconcile,
    if_pos rfl]

/-- A tick proposes to forget only nodes that membership knows. -/
theorem known_of_mem_tickCommands {sm : StateMachine} {id : NodeId}
    (h : .forgetNode id ∈ tickCommands sm) : id ∈ sm.membership.snapshot.map (·.nodeId) := by
  rcases List.mem_append.mp h with h | h
  · obtain ⟨s, -, h⟩ := List.mem_flatMap.mp h
    unfold shardCommands at h
    split at h
    · cases List.mem_singleton.mp h
    · cases h
  · obtain ⟨n, hn, heq⟩ := List.mem_map.mp h
    cases heq
    exact List.mem_map_of_mem (List.mem_of_mem_filter hn)

/-! ## What is forgotten -/

theorem snapshot_all_iff {m : Membership} {id : NodeId} :
    m.snapshot.all (·.nodeId ≠ id) = true ↔ m.nodes[id]? = none := by
  rw [List.all_eq_true, Option.eq_none_iff_forall_ne_some]
  constructor
  · intro h info hinfo
    have hid := m.keyed id info hinfo
    exact of_decide_eq_true (h info (Membership.mem_snapshot.mpr (hid ▸ hinfo))) hid
  · intro h info hinfo
    refine decide_eq_true fun hid => h info ?_
    exact hid ▸ Membership.mem_snapshot.mp hinfo

/-- A command takes no node out of membership but the one that it forgets, and puts none in. -/
theorem applyCommand_nodes (sm : StateMachine) (c : Command) (id : NodeId) :
    (applyCommand sm c).membership.nodes[id]? = sm.membership.nodes[id]? ∨
      c = .forgetNode id ∧ (applyCommand sm c).membership.nodes[id]? = none := by
  cases c with
  | assignShard a => exact .inl rfl
  | setScalePlan plan => exact .inl rfl
  | forgetNode x =>
    simp only [applyCommand]
    split
    · exact .inl rfl
    rw [Membership.getElem?_forget]
    split
    · next heq => exact .inr ⟨by rw [heq], rfl⟩
    · exact .inl rfl

theorem foldl_nodes (commands : List Command) (sm : StateMachine) (id : NodeId) :
    (commands.foldl applyCommand sm).membership.nodes[id]? = sm.membership.nodes[id]? ∨
      .forgetNode id ∈ commands ∧
        (commands.foldl applyCommand sm).membership.nodes[id]? = none := by
  induction commands using List.reverseRecOn with
  | nil => exact .inl rfl
  | append_singleton commands c ih =>
    rw [List.foldl_concat]
    rcases applyCommand_nodes (commands.foldl applyCommand sm) c id with h | ⟨rfl, h⟩
    · rw [h]
      exact ih.imp_right (And.imp_left (List.mem_append_left _))
    · exact .inr ⟨List.mem_append_right _ List.mem_cons_self, h⟩

theorem nodeId_of_nodeNumber {id : NodeId} {node : Nat} (h : nodeNumber id = some node) :
    nodeId node = id := by
  unfold nodeNumber at h
  split_ifs at h <;> cases h <;> exact Eq.symm ‹_›

namespace Harness

variable {h : Harness} {c : Command} {node : Nat}

theorem propose_of_leader (hl : h.leader = true) :
    (h.propose c).2.sm = applyCommand h.sm c ∧ (h.propose c).2.leader = true := by
  rw [propose, if_pos hl]
  exact ⟨rfl, hl⟩

theorem mem_forgotten_propose (hl : h.leader = true) :
    node ∈ (h.propose c).2.forgotten ↔ node ∈ h.forgotten ∨
      ∃ id, c = .forgetNode id ∧ nodeNumber id = some node ∧
        (applyCommand h.sm c).membership.nodes[id]? = none := by
  rw [propose, if_pos hl]
  cases c with
  | assignShard a => simp
  | setScalePlan plan => simp
  | forgetNode id =>
    cases hnumber : nodeNumber id with
    | none => simp [hnumber]
    | some x =>
      simp only [Command.forgetNode.injEq, exists_eq_left', hnumber, Option.some.injEq,
        nodeId_of_nodeNumber hnumber, snapshot_all_iff]
      split
      · next hnone => simp [hnone, or_comm, eq_comm]
      · next hknown => simp [hknown]

/-- The commands of a list, proposed one after the other. -/
def proposeAll (h : Harness) (commands : List Command) : Harness :=
  commands.foldl (fun h c => (h.propose c).2) h

theorem proposeAll_of_leader (hl : h.leader = true) (commands : List Command) :
    (h.proposeAll commands).sm = commands.foldl applyCommand h.sm ∧
      (h.proposeAll commands).leader = true := by
  induction commands using List.reverseRecOn with
  | nil => exact ⟨rfl, hl⟩
  | append_singleton commands c ih =>
    obtain ⟨hsm, hleader⟩ := propose_of_leader (c := c) ih.2
    rw [proposeAll, List.foldl_concat, List.foldl_concat, ← ih.1]
    exact ⟨hsm, hleader⟩

/-- What is forgotten behind some proposals was proposed, and membership does not know it. -/
theorem mem_forgotten_proposeAll (hl : h.leader = true) (commands : List Command) :
    node ∈ (h.proposeAll commands).forgotten ↔ node ∈ h.forgotten ∨
      ∃ id, .forgetNode id ∈ commands ∧ nodeNumber id = some node ∧
        (commands.foldl applyCommand h.sm).membership.nodes[id]? = none := by
  induction commands using List.reverseRecOn with
  | nil => simp [proposeAll]
  | append_singleton commands c ih =>
    obtain ⟨hsm, hleader⟩ := proposeAll_of_leader hl commands
    rw [proposeAll, List.foldl_concat, ← proposeAll, mem_forgotten_propose hleader, ih, hsm,
      List.foldl_concat, or_assoc]
    refine or_congr_right ⟨?_, ?_⟩
    · -- no command puts a node back that an earlier one has forgotten
      rintro (⟨id, hid, hnumber, hnone⟩ | ⟨id, rfl, hnumber, hnone⟩)
      · refine ⟨id, List.mem_append_left _ hid, hnumber, ?_⟩
        rcases applyCommand_nodes (commands.foldl applyCommand h.sm) c id with heq | ⟨-, heq⟩
        · exact heq.trans hnone
        · exact heq
      · exact ⟨id, List.mem_append_right _ List.mem_cons_self, hnumber, hnone⟩
    · rintro ⟨id, hid, hnumber, hnone⟩
      rcases applyCommand_nodes (commands.foldl applyCommand h.sm) c id with heq | ⟨hc, -⟩
      · rcases List.mem_append.mp hid with hid | hid
        · exact .inl ⟨id, hid, hnumber, heq.symm.trans hnone⟩
        · exact .inr ⟨id, (List.mem_singleton.mp hid).symm, hnumber, hnone⟩
      · exact .inr ⟨id, hc, hnumber, hnone⟩

/-- **A tick of the harness is its commands, proposed one after the other.** -/
theorem reconcile_eq_proposals (hl : h.leader = true) :
    h.reconcile = h.proposeAll (tickCommands h.sm) := by
  obtain ⟨hsm, hleader⟩ := proposeAll_of_leader hl (tickCommands h.sm)
  rw [foldl_tickCommands] at hsm
  refine Harness.ext ?_ (hl.trans hleader.symm) ?_
  · rw [hsm, reconcile, hl]
  ext node
  rw [mem_forgotten_proposeAll hl, foldl_tickCommands, reconcile, hl, Finset.mem_union,
    List.mem_toFinset, List.mem_filterMap]
  refine or_congr_right ⟨?_, ?_⟩
  · rintro ⟨id, hid, hnumber⟩
    obtain ⟨hknown, hgone⟩ := List.mem_filter.mp hid
    have hnone := snapshot_all_iff.mp hgone
    refine ⟨id, ?_, hnumber, hnone⟩
    rcases foldl_nodes (tickCommands h.sm) h.sm id with heq | ⟨hmem, -⟩
    · -- membership knew it
      rw [foldl_tickCommands, hnone, eq_comm, ← snapshot_all_iff, List.all_eq_true] at heq
      obtain ⟨info, hinfo, rfl⟩ := List.mem_map.mp hknown
      simpa using heq info hinfo
    · exact hmem
  · rintro ⟨id, hmem, hnumber, hnone⟩
    exact ⟨id, List.mem_filter.mpr ⟨known_of_mem_tickCommands hmem, snapshot_all_iff.mpr hnone⟩,
      hnumber⟩

/-- A tick after which membership is the same has forgotten nobody. -/
theorem reconcile_of_same {sm : StateMachine}
    (hsm : Scheduler.reconcile h.leader h.sm = sm) (hsame : sm.membership = h.sm.membership) :
    h.reconcile = { h with sm := sm } := by
  have hnone : ((h.sm.membership.snapshot.map (·.nodeId)).filter fun id =>
      sm.membership.snapshot.all (·.nodeId ≠ id)) = [] := by
    rw [hsame, List.filter_eq_nil_iff]
    intro id hid
    obtain ⟨info, hinfo, rfl⟩ := List.mem_map.mp hid
    simpa using ⟨info, hinfo, rfl⟩
  rw [reconcile, hsm, hnone, List.filterMap_nil, List.toFinset_nil, Finset.union_empty]

/-- A follower's tick does nothing. -/
theorem reconcile_of_follower (hl : h.leader = false) : h.reconcile = h :=
  reconcile_of_same (by rw [hl]; rfl) rfl

end Harness

end FiduciaBrain.SchedulerReplay
