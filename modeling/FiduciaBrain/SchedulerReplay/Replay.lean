import FiduciaBrain.SchedulerReplay.Proposals
import FiduciaBrain.SchedulerReplay.Records

/-!
# Replaying the model against the brain

The brain follows the model step by step, with one exception: a tick that holds its shard on
incomplete membership still forgets a drained node, which `reconcile_incomplete_hold` of the model
keeps.
-/

namespace FiduciaBrain.SchedulerReplay

open Infra Scheduler

variable {s s' : State} {a : Action} {sh sh' : Shape} {late : Bool}

/-! ## What is compared -/

theorem snapshot_harness :
    (sh.harness late).sm.membership.snapshot = [1, 2, 3, 4].filterMap (sh.table late) :=
  snapshot_membershipOf (sh.keyed_table late)

theorem get_harness : (sh.harness late).sm.placement.get shard = sh.origin.assignments.head? := by
  cases h : sh.origin <;>
    simp [Shape.harness, Shape.sm, Placement.get, h, Origin.assignments, Assignments.ofList,
      assignment, shard]

theorem numbers_harness (keep : NodeInfo → Bool) :
    (sh.harness late).numbers keep
      = ([1, 2, 3, 4].filter fun node => (sh.table late node).any keep).toFinset := by
  have hkeyed := sh.keyed_table late
  ext node
  simp only [Harness.numbers, snapshot_harness, List.mem_toFinset, List.mem_filterMap, List.mem_map,
    List.mem_filter, Option.any_eq_true]
  constructor
  · rintro ⟨id, ⟨info, ⟨⟨m, hm, hinfo⟩, hkeep⟩, rfl⟩, hnode⟩
    have hnumber := (nodeNumber_eq_some (mem_nodes.mpr (by simpa using hm))).mpr rfl
    rw [hkeyed m info hinfo, hnumber] at hnode
    cases hnode
    exact ⟨hm, info, hinfo, hkeep⟩
  · rintro ⟨hm, info, hinfo, hkeep⟩
    refine ⟨_, ⟨info, ⟨⟨node, hm, hinfo⟩, hkeep⟩, rfl⟩, ?_⟩
    rw [hkeyed node info hinfo]
    exact (nodeNumber_eq_some (mem_nodes.mpr (by simpa using hm))).mpr rfl

/-- The brain behind a shape shows the model's state. -/
theorem projection_harness (h : sh.Fits s) :
    (sh.harness late).projection = expectedProjection s := by
  obtain ⟨r, f, j, o⟩ := sh
  simp only [Harness.projection, expectedProjection, numbers_harness, snapshot_harness, get_harness,
    h.role, h.known, h.healthy, h.draining, h.hosted, h.observedLeader, h.placement,
    h.preferredLeader, h.generation, h.forgotten, Projection.mk.injEq]
  refine ⟨rfl, ?_, ?_, ?_, ?_, ?_, ?_, ?_, rfl, rfl⟩
  · cases f <;> cases j <;> rfl
  · cases f <;> cases j <;> rfl
  · cases f <;> cases j <;> rfl
  · cases f <;> cases j <;> rfl
  · cases f <;> cases j <;> cases o <;> rfl
  · cases o <;> rfl
  · cases o <;> rfl

/-! ## Ticks over one shard -/

section Tick

variable {sm : StateMachine}

/-- What the walk leaves. -/
def walked (sm : StateMachine) : StateMachine := ((Tick.of sm).walk (.start sm) 1).sm

/-- Is the node drained, and does no assignment need it? -/
def Droppable (sm : StateMachine) (info : NodeInfo) : Prop :=
  info.health = .draining ∧ info.hostedShards = [] ∧
    info.nodeId ∉ sm.placement.snapshot.flatMap (·.replicas)

instance (sm : StateMachine) (info : NodeInfo) : Decidable (Droppable sm info) :=
  inferInstanceAs (Decidable (_ ∧ _ ∧ _))

theorem reconcile_of_one (hcount : sm.placement.shardCount = 1) :
    Scheduler.reconcile true sm = finalizeScaleDown sm.membership.snapshot (walked sm) := by
  rw [Scheduler.reconcile, if_pos rfl, hcount]
  rfl

theorem walked_cases :
    walked sm = sm ∨
      walked sm = applyCommand sm (.assignShard ((Tick.of sm).nextAssignment (.start sm) 0)) :=
  (reconcileShard_sm (t := Tick.of sm) (p := .start sm)).imp_right And.right

/-- A walk that leaves the generation leaves everything. -/
theorem walked_of_generation
    (h : (walked sm).placement.generation = sm.placement.generation) : walked sm = sm := by
  rcases @walked_cases sm with heq | heq
  · exact heq
  · have hgen : (walked sm).placement.generation = sm.placement.generation + 1 :=
      congrArg (·.placement.generation) heq
    omega

/-- The walk publishes the assignment. -/
def Publishes (sm : StateMachine) (a : ShardAssignment) : Prop :=
  (walked sm).placement.generation ≠ sm.placement.generation ∧
    (Tick.of sm).nextAssignment (.start sm) 0 = a

instance (sm : StateMachine) (a : ShardAssignment) : Decidable (Publishes sm a) :=
  inferInstanceAs (Decidable (_ ∧ _))

theorem walked_of_publishes {a : ShardAssignment} (h : Publishes sm a) :
    walked sm = applyCommand sm (.assignShard a) := by
  rw [← h.2]
  exact walked_cases.resolve_left fun heq => h.1 (congrArg (·.placement.generation) heq)

/-- The finalization walks the nodes with the assignments it started with. -/
theorem foldl_forget_of_none {nodes : List NodeInfo} (h : ∀ info ∈ nodes, ¬ Droppable sm info)
    (sm' : StateMachine) :
    nodes.foldl (fun sm' info =>
      if Droppable sm info then applyCommand sm' (.forgetNode info.nodeId) else sm') sm' = sm' := by
  induction nodes with
  | nil => rfl
  | cons info rest ih =>
    rw [List.foldl_cons, if_neg (h info List.mem_cons_self)]
    exact ih fun x hx => h x (List.mem_cons_of_mem _ hx)

theorem finalizeScaleDown_of_none {nodes : List NodeInfo}
    (h : ∀ info ∈ nodes, ¬ Droppable sm info) : finalizeScaleDown nodes sm = sm :=
  foldl_forget_of_none h sm

theorem finalizeScaleDown_of_head {info : NodeInfo} {rest : List NodeInfo}
    (hinfo : Droppable sm info) (h : ∀ x ∈ rest, ¬ Droppable sm x) :
    finalizeScaleDown (info :: rest) sm = applyCommand sm (.forgetNode info.nodeId) := by
  have hrest := foldl_forget_of_none h (applyCommand sm (.forgetNode info.nodeId))
  rw [← hrest]
  exact congrArg (rest.foldl _) (if_pos hinfo)

/-- A tick over the one shard that changes nothing. -/
def Quiet (sm : StateMachine) : Prop :=
  (walked sm).placement.generation = sm.placement.generation ∧
    ∀ info ∈ sm.membership.snapshot, ¬ Droppable sm info

instance (sm : StateMachine) : Decidable (Quiet sm) := inferInstanceAs (Decidable (_ ∧ _))

theorem reconcile_of_quiet (hcount : sm.placement.shardCount = 1) (h : Quiet sm) :
    Scheduler.reconcile true sm = sm := by
  rw [reconcile_of_one hcount, walked_of_generation h.1, finalizeScaleDown_of_none h.2]

end Tick

/-! ## The ticks of the model -/

/-- The shapes that a tick leaves. -/
def settled (f : Fate) (joined : Bool) : Origin → Bool
  | .snapshot => f ≠ .evacuated
  | .initial => f = .healthy ∨ f = .lost ∨ f = .evacuated ∧ joined = false
  | .adopted => f = .healthy ∨ f = .evacuated ∧ joined = false
  | .cold => false

theorem quiet_of_settled {f : Fate} {joined : Bool} {o : Origin} (h : settled f joined o = true)
    (late : Bool) : Quiet (Shape.sm ⟨.leader, f, joined, o⟩ late) := by
  cases f <;> cases joined <;> cases o <;>
    first | exact absurd h (by decide) | (cases late <;> decide +kernel)

theorem reconcile_harness_of_quiet (hr : sh.role = .leader) (h : Quiet (sh.sm late)) :
    (sh.harness late).reconcile = sh.harness late := by
  have hleader : (sh.harness late).leader = true := decide_eq_true hr
  exact Harness.reconcile_of_same (by rw [hleader]; exact reconcile_of_quiet rfl h) rfl

/-- A new record of node 1, and nothing else. -/
theorem update_table {late' : Bool} {entry : Option NodeInfo} (hentry : entry = sh'.recordA)
    (hseen : sh.seen = sh'.seen) (hrestarted : sh.origin.restarted = sh'.origin.restarted)
    (hjoined : sh.table late 4 = sh'.table late' 4) :
    Function.update (sh.table late) 1 entry = sh'.table late' := by
  refine table_ext hentry ?_ ?_ hjoined rfl fun _ => rfl
  · exact congrArg₂ (fun leads seen => some (record 2 .healthy true leads seen)) hrestarted hseen
  · exact congrArg (fun seen => some (record 3 .healthy true false seen)) hseen

/-- The last assignment replaces the ones before. -/
theorem insert_assignments (o : Origin) (nodes : List Nat) (leader : Nat) :
    (Assignments.ofList o.assignments).insert (assignment nodes leader)
      = .ofList [assignment nodes leader] := by
  ext1 s
  cases o <;>
    simp [Origin.assignments, Assignments.ofList, assignment] <;> split <;> simp_all

theorem publishes_abc (late : Bool) :
    Publishes (Shape.sm ⟨.leader, .healthy, false, .cold⟩ late) (assignment [1, 2, 3] 2) := by
  cases late <;> decide +kernel

theorem publishes_bcd {f : Fate} (hf : f = .dead ∨ f = .evacuated) (late : Bool) :
    Publishes (Shape.sm ⟨.leader, f, true, .initial⟩ late) (assignment [2, 3, 4] 2) := by
  rcases hf with rfl | rfl <;> cases late <;> decide +kernel

theorem reconcile_adopt (late : Bool) :
    Scheduler.reconcile true (Shape.sm ⟨.leader, .healthy, false, .cold⟩ late)
      = Shape.sm ⟨.leader, .healthy, false, .adopted⟩ late := by
  rw [reconcile_of_one rfl, walked_of_publishes (publishes_abc late)]
  exact finalizeScaleDown_of_none
    (quiet_of_settled (by decide : settled .healthy false .adopted = true) late).2

theorem assign_bcd (r : Role) (f : Fate) (joined late : Bool) :
    applyCommand (Shape.sm ⟨r, f, joined, .initial⟩ late) (.assignShard (assignment [2, 3, 4] 2))
      = Shape.sm ⟨r, f, joined, .snapshot⟩ late :=
  congrArg
    (fun assignments =>
      { membership := membershipOf (Shape.table ⟨r, f, joined, .initial⟩ late)
        placement := { shardCount := 1, generation := 2, assignments := assignments, policies := ∅ }
        plan := { targetNodes := 3, replicationFactor := 3 } : StateMachine })
    (insert_assignments .initial [2, 3, 4] 2)

theorem stillAssigned_assignments (o : Origin) :
    stillAssigned ⟨1, o.generation, .ofList o.assignments, ∅⟩ nodeA
      = decide (o = .initial ∨ o = .adopted) := by
  cases o <;> decide +kernel

/-- Node 1 is forgotten once it is drained and the placement has left it. -/
theorem forget_evacuated (r : Role) (joined late : Bool) :
    applyCommand (Shape.sm ⟨r, .evacuated, joined, .snapshot⟩ late) (.forgetNode nodeA)
      = Shape.sm ⟨r, .forgotten, joined, .snapshot⟩ late := by
  have hnot : stillAssigned (Shape.sm ⟨r, .evacuated, joined, .snapshot⟩ late).placement nodeA
      = false := stillAssigned_assignments .snapshot
  have hforget : ((Shape.sm ⟨r, .evacuated, joined, .snapshot⟩ late).membership.forget nodeA).2
      = membershipOf (Shape.table ⟨r, .forgotten, joined, .snapshot⟩ late) :=
    (congrArg Prod.snd (forget_membershipOf (Shape.keyed_table _ late) (by decide : 1 ∈ nodes)
      rfl)).trans (congrArg membershipOf (update_table rfl rfl rfl rfl))
  rw [applyCommand, if_neg (by rw [hnot]; decide), hforget]
  rfl

/-- What a tick finds once node 1 is drained and the placement has left it. -/
theorem droppable_evacuated (joined late : Bool) :
    let sm := Shape.sm ⟨.leader, .evacuated, joined, .snapshot⟩ late
    (walked sm).placement.generation = sm.placement.generation ∧
      Droppable sm (record 1 .draining false false 1) ∧
      ∀ info ∈ [2, 3, 4].filterMap (Shape.table ⟨.leader, .evacuated, joined, .snapshot⟩ late),
        ¬ Droppable sm info := by
  cases joined <;> cases late <;> decide +kernel

theorem finalize_evacuated (joined late : Bool) :
    finalizeScaleDown (Shape.sm ⟨.leader, .evacuated, joined, .snapshot⟩ late).membership.snapshot
        (Shape.sm ⟨.leader, .evacuated, joined, .snapshot⟩ late)
      = Shape.sm ⟨.leader, .forgotten, joined, .snapshot⟩ late := by
  obtain ⟨-, hfirst, hrest⟩ := droppable_evacuated joined late
  have hsnap : (Shape.sm ⟨.leader, .evacuated, joined, .snapshot⟩ late).membership.snapshot
      = record 1 .draining false false 1 ::
        [2, 3, 4].filterMap (Shape.table ⟨.leader, .evacuated, joined, .snapshot⟩ late) :=
    @snapshot_harness ⟨.leader, .evacuated, joined, .snapshot⟩ late
  rw [hsnap, finalizeScaleDown_of_head hfirst hrest]
  exact forget_evacuated .leader joined late

/-- A tick that leaves the placement to the other three forgets node 1, whether or not node 4 is
known. -/
theorem reconcile_evacuated (joined late : Bool) :
    Scheduler.reconcile true (Shape.sm ⟨.leader, .evacuated, joined, .snapshot⟩ late)
      = Shape.sm ⟨.leader, .forgotten, joined, .snapshot⟩ late := by
  rw [reconcile_of_one rfl, walked_of_generation (droppable_evacuated joined late).1,
    finalize_evacuated]

theorem reconcile_replaceAndForget (late : Bool) :
    Scheduler.reconcile true (Shape.sm ⟨.leader, .evacuated, true, .initial⟩ late)
      = Shape.sm ⟨.leader, .forgotten, true, .snapshot⟩ late := by
  rw [reconcile_of_one rfl, walked_of_publishes (publishes_bcd (.inr rfl) late), assign_bcd]
  exact finalize_evacuated true late

theorem reconcile_replace (late : Bool) :
    Scheduler.reconcile true (Shape.sm ⟨.leader, .dead, true, .initial⟩ late)
      = Shape.sm ⟨.leader, .dead, true, .snapshot⟩ late := by
  rw [reconcile_of_one rfl, walked_of_publishes (publishes_bcd (.inl rfl) late), assign_bcd]
  exact finalizeScaleDown_of_none
    (quiet_of_settled (by decide : settled .dead true .snapshot = true) late).2

/-- What a tick does that forgets node 1. -/
theorem reconcile_of_forgotten {joined : Bool} {o : Origin}
    (h : Scheduler.reconcile true (Shape.sm ⟨.leader, .evacuated, joined, o⟩ late)
      = Shape.sm ⟨.leader, .forgotten, joined, .snapshot⟩ late) :
    (Shape.harness ⟨.leader, .evacuated, joined, o⟩ late).reconcile
      = Shape.harness ⟨.leader, .forgotten, joined, .snapshot⟩ late := by
  have hdropped : (((Shape.sm ⟨.leader, .evacuated, joined, o⟩ late).membership.snapshot.map
      (·.nodeId)).filter fun id =>
        (Shape.sm ⟨.leader, .forgotten, joined, .snapshot⟩ late).membership.snapshot.all
          (·.nodeId ≠ id)) = [nodeA] := by
    cases joined <;> cases late <;> cases o <;> decide +kernel
  have hsm : Scheduler.reconcile (Shape.harness ⟨.leader, .evacuated, joined, o⟩ late).leader
      (Shape.harness ⟨.leader, .evacuated, joined, o⟩ late).sm = _ := h
  rw [Harness.reconcile, hsm]
  exact congrArg
    (fun ids : List NodeId =>
      ({ sm := Shape.sm ⟨.leader, .forgotten, joined, .snapshot⟩ late
         leader := true
         forgotten := Shape.forgotten .evacuated ∪ (ids.filterMap nodeNumber).toFinset } : Harness))
    hdropped

/-! ## One action -/

/-- The tick of the model that the brain does not take: it holds, where the brain forgets a drained
node. -/
def Slips (s : State) (a : Action) : Prop :=
  a = .reconcileIncompleteHold ∧ 1 ∈ s.draining ∧ 1 ∉ s.hosted

instance (s : State) (a : Action) : Decidable (Slips s a) := inferInstanceAs (Decidable (_ ∧ _ ∧ _))

theorem heartbeat_eq {h : Harness} {m : Membership} {id : NodeId} {now : Nat}
    {report : HeartbeatReport} (hm : (h.sm.membership.heartbeat id now report).2 = m) :
    h.heartbeat id now report = { h with sm := { h.sm with membership := m } } := by
  rw [Harness.heartbeat, hm]

theorem apply_lose (r : Role) (joined late : Bool) (o : Origin) :
    (Shape.harness ⟨r, .healthy, joined, o⟩ late).apply .loseAFromSoftMembership
      = .ok (Shape.harness ⟨r, .lost, joined, o⟩ late) := by
  have h : (Shape.sm ⟨r, .healthy, joined, o⟩ late).membership.forget nodeA
      = (true, membershipOf (Shape.table ⟨r, .lost, joined, o⟩ late)) :=
    (forget_membershipOf (Shape.keyed_table _ late) (by decide : 1 ∈ nodes) rfl).trans
      (congrArg (fun t => (true, membershipOf t)) (update_table rfl rfl rfl rfl))
  have hsm : (Shape.harness ⟨r, .healthy, joined, o⟩ late).sm.membership.forget nodeA = _ := h
  rw [Harness.apply, hsm]
  rfl

theorem apply_drain (r : Role) (joined late : Bool) (o : Origin) :
    (Shape.harness ⟨r, .healthy, joined, o⟩ late).apply .beginDrainA
      = .ok (Shape.harness ⟨r, .draining, joined, o⟩ late) := by
  have h : (Shape.sm ⟨r, .healthy, joined, o⟩ late).membership.drain nodeA
      = (true, membershipOf (Shape.table ⟨r, .draining, joined, o⟩ late)) :=
    (drain_membershipOf (Shape.keyed_table _ late) (by decide : 1 ∈ nodes) rfl).trans
      (congrArg (fun t => (true, membershipOf t)) (update_table rfl rfl rfl rfl))
  have hsm : (Shape.harness ⟨r, .healthy, joined, o⟩ late).sm.membership.drain nodeA = _ := h
  rw [Harness.apply, hsm]
  rfl

theorem apply_evacuate (r : Role) (joined late : Bool) (o : Origin) :
    (Shape.harness ⟨r, .draining, joined, o⟩ late).apply .evacuateA
      = .ok (Shape.harness ⟨r, .evacuated, joined, o⟩ late) := by
  have h : ((Shape.sm ⟨r, .draining, joined, o⟩ late).membership.heartbeat nodeA 1
      (report 1 false false)).2 = membershipOf (Shape.table ⟨r, .evacuated, joined, o⟩ late) :=
    (heartbeat_of_known (Shape.keyed_table _ late) (by decide : 1 ∈ nodes) rfl 1 false false).trans
      (congrArg membershipOf (update_table rfl rfl rfl rfl))
  exact congrArg Except.ok (heartbeat_eq h)

theorem apply_heartbeat (r : Role) (joined late : Bool) {o : Origin} (ho : o.restarted = false) :
    (Shape.harness ⟨r, .lost, joined, o⟩ late).apply .heartbeatA
      = .ok (Shape.harness ⟨r, .healthy, joined, o⟩ late) := by
  have h : ((Shape.sm ⟨r, .lost, joined, o⟩ late).membership.heartbeat nodeA 0
      (report 1 true true)).2 = membershipOf (Shape.table ⟨r, .healthy, joined, o⟩ late) :=
    (heartbeat_of_unknown (Shape.keyed_table _ late) (by decide : 1 ∈ nodes) rfl 0 true true).trans
      (congrArg membershipOf (update_table (by rw [Shape.recordA, ho]; rfl) rfl rfl rfl))
  exact congrArg Except.ok (heartbeat_eq h)

theorem apply_join (r : Role) (f : Fate) (late : Bool) (o : Origin) :
    (Shape.harness ⟨r, f, false, o⟩ late).apply .addD
      = .ok (Shape.harness ⟨r, f, true, o⟩ true) := by
  have htable : Function.update (Shape.table ⟨r, f, false, o⟩ late) 4
      (some (record 4 .healthy false false 0)) = Shape.table ⟨r, f, true, o⟩ true :=
    table_ext rfl rfl rfl (by cases f <;> rfl) rfl fun _ => rfl
  have h : ((Shape.sm ⟨r, f, false, o⟩ late).membership.heartbeat nodeD 0
      (report 4 false false)).2 = membershipOf (Shape.table ⟨r, f, true, o⟩ true) :=
    (heartbeat_of_unknown (Shape.keyed_table _ late) (by decide : 4 ∈ nodes) rfl 0 false
      false).trans (congrArg membershipOf htable)
  exact congrArg Except.ok (heartbeat_eq h)

/-- The brain turns a removal down that the placement does not allow. -/
theorem apply_rejected (joined late : Bool) {o : Origin} (ho : o = .initial ∨ o = .adopted) :
    (Shape.harness ⟨.leader, .evacuated, joined, o⟩ late).apply .attemptForgetARejected
      = .ok (Shape.harness ⟨.leader, .evacuated, joined, o⟩ late) := by
  have hassigned : stillAssigned ⟨1, o.generation, .ofList o.assignments, ∅⟩ nodeA = true :=
    (stillAssigned_assignments o).trans (decide_eq_true ho)
  have hsm : applyCommand (Shape.harness ⟨.leader, .evacuated, joined, o⟩ late).sm
      (.forgetNode nodeA) = Shape.sm ⟨.leader, .evacuated, joined, o⟩ late := if_pos hassigned
  have hknown : ((Shape.sm ⟨.leader, .evacuated, joined, o⟩ late).membership.snapshot.all
      (·.nodeId ≠ nodeA)) = false := by
    have hsnap := @snapshot_harness ⟨.leader, .evacuated, joined, o⟩ late
    exact (congrArg (·.all (·.nodeId ≠ nodeA)) hsnap).trans rfl
  have hpropose : (Shape.harness ⟨.leader, .evacuated, joined, o⟩ late).propose (.forgetNode nodeA)
      = (true, Shape.harness ⟨.leader, .evacuated, joined, o⟩ late) := by
    rw [Harness.propose, hsm]
    refine (if_pos rfl).trans ?_
    exact congrArg (fun gone : Bool => (true,
      ({ Shape.harness ⟨.leader, .evacuated, joined, o⟩ late with
        forgotten := if gone then insert 1 (Shape.forgotten .evacuated)
          else Shape.forgotten .evacuated } : Harness))) hknown
  rw [Harness.apply, hpropose]
  rfl

/-- The harness with other records. -/
def withTable (h : Harness) (table : Nat → Option NodeInfo) : Harness :=
  { h with sm := { h.sm with membership := membershipOf table } }

theorem heartbeat_withTable {table : Nat → Option NodeInfo} (hkeyed : Keyed table) {node : Nat}
    (hn : node ∈ nodes) {hosts leads : Bool} {seen : Nat}
    (ht : table node = some (record node .healthy hosts leads seen)) (h : Harness) (now : Nat)
    (hosts' leads' : Bool) :
    (withTable h table).heartbeat (nodeId node) now (report node hosts' leads')
      = withTable h
          (Function.update table node (some (record node .healthy hosts' leads' now))) :=
  heartbeat_eq (heartbeat_of_known hkeyed hn ht now hosts' leads')

theorem Keyed.update_record {table : Nat → Option NodeInfo} (h : Keyed table) (node : Nat)
    (health : NodeHealth) (hosts leads : Bool) (seen : Nat) :
    Keyed (Function.update table node (some (record node health hosts leads seen))) :=
  h.update fun _ hinfo => Option.some.inj hinfo ▸ rfl

theorem apply_prepare (late : Bool) :
    (Shape.harness ⟨.leader, .healthy, false, .initial⟩ late).apply .prepareColdStart
      = .ok (Shape.harness ⟨.leader, .healthy, false, .cold⟩ late) := by
  have hkeyed := Shape.keyed_table ⟨.leader, .healthy, false, .initial⟩ late
  have hkeyedA := hkeyed.update_record 1 .healthy true false 1
  have hkeyedB := hkeyedA.update_record 2 .healthy true true 1
  let h := Shape.harness ⟨.leader, .healthy, false, .cold⟩ late
  have hA := heartbeat_withTable hkeyed (by decide : 1 ∈ nodes) rfl h 1 true false
  have hB := heartbeat_withTable hkeyedA (by decide : 2 ∈ nodes) rfl h 1 true true
  have hC := heartbeat_withTable hkeyedB (by decide : 3 ∈ nodes) rfl h 1 true false
  refine congrArg Except.ok ?_
  show (((withTable h (Shape.table ⟨.leader, .healthy, false, .initial⟩ late)).heartbeat
    (nodeId 1) 1 (report 1 true false)).heartbeat (nodeId 2) 1 (report 2 true true)).heartbeat
    (nodeId 3) 1 (report 3 true false) = _
  rw [hA, hB, hC]
  exact congrArg (withTable h) (table_ext rfl rfl rfl rfl rfl fun _ => rfl)

/-- The records once the others have been refreshed. -/
def refreshed (joined late : Bool) (r : Role) (o : Origin) : Nat → Option NodeInfo :=
  let t := Function.update (Function.update (Shape.table ⟨r, .healthy, joined, o⟩ late) 2
    (some (record 2 .healthy true o.restarted 100))) 3 (some (record 3 .healthy true false 100))
  if joined then Function.update t 4 (some (record 4 .healthy false false 100)) else t

theorem keyed_refreshed (joined late : Bool) (r : Role) (o : Origin) :
    Keyed (refreshed joined late r o) := by
  have h := ((Shape.keyed_table ⟨r, .healthy, joined, o⟩ late).update_record 2 .healthy true
    o.restarted 100).update_record 3 .healthy true false 100
  cases joined with
  | false => exact h
  | true => exact h.update_record 4 .healthy false false 100

theorem refreshOthers_harness (joined late : Bool) (r : Role) (o : Origin) :
    (Shape.harness ⟨r, .healthy, joined, o⟩ late).refreshOthers 100
      = withTable (Shape.harness ⟨r, .healthy, joined, o⟩ late) (refreshed joined late r o) := by
  let h := Shape.harness ⟨r, .healthy, joined, o⟩ late
  have hkeyed := Shape.keyed_table ⟨r, .healthy, joined, o⟩ late
  have hkeyedB := hkeyed.update_record 2 .healthy true o.restarted 100
  have hkeyedC := hkeyedB.update_record 3 .healthy true false 100
  have hB := heartbeat_withTable hkeyed (by decide : 2 ∈ nodes) rfl h 100 true o.restarted
  have hC := heartbeat_withTable hkeyedB (by decide : 3 ∈ nodes) rfl h 100 true false
  rw [Harness.refreshOthers, snapshot_harness]
  cases joined with
  | false =>
    show (h.heartbeat (nodeId 2) 100 (report 2 true o.restarted)).heartbeat (nodeId 3) 100
      (report 3 true false) = _
    exact (congrArg (fun x : Harness => x.heartbeat (nodeId 3) 100 (report 3 true false)) hB).trans
      hC
  | true =>
    have hD := heartbeat_withTable hkeyedC (by decide : 4 ∈ nodes) rfl h 100 false false
    show ((h.heartbeat (nodeId 2) 100 (report 2 true o.restarted)).heartbeat (nodeId 3) 100
      (report 3 true false)).heartbeat (nodeId 4) 100 (report 4 false false) = _
    refine Eq.trans ?_ hD
    refine congrArg (fun x : Harness => x.heartbeat (nodeId 4) 100 (report 4 false false)) ?_
    exact (congrArg (fun x : Harness => x.heartbeat (nodeId 3) 100 (report 3 true false)) hB).trans
      hC

/-- The sweep finds node 1 silent, and nobody else. -/
theorem sweep_refreshed (joined late : Bool) (r : Role) (o : Origin) :
    (membershipOf (refreshed joined late r o)).sweep config (fun _ => .unknown) 100
      = ([nodeA], membershipOf (Shape.table ⟨r, .dead, joined, o⟩ false)) := by
  refine Prod.ext ?_ ?_
  · rw [Membership.sweep, snapshot_membershipOf (keyed_refreshed joined late r o)]
    cases joined <;> cases o <;> rfl
  · rw [sweep_membershipOf (keyed_refreshed joined late r o)]
    refine congrArg membershipOf (table_ext ?_ ?_ ?_ ?_ ?_ fun _ => ?_) <;>
      cases joined <;> cases o <;> rfl

theorem apply_die (r : Role) (joined late : Bool) (o : Origin) :
    (Shape.harness ⟨r, .healthy, joined, o⟩ late).apply .markADead
      = .ok (Shape.harness ⟨r, .dead, joined, o⟩ false) := by
  rw [Harness.apply, Harness.markADead, refreshOthers_harness]
  have hsweep : (withTable (Shape.harness ⟨r, .healthy, joined, o⟩ late)
      (refreshed joined late r o)).sm.membership.sweep config (fun _ => .unknown) 100 = _ :=
    sweep_refreshed joined late r o
  dsimp only
  rw [hsweep]
  rfl

/-- A tick that changes nothing leaves the harness. -/
theorem apply_of_quiet (hr : sh.role = .leader) (h : Quiet (sh.sm late)) :
    ∃ late', (Except.ok (sh.harness late).reconcile : Except String Harness) = .ok (sh.harness late') :=
  ⟨late, congrArg Except.ok (reconcile_harness_of_quiet hr h)⟩

/-- **The brain follows the model.** -/
theorem apply_of_next (h : Next sh a sh') (late : Bool)
    (hslip : ¬ (a = .reconcileIncompleteHold ∧ sh.fate = .evacuated)) :
    ∃ late', (sh.harness late).apply a = .ok (sh'.harness late') := by
  cases h with
  | becomeFollower f j o => exact ⟨late, rfl⟩
  | becomeLeader f j o => exact ⟨late, rfl⟩
  | lose r j o ho => exact ⟨late, apply_lose r j late o⟩
  | heartbeat r j o ho => exact ⟨late, apply_heartbeat r j late ho⟩
  | join r f o => exact ⟨true, apply_join r f late o⟩
  | die r j o => exact ⟨false, apply_die r j late o⟩
  | drain r j o => exact ⟨late, apply_drain r j late o⟩
  | evacuate r j o => exact ⟨late, apply_evacuate r j late o⟩
  | prepare => exact ⟨late, apply_prepare late⟩
  | restore f j hf => exact ⟨late, rfl⟩
  | followerHold f j o => exact ⟨late, congrArg Except.ok (Harness.reconcile_of_follower rfl)⟩
  | unheardOfA j =>
    have hsettled : settled .lost j .initial = true := by cases j <;> rfl
    exact apply_of_quiet rfl (quiet_of_settled hsettled late)
  | unheardOfD f =>
    have hsettled : settled f false .snapshot = true := decide_eq_true fun hf => hslip ⟨rfl, hf⟩
    exact apply_of_quiet rfl (quiet_of_settled hsettled late)
  | degradedHold o ho =>
    have hsettled : settled .evacuated false o = true := by rcases ho with rfl | rfl <;> rfl
    exact apply_of_quiet rfl (quiet_of_settled hsettled late)
  | rejected j o ho => exact ⟨late, apply_rejected j late ho⟩
  | adopt => exact ⟨late, congrArg Except.ok (Harness.reconcile_of_same (reconcile_adopt late) rfl)⟩
  | replace =>
    exact ⟨late, congrArg Except.ok (Harness.reconcile_of_same (reconcile_replace late) rfl)⟩
  | replaceAndForget =>
    exact ⟨late, congrArg Except.ok (reconcile_of_forgotten (reconcile_replaceAndForget late))⟩
  | forget =>
    exact ⟨late, congrArg Except.ok (reconcile_of_forgotten (reconcile_evacuated true late))⟩
  | settled j o ho =>
    have hsettled : settled .healthy j o = true := by rcases ho with rfl | rfl <;> cases j <;> rfl
    exact apply_of_quiet rfl (quiet_of_settled hsettled late)
  | settledWithoutA f hf =>
    have hsettled : settled f true .snapshot = true := decide_eq_true hf
    exact apply_of_quiet rfl (quiet_of_settled hsettled late)
  | idle => exact ⟨late, rfl⟩

/-- The brain forgets where the model holds. -/
theorem apply_of_slip (h : Next sh .reconcileIncompleteHold sh') (hfate : sh.fate = .evacuated)
    (late : Bool) :
    (sh.harness late).apply .reconcileIncompleteHold
      = .ok (Shape.harness ⟨.leader, .forgotten, false, .snapshot⟩ late) := by
  cases h with
  | unheardOfA j => cases hfate
  | unheardOfD f =>
    obtain rfl : f = .evacuated := hfate
    exact congrArg Except.ok (reconcile_of_forgotten (reconcile_evacuated false late))

end FiduciaBrain.SchedulerReplay
