import FiduciaBrain.Scheduler.Reconcile

/-!
# What a tick does to the placement

The walk over the shards decides each shard once, so the map after a tick is told shard by shard
(`get_reconcile`): a shard that is held keeps its assignment, and any other gets the plan for its
current replicas at the loads the walk has when it arrives (`before`). Whether a shard is held does
not depend on the loads (`Tick.held`).
-/

namespace FiduciaBrain.Scheduler

open Infra

/-! ## The nodes that are placed on -/

theorem mem_allHealthyIds {m : Membership} {id : NodeId} :
    id ∈ allHealthyIds m.snapshot ↔ ∃ info, m.nodes[id]? = some info ∧ info.health = .healthy := by
  simp only [allHealthyIds, List.mem_map, List.mem_filter, decide_eq_true_eq]
  constructor
  · rintro ⟨info, ⟨hmem, hh⟩, rfl⟩
    exact ⟨info, Membership.mem_snapshot.mp hmem, hh⟩
  · rintro ⟨info, hinfo, hh⟩
    have hid : info.nodeId = id := m.keyed id info hinfo
    exact ⟨info, ⟨Membership.mem_snapshot.mpr (hid ▸ hinfo), hh⟩, hid⟩

theorem nodup_allHealthyIds (m : Membership) : (allHealthyIds m.snapshot).Nodup :=
  m.snapshot_ids_nodup.sublist (List.filter_sublist.map _)

theorem activeNodesForTarget_subperm (l : List NodeId) (load : Loads) (target : Nat) :
    (activeNodesForTarget l load target).Subperm l := by
  unfold activeNodesForTarget
  split
  · exact List.Subperm.refl l
  · exact (List.perm_insertionSort _ _).subperm.trans
      ((List.take_sublist _ _).subperm.trans (List.perm_insertionSort _ _).subperm)

theorem length_activeNodesForTarget (l : List NodeId) (load : Loads) (target : Nat) :
    (activeNodesForTarget l load target).length = min l.length target := by
  unfold activeNodesForTarget
  split
  · omega
  · rw [List.length_insertionSort, List.length_take, List.length_insertionSort]
    omega

/-- The order of the cut: the larger load first, then the smaller id. -/
theorem activeOrder_iff (load : Loads) (a b : NodeId) :
    ((compare (load.get b) (load.get a)).then (compare a b)).isLE = true ↔
      load.get b < load.get a ∨ (load.get a = load.get b ∧ a ≤ b) := by
  rw [Ordering.isLE_then_iff_or, compare_lt_iff_lt, compare_eq_iff_eq, Ordering.isLE_iff_ne_gt,
    compare_gt_iff_gt, not_lt, @eq_comm _ (load.get b)]

namespace Tick

variable (sm : StateMachine)

theorem one_le_rf : 1 ≤ (of sm).rf := le_max_right _ _

theorem healthyIds_subset {id : NodeId} (h : id ∈ (of sm).healthyIds) :
    id ∈ allHealthyIds sm.membership.snapshot :=
  (activeNodesForTarget_subperm _ _ _).subset h

theorem nodup_healthyIds : (of sm).healthyIds.Nodup := by
  obtain ⟨l, hperm, hsub⟩ := activeNodesForTarget_subperm (allHealthyIds sm.membership.snapshot)
    (replicaLoads sm.placement.snapshot (allHealthyIds sm.membership.snapshot))
    (max sm.plan.targetNodes (rfOf sm))
  exact hperm.nodup_iff.mp ((nodup_allHealthyIds sm.membership).sublist hsub)

theorem length_healthyIds :
    (of sm).healthyIds.length
      = min (allHealthyIds sm.membership.snapshot).length (max sm.plan.targetNodes (rfOf sm)) :=
  length_activeNodesForTarget _ _ _

/-- The cut for the target never leaves fewer candidates than replicas are wanted, unless there are
fewer healthy nodes. -/
theorem length_healthyIds_lt_rf :
    (of sm).healthyIds.length < (of sm).rf
      ↔ (allHealthyIds sm.membership.snapshot).length < (of sm).rf := by
  have hlen := length_healthyIds sm
  have hrf : (of sm).rf = rfOf sm := rfl
  omega

theorem known_eq (id : NodeId) : (of sm).known id = sm.membership.nodes[id]?.isSome := by
  rw [← Membership.find?_snapshot, Bool.eq_iff_iff, List.find?_isSome]
  simp [known, of]

theorem info_eq (id : NodeId) : (of sm).info id = sm.membership.nodes[id]? :=
  Membership.find?_snapshot _ _

theorem known_of_mem {id : NodeId} (h : id ∈ (of sm).healthyIds) : (of sm).known id = true := by
  obtain ⟨info, hinfo, -⟩ := mem_allHealthyIds.mp (healthyIds_subset sm h)
  rw [known_eq, hinfo, Option.isSome_some]

end Tick

/-! ## The slots of a tick -/

namespace Tick

variable (t : Tick)

@[simp] theorem ids_slots (load : Loads) : ids (t.slots load) = t.healthyIds := by
  simp [ids, slots, Function.comp_def]

theorem slotOf_slots {load : Loads} (hid : t.healthyIds.Nodup) {id : NodeId}
    (h : id ∈ t.healthyIds) : slotOf (t.slots load) id = some ⟨id, t.domainOf id, load.get id⟩ := by
  have hmem : (⟨id, t.domainOf id, load.get id⟩ : NodeSlot) ∈ t.slots load :=
    List.mem_map.mpr ⟨id, h, rfl⟩
  exact slotOf_of_mem (by rwa [ids_slots]) hmem

theorem domainFor_slots {load : Loads} (hid : t.healthyIds.Nodup) {id : NodeId}
    (h : id ∈ t.healthyIds) : domainFor (t.slots load) id = t.domainOf id := by
  simp [domainFor, t.slotOf_slots hid h]

theorem loadFor_slots {load : Loads} (hid : t.healthyIds.Nodup) {id : NodeId}
    (h : id ∈ t.healthyIds) : loadFor (t.slots load) id = load.get id := by
  simp [loadFor, t.slotOf_slots hid h]

/-- The replicas that stay. -/
def survivors (replicas : List NodeId) : List NodeId := replicas.filter (t.healthyIds.contains ·)

/-- The candidates that are not replicas. -/
def idle (replicas : List NodeId) : List NodeId := t.healthyIds.filter (!replicas.contains ·)

theorem kept_slots (load : Loads) (replicas : List NodeId) :
    kept replicas (t.slots load) = t.survivors replicas := by
  simp [kept, survivors]

theorem spare_slots (load : Loads) (replicas : List NodeId) :
    spare replicas (t.slots load)
      = (t.idle replicas).map fun id => ⟨id, t.domainOf id, load.get id⟩ := by
  rw [spare, slots, List.filter_map, idle]
  congr 1
  refine List.filter_congr (fun id hid => ?_)
  have hkept : id ∈ kept replicas (t.slots load) ↔ id ∈ replicas := by
    rw [mem_kept, ids_slots]
    exact and_iff_left hid
  simpa [slots] using hkept

/-- The guards of the walk: the shard keeps what it has. -/
def held (replicas : List NodeId) : Bool :=
  t.incomplete replicas ||
    decide (t.healthyIds.length < t.rf ∧
      min t.rf ((t.survivors replicas).length + (t.idle replicas).length)
        < min replicas.length t.rf)

/-- **The guards do not depend on the loads.** -/
theorem held_eq (load : Loads) (replicas : List NodeId) :
    (t.incomplete replicas || t.degraded replicas (t.desired load replicas)) = t.held replicas := by
  rw [degraded, desired, length_planReplicas, kept_slots, spare_slots, List.length_map]
  rfl

theorem mem_survivors {replicas : List NodeId} {id : NodeId} :
    id ∈ t.survivors replicas ↔ id ∈ replicas ∧ id ∈ t.healthyIds := by
  simp [survivors]

theorem mem_idle {replicas : List NodeId} {id : NodeId} :
    id ∈ t.idle replicas ↔ id ∈ t.healthyIds ∧ id ∉ replicas := by
  simp [idle]

/-- Candidates are replicas that stay or idle. -/
theorem length_healthyIds_le (hid : t.healthyIds.Nodup) (replicas : List NodeId) :
    t.healthyIds.length ≤ (t.survivors replicas).length + (t.idle replicas).length := by
  have hsub : t.healthyIds ⊆ t.survivors replicas ++ t.idle replicas := by
    intro id h
    rw [List.mem_append, mem_idle, mem_survivors]
    by_cases hcur : id ∈ replicas
    · exact .inl ⟨hcur, h⟩
    · exact .inr ⟨h, hcur⟩
  rw [← List.length_append]
  exact (hid.subperm hsub).length_le

theorem mem_desired {load : Loads} {replicas : List NodeId} {id : NodeId}
    (h : id ∈ t.desired load replicas) : id ∈ t.healthyIds := by
  simpa using mem_ids_of_mem_planReplicas h

theorem length_desired (load : Loads) (replicas : List NodeId) :
    (t.desired load replicas).length
      = min t.rf ((t.survivors replicas).length + (t.idle replicas).length) := by
  rw [desired, length_planReplicas, kept_slots, spare_slots, List.length_map]

theorem nodup_desired {load : Loads} {replicas : List NodeId} (hid : t.healthyIds.Nodup)
    (h : replicas.Nodup) : (t.desired load replicas).Nodup :=
  nodup_planReplicas (by rwa [ids_slots]) h

end Tick

/-! ## One shard -/

section

variable (t : Tick) (p : Pass) (shard : ShardId)

/-- The replicas the walk finds at a shard. -/
def Tick.replicasAt : List NodeId := t.currentReplicas (p.sm.placement.get shard) shard

/-- The assignment the walk computes for a shard that is not held. -/
def Tick.nextAssignment : ShardAssignment where
  shardId := shard
  replicas := t.desired p.load (t.replicasAt p shard)
  preferredLeader := t.preferredLeader (releaseLeader p.leaderLoad (p.sm.placement.get shard))
    (p.sm.placement.policy shard) (t.desired p.load (t.replicasAt p shard)) shard
  preferredRegion := (p.sm.placement.policy shard).bind (·.homeRegion)
  preferredCloudProvider := (p.sm.placement.policy shard).bind (·.preferredCloudProvider)

variable {t p shard}

@[simp] theorem nextAssignment_shardId : (t.nextAssignment p shard).shardId = shard := rfl

theorem nextAssignment_replicas :
    (t.nextAssignment p shard).replicas = t.desired p.load (t.replicasAt p shard) := by
  simp only [Tick.nextAssignment]

theorem nextAssignment_preferredLeader :
    (t.nextAssignment p shard).preferredLeader
      = t.preferredLeader (releaseLeader p.leaderLoad (p.sm.placement.get shard))
          (p.sm.placement.policy shard) (t.nextAssignment p shard).replicas shard := by
  simp only [Tick.nextAssignment]

theorem reconcileShard_of_held (h : t.held (t.replicasAt p shard) = true) :
    reconcileShard t p shard = p := by
  rw [← t.held_eq p.load, Bool.or_eq_true] at h
  unfold reconcileShard
  simp only [Tick.replicasAt] at h
  rcases h with h | h
  · rw [if_pos h]
  · simp only [if_pos h, ite_self]

theorem reconcileShard_of_not_held (h : t.held (t.replicasAt p shard) = false) :
    reconcileShard t p shard =
      { sm :=
          if differs (p.sm.placement.get shard) (t.nextAssignment p shard) then
            applyCommand p.sm (.assignShard (t.nextAssignment p shard))
          else p.sm
        load := (t.desired p.load (t.replicasAt p shard)).foldl Loads.add
          ((t.replicasAt p shard).foldl Loads.sub p.load)
        leaderLoad := (t.nextAssignment p shard).preferredLeader.elim
          (releaseLeader p.leaderLoad (p.sm.placement.get shard))
          (releaseLeader p.leaderLoad (p.sm.placement.get shard)).add } := by
  rw [← t.held_eq p.load, Bool.or_eq_false_iff] at h
  unfold reconcileShard
  simp only [Tick.replicasAt] at h
  rw [if_neg (by simp [h.1]), if_neg (by simp [h.2])]
  simp only [Tick.nextAssignment, Tick.replicasAt]
  rfl

/-- The walk writes nothing but assignments. -/
theorem reconcileShard_sm :
    (reconcileShard t p shard).sm = p.sm ∨
      (t.held (t.replicasAt p shard) = false ∧
        (reconcileShard t p shard).sm
          = applyCommand p.sm (.assignShard (t.nextAssignment p shard))) := by
  cases h : t.held (t.replicasAt p shard) with
  | true => exact .inl (by rw [reconcileShard_of_held h])
  | false =>
    rw [reconcileShard_of_not_held h]
    by_cases hd : differs (p.sm.placement.get shard) (t.nextAssignment p shard) = true
    · exact .inr ⟨rfl, if_pos hd⟩
    · exact .inl (if_neg hd)

theorem get_assign (pl : Placement) (a : ShardAssignment) (s : ShardId) :
    (pl.assign a).get s = if a.shardId = s then some a else pl.get s := by
  simp [Placement.assign, Placement.get]

theorem get_reconcileShard_of_ne {s : ShardId} (h : shard ≠ s) :
    (reconcileShard t p shard).sm.placement.get s = p.sm.placement.get s := by
  rcases @reconcileShard_sm t p shard with heq | ⟨-, heq⟩
  · rw [heq]
  · simp [heq, applyCommand, get_assign, h]

theorem eq_of_not_differs {a next : ShardAssignment} (hkey : a.shardId = next.shardId)
    (h : ¬ differs (some a) next = true) : a = next := by
  simp only [differs, decide_eq_true_eq, not_or, not_not] at h
  obtain ⟨hreplicas, hleader, hregion, hcloud⟩ := h
  cases a
  cases next
  simp_all

theorem shardId_of_get {pl : Placement} {s : ShardId} {a : ShardAssignment}
    (h : pl.get s = some a) : a.shardId = s := pl.assignments.keyed s a h

/-- **A shard that is not held ends with the assignment the walk computed**, whether it had to be
written or not. -/
theorem get_reconcileShard_self (h : t.held (t.replicasAt p shard) = false) :
    (reconcileShard t p shard).sm.placement.get shard
      = if p.sm.placement.get shard = none ∧ (t.nextAssignment p shard).replicas = [] then none
        else some (t.nextAssignment p shard) := by
  rw [reconcileShard_of_not_held h]
  cases hget : p.sm.placement.get shard with
  | none =>
    by_cases hnil : (t.nextAssignment p shard).replicas = []
    · simp [differs, hnil, hget]
    · have hd : differs none (t.nextAssignment p shard) = true := by simpa [differs] using hnil
      simp [hd, hnil, applyCommand, get_assign]
  | some a =>
    by_cases hd : differs (some a) (t.nextAssignment p shard) = true
    · simp [hd, applyCommand, get_assign]
    · have heq : a = t.nextAssignment p shard := eq_of_not_differs (shardId_of_get hget) hd
      have hsame : differs (some (t.nextAssignment p shard)) (t.nextAssignment p shard) = false := by
        simp [differs]
      simp [heq, hget, hsame]

end

/-! ## The walk -/

/-- Everything but the assignments and their generation is the same. -/
structure SameFrame (sm sm' : StateMachine) : Prop where
  membership : sm'.membership = sm.membership
  plan : sm'.plan = sm.plan
  shardCount : sm'.placement.shardCount = sm.placement.shardCount
  policies : sm'.placement.policies = sm.placement.policies

theorem SameFrame.refl (sm : StateMachine) : SameFrame sm sm := ⟨rfl, rfl, rfl, rfl⟩

theorem SameFrame.trans {a b c : StateMachine} (h : SameFrame a b) (h' : SameFrame b c) :
    SameFrame a c where
  membership := h'.membership.trans h.membership
  plan := h'.plan.trans h.plan
  shardCount := h'.shardCount.trans h.shardCount
  policies := h'.policies.trans h.policies

theorem sameFrame_reconcileShard (t : Tick) (p : Pass) (shard : ShardId) :
    SameFrame p.sm (reconcileShard t p shard).sm := by
  rcases @reconcileShard_sm t p shard with heq | ⟨-, heq⟩
  · rw [heq]
    exact .refl _
  · rw [heq]
    exact ⟨rfl, rfl, rfl, rfl⟩

namespace Tick

variable (t : Tick) (p : Pass)

@[simp] theorem walk_zero : t.walk p 0 = p := rfl

theorem walk_succ (n : Nat) : t.walk p (n + 1) = reconcileShard t (t.walk p n) n := by
  simp [walk, List.range_succ]

theorem sameFrame_walk (n : Nat) : SameFrame p.sm (t.walk p n).sm := by
  induction n with
  | zero => exact .refl _
  | succ n ih =>
    rw [walk_succ]
    exact ih.trans (sameFrame_reconcileShard t _ n)

/-- A shard the walk has not met is as it was. -/
theorem get_walk_of_le {n : Nat} {s : ShardId} (h : n ≤ s) :
    (t.walk p n).sm.placement.get s = p.sm.placement.get s := by
  induction n with
  | zero => rfl
  | succ n ih =>
    rw [walk_succ, get_reconcileShard_of_ne (Nat.ne_of_lt h), ih (Nat.le_of_lt h)]

/-- A shard the walk has left behind stays as it is. -/
theorem get_walk_of_lt {n : Nat} {s : ShardId} (h : s < n) :
    (t.walk p n).sm.placement.get s = (t.walk p (s + 1)).sm.placement.get s := by
  induction n with
  | zero => exact absurd h (Nat.not_lt_zero s)
  | succ n ih =>
    rcases Nat.lt_succ_iff_lt_or_eq.mp h with hlt | rfl
    · rw [walk_succ, get_reconcileShard_of_ne (Nat.ne_of_gt hlt), ih hlt]
    · rfl

end Tick

/-- The replicas the map gives a shard. -/
def replicasOf (sm : StateMachine) (s : ShardId) : List NodeId :=
  (sm.placement.get s).elim [] (·.replicas)

/-! ## Finalizing a scale-down -/

theorem applyCommand_forgetNode_placement (sm : StateMachine) (id : NodeId) :
    (applyCommand sm (.forgetNode id)).placement = sm.placement ∧
      (applyCommand sm (.forgetNode id)).plan = sm.plan := by
  simp only [applyCommand]
  split <;> exact ⟨rfl, rfl⟩

/-- Finalizing only touches the registry. -/
theorem finalizeScaleDown_placement (nodes : List NodeInfo) (sm : StateMachine) :
    (finalizeScaleDown nodes sm).placement = sm.placement ∧
      (finalizeScaleDown nodes sm).plan = sm.plan := by
  unfold finalizeScaleDown
  generalize sm.placement.snapshot.flatMap (·.replicas) = assigned
  induction nodes generalizing sm with
  | nil => exact ⟨rfl, rfl⟩
  | cons n rest ih =>
    rw [List.foldl_cons]
    split
    · obtain ⟨hp, hl⟩ := applyCommand_forgetNode_placement sm n.nodeId
      obtain ⟨hp', hl'⟩ := ih (applyCommand sm (.forgetNode n.nodeId))
      exact ⟨hp'.trans hp, hl'.trans hl⟩
    · exact ih sm

/-! ## The tick -/

variable (sm : StateMachine)

/-- The walk when it arrives at a shard. -/
def before (s : ShardId) : Pass := (Tick.of sm).walk (.start sm) s

/-- The replicas a shard has when a tick starts. -/
def currentReplicas (s : ShardId) : List NodeId :=
  (Tick.of sm).currentReplicas (sm.placement.get s) s

theorem get_before (s : ShardId) : (before sm s).sm.placement.get s = sm.placement.get s :=
  (Tick.of sm).get_walk_of_le (.start sm) (le_refl s)

@[simp] theorem replicasAt_before (s : ShardId) :
    (Tick.of sm).replicasAt (before sm s) s = currentReplicas sm s := by
  rw [Tick.replicasAt, get_before, currentReplicas]

/-- The assignment a tick computes for a shard that is not held. -/
def nextAssignment (s : ShardId) : ShardAssignment := (Tick.of sm).nextAssignment (before sm s) s

theorem nextAssignment_eq_desired (s : ShardId) :
    (nextAssignment sm s).replicas
      = (Tick.of sm).desired (before sm s).load (currentReplicas sm s) := by
  rw [nextAssignment, nextAssignment_replicas, replicasAt_before]

variable {sm} in
theorem nodup_nextAssignment {s : ShardId} (h : (currentReplicas sm s).Nodup) :
    (nextAssignment sm s).replicas.Nodup := by
  rw [nextAssignment_eq_desired]
  exact Tick.nodup_desired _ (Tick.nodup_healthyIds sm) h

/-- **The map after a tick, shard by shard.** -/
theorem get_reconcile (s : ShardId) :
    (reconcile true sm).placement.get s
      = if s < sm.placement.shardCount ∧ (Tick.of sm).held (currentReplicas sm s) = false then
          if sm.placement.get s = none ∧ (nextAssignment sm s).replicas = [] then none
          else some (nextAssignment sm s)
        else sm.placement.get s := by
  rw [reconcile, if_pos rfl, (finalizeScaleDown_placement _ _).1]
  by_cases hs : s < sm.placement.shardCount
  · rw [Tick.get_walk_of_lt _ _ hs, Tick.walk_succ]
    cases hheld : (Tick.of sm).held (currentReplicas sm s) with
    | true =>
      rw [if_neg (by simp), reconcileShard_of_held (by rwa [← replicasAt_before] at hheld)]
      exact get_before sm s
    | false =>
      rw [if_pos ⟨hs, rfl⟩]
      rw [get_reconcileShard_self (by rwa [← replicasAt_before] at hheld),
        Tick.get_walk_of_le _ _ (le_refl s)]
      rfl
  · rw [if_neg (fun h => hs h.1)]
    exact Tick.get_walk_of_le _ _ (Nat.le_of_not_lt hs)

theorem sameFrame_before (s : ShardId) : SameFrame sm (before sm s).sm :=
  (Tick.of sm).sameFrame_walk (.start sm) s

theorem reconcile_plan : (reconcile true sm).plan = sm.plan := by
  rw [reconcile, if_pos rfl, (finalizeScaleDown_placement _ _).2]
  exact (sameFrame_before sm _).plan

theorem reconcile_shardCount :
    (reconcile true sm).placement.shardCount = sm.placement.shardCount := by
  rw [reconcile, if_pos rfl, (finalizeScaleDown_placement _ _).1]
  exact (sameFrame_before sm _).shardCount

end FiduciaBrain.Scheduler
