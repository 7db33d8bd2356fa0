import FiduciaBrain.Infra.Balance
import FiduciaBrain.Scheduler.Loads
import FiduciaBrain.Scheduler.Spread
import FiduciaBrain.Scheduler.Brain

/-!
# Ticks with nothing in between

What stays the same when reconciliation is all that happens: the healthy nodes and their failure
domains, the shards that are held and their replicas. After the first tick the map itself says what
the replicas of a shard are, and the replicas of a decided shard are active nodes.
-/

namespace FiduciaBrain.Scheduler

open Infra

/-- The state after some ticks. -/
def ticks (sm : StateMachine) : Nat → StateMachine
  | 0 => sm
  | k + 1 => reconcile true (ticks sm k)

/-! ## The healthy nodes -/

/-- Only draining nodes are forgotten. -/
theorem finalizeScaleDown_keeps {nodes : List NodeInfo} {id : NodeId}
    (h : ∀ n ∈ nodes, n.nodeId = id → n.health ≠ .draining) (sm : StateMachine) :
    (finalizeScaleDown nodes sm).membership.nodes[id]? = sm.membership.nodes[id]? := by
  unfold finalizeScaleDown
  generalize sm.placement.snapshot.flatMap (·.replicas) = assigned
  induction nodes generalizing sm with
  | nil => rfl
  | cons n rest ih =>
    rw [List.foldl_cons, ih (fun m hm => h m (List.mem_cons_of_mem _ hm))]
    split
    · next hgone =>
      have hne : n.nodeId ≠ id := fun heq => h n List.mem_cons_self heq hgone.1
      simp only [applyCommand]
      split
      · rfl
      · rw [Membership.getElem?_forget, if_neg hne]
    · rfl

variable {sm : StateMachine}

theorem nodes_reconcile_of_healthy {id : NodeId} {info : NodeInfo}
    (hinfo : sm.membership.nodes[id]? = some info) (hh : info.health = .healthy) :
    (reconcile true sm).membership.nodes[id]? = some info := by
  rw [reconcile, if_pos rfl, finalizeScaleDown_keeps, (Tick.sameFrame_walk _ _ _).membership]
  · exact hinfo
  · rintro n hn rfl hdraining
    rw [Membership.mem_snapshot.mp hn] at hinfo
    cases hinfo
    rw [hh] at hdraining
    cases hdraining

/-- **The healthy nodes stay**, with what they report. -/
theorem healthyInfos_reconcile :
    (reconcile true sm).membership.snapshot.filter (·.health = .healthy)
      = sm.membership.snapshot.filter (·.health = .healthy) := by
  have hnodup : ∀ m : Membership, (m.snapshot.filter (·.health = .healthy)).Nodup := fun m =>
    (List.Nodup.of_map _ m.snapshot_ids_nodup).filter _
  have hsorted : ∀ m : Membership,
      (m.snapshot.filter (·.health = .healthy)).Pairwise (fun a b => a.nodeId < b.nodeId) :=
    fun m => m.snapshot_sorted.sublist List.filter_sublist
  have hperm : ((reconcile true sm).membership.snapshot.filter (·.health = .healthy)).Perm
      (sm.membership.snapshot.filter (·.health = .healthy)) := by
    refine (List.perm_ext_iff_of_nodup (hnodup _) (hnodup _)).mpr (fun info => ?_)
    simp only [List.mem_filter, decide_eq_true_eq, Membership.mem_snapshot]
    constructor
    · rintro ⟨hinfo, hh⟩
      rcases reconcile_nodes sm info.nodeId with heq | ⟨-, hgone⟩
      · exact ⟨heq ▸ hinfo, hh⟩
      · rw [hgone] at hinfo
        cases hinfo
    · rintro ⟨hinfo, hh⟩
      exact ⟨nodes_reconcile_of_healthy hinfo hh, hh⟩
  exact hperm.eq_of_pairwise (fun a b _ _ hab hba => absurd hba hab.asymm)
    (hsorted _) (hsorted _)

theorem healthyNodes_reconcile : healthyNodes (reconcile true sm) = healthyNodes sm := by
  rw [healthyNodes, allHealthyIds, healthyInfos_reconcile]
  rfl

theorem mem_healthyNodes_reconcile {id : NodeId} :
    id ∈ healthyNodes (reconcile true sm) ↔ id ∈ healthyNodes sm := by
  rw [healthyNodes_reconcile]

theorem failureDomainOf_reconcile {id : NodeId} (h : id ∈ healthyNodes sm) :
    failureDomainOf (reconcile true sm) id = failureDomainOf sm id := by
  obtain ⟨info, hinfo, hh⟩ := mem_allHealthyIds.mp h
  rw [failureDomainOf, failureDomainOf, hinfo, nodes_reconcile_of_healthy hinfo hh]

theorem spread_reconcile {l : List NodeId} (h : ∀ r ∈ l, r ∈ healthyNodes sm) :
    spread (reconcile true sm) l = spread sm l := by
  rw [spread, spread, colours_congr (fun r hr => failureDomainOf_reconcile (h r hr))]

theorem rfOf_reconcile : Tick.rfOf (reconcile true sm) = Tick.rfOf sm := by
  rw [Tick.rfOf, Tick.rfOf, reconcile_plan]

/-! ## The shards that are decided -/

/-- Replicas that are all healthy hold nothing. -/
theorem not_held_of_subset {replicas : List NodeId} (h : ∀ r ∈ replicas, r ∈ healthyNodes sm) :
    (Tick.of sm).held replicas = false := by
  rw [← Bool.not_eq_true, held_iff, not_or]
  constructor
  · rintro ⟨r, hr, hnone⟩
    obtain ⟨info, hinfo, -⟩ := mem_allHealthyIds.mp (h r hr)
    rw [hnone] at hinfo
    cases hinfo
  · rintro ⟨-, hfew⟩
    have hall : replicas.filter ((healthyNodes sm).contains ·) = replicas :=
      List.filter_eq_self.mpr (fun r hr => by simpa using h r hr)
    rw [hall] at hfew
    omega

theorem currentReplicas_of_some {s : ShardId} {a : ShardAssignment}
    (h : sm.placement.get s = some a) : currentReplicas sm s = a.replicas := by
  rw [currentReplicas, h]
  rfl

/-- The replicas of a shard that is not placed are healthy nodes that report it. -/
theorem healthy_of_unplaced {s : ShardId} (h : sm.placement.get s = none) :
    ∀ r ∈ currentReplicas sm s, r ∈ healthyNodes sm := by
  intro r hr
  rw [currentReplicas, h] at hr
  obtain ⟨n, hn, hr⟩ := List.mem_flatMap.mp hr
  obtain ⟨-, -, rfl⟩ := List.mem_map.mp hr
  exact List.mem_map_of_mem hn

/-- The walk decides the shard. -/
def Live (sm : StateMachine) (s : ShardId) : Prop :=
  s < sm.placement.shardCount ∧ (Tick.of sm).held (currentReplicas sm s) = false

instance (sm : StateMachine) : DecidablePred (Live sm) := fun _ => instDecidableAnd

variable {s : ShardId}

theorem mem_nextAssignment_active {r : NodeId} (h : r ∈ (nextAssignment sm s).replicas) :
    r ∈ activeNodes sm := by
  rw [nextAssignment_eq_desired] at h
  exact Tick.mem_desired _ h

theorem get_reconcile_of_live (h : Live sm s) :
    (reconcile true sm).placement.get s
      = if sm.placement.get s = none ∧ (nextAssignment sm s).replicas = [] then none
        else some (nextAssignment sm s) := by
  obtain ⟨hs, hheld⟩ := h
  rw [get_reconcile, if_pos ⟨hs, hheld⟩]

theorem get_reconcile_of_not_live (h : ¬ Live sm s) :
    (reconcile true sm).placement.get s = sm.placement.get s := by
  rw [Live] at h
  rw [get_reconcile, if_neg h]

theorem replicasOf_reconcile_of_live (h : Live sm s) :
    replicasOf (reconcile true sm) s = (nextAssignment sm s).replicas := by
  rw [replicasOf, get_reconcile_of_live h]
  split
  · next hnone => exact hnone.2.symm
  · rfl

theorem replicasOf_reconcile_of_not_live (h : ¬ Live sm s) :
    replicasOf (reconcile true sm) s = replicasOf sm s := by
  rw [replicasOf, replicasOf, get_reconcile_of_not_live h]

/-- A held shard is placed. -/
theorem placed_of_held (h : (Tick.of sm).held (currentReplicas sm s) = true) :
    ∃ a, sm.placement.get s = some a ∧ currentReplicas sm s = a.replicas := by
  cases hget : sm.placement.get s with
  | none =>
    rw [not_held_of_subset (healthy_of_unplaced hget)] at h
    cases h
  | some a => exact ⟨a, rfl, currentReplicas_of_some hget⟩

/-- The map says what the replicas of every shard are: what the nodes report adds nothing. -/
def Mapped (sm : StateMachine) : Prop :=
  ∀ s < sm.placement.shardCount, currentReplicas sm s = replicasOf sm s

/-- With a candidate there is a plan. -/
theorem nextAssignment_ne_nil {x : NodeId} (hx : x ∈ activeNodes sm) :
    (nextAssignment sm s).replicas ≠ [] := by
  intro hnil
  have hlen := Tick.length_desired (Tick.of sm) (before sm s).load (currentReplicas sm s)
  have hmany := @length_activeNodes_le sm s
  have hpos : 0 < (activeNodes sm).length := List.length_pos_of_mem hx
  have hone := Tick.one_le_rf sm
  rw [← nextAssignment_eq_desired, hnil, List.length_nil] at hlen
  rw [idleNodes] at hmany
  omega

theorem activeNodes_subset {x : NodeId} (h : x ∈ activeNodes sm) : x ∈ healthyNodes sm :=
  Tick.healthyIds_subset sm h

/-- With a healthy node there is a candidate. -/
theorem exists_active {x : NodeId} (h : x ∈ healthyNodes sm) : ∃ y, y ∈ activeNodes sm := by
  have hlen := Tick.length_healthyIds sm
  have hpos : 0 < (allHealthyIds sm.membership.snapshot).length := List.length_pos_of_mem h
  have hone := Tick.one_le_rf sm
  have hrf : (Tick.of sm).rf = Tick.rfOf sm := rfl
  exact List.exists_mem_of_length_pos (l := (Tick.of sm).healthyIds) (by omega)

/-- **After a tick the map says it.** -/
theorem mapped_reconcile : Mapped (reconcile true sm) := by
  intro s hs
  cases hget : (reconcile true sm).placement.get s with
  | some a =>
    rw [currentReplicas_of_some hget, replicasOf, hget]
    rfl
  | none =>
    rw [replicasOf, hget]
    refine List.eq_nil_iff_forall_not_mem.mpr (fun r hr => ?_)
    have hr' := mem_healthyNodes_reconcile.mp (healthy_of_unplaced hget r hr)
    obtain ⟨y, hy⟩ := exists_active hr'
    by_cases hlive : Live sm s
    · rw [get_reconcile_of_live hlive, if_neg (fun h => nextAssignment_ne_nil hy h.2)] at hget
      cases hget
    · have hheld : (Tick.of sm).held (currentReplicas sm s) = true := by
        rw [Live, not_and, Bool.not_eq_false] at hlive
        exact hlive (by rwa [reconcile_shardCount] at hs)
      obtain ⟨a, ha, -⟩ := placed_of_held hheld
      rw [get_reconcile_of_not_live hlive, ha] at hget
      cases hget

/-- **What is held stays held**, and what is decided stays decided. -/
theorem held_reconcile (hs : s < sm.placement.shardCount) :
    (Tick.of (reconcile true sm)).held (currentReplicas (reconcile true sm) s)
      = (Tick.of sm).held (currentReplicas sm s) := by
  cases hheld : (Tick.of sm).held (currentReplicas sm s) with
  | false =>
    refine not_held_of_subset (fun r hr => mem_healthyNodes_reconcile.mpr ?_)
    rw [mapped_reconcile s (by rwa [reconcile_shardCount]),
      replicasOf_reconcile_of_live ⟨hs, hheld⟩] at hr
    exact activeNodes_subset (mem_nextAssignment_active hr)
  | true =>
    obtain ⟨a, ha, hcur⟩ := placed_of_held hheld
    have hget : (reconcile true sm).placement.get s = some a := by
      rw [get_reconcile_of_not_live (fun h => by simp [h.2] at hheld), ha]
    rw [currentReplicas_of_some hget, held_iff]
    rw [hcur, held_iff] at hheld
    rcases hheld with ⟨r, hr, hnone⟩ | hfew
    · refine .inl ⟨r, hr, ?_⟩
      rcases reconcile_nodes sm r with heq | ⟨-, hgone⟩
      · rw [heq, hnone]
      · exact hgone
    · refine .inr ?_
      rwa [TooFewHealthy, healthyNodes_reconcile, rfOf_reconcile]

theorem live_reconcile : Live (reconcile true sm) s ↔ Live sm s := by
  rw [Live, Live, reconcile_shardCount]
  exact and_congr_right (fun hs => by rw [held_reconcile hs])

/-! ## After any number of ticks -/

/-- What a tick leaves alone stays for ever. -/
theorem ticks_eq_of_reconcile {β : Type} {f : StateMachine → β}
    (h : ∀ sm, f (reconcile true sm) = f sm) (sm : StateMachine) (k : Nat) :
    f (ticks sm k) = f sm := by
  induction k with
  | zero => rfl
  | succ k ih => exact (h (ticks sm k)).trans ih

theorem live_ticks (sm : StateMachine) (k : Nat) (s : ShardId) : Live (ticks sm k) s ↔ Live sm s :=
  iff_of_eq (@ticks_eq_of_reconcile _ (Live · s) (fun _ => propext live_reconcile) sm k)

theorem shardCount_ticks (sm : StateMachine) (k : Nat) :
    (ticks sm k).placement.shardCount = sm.placement.shardCount :=
  @ticks_eq_of_reconcile _ (·.placement.shardCount) reconcile_shardCount sm k

theorem rfOf_ticks (sm : StateMachine) (k : Nat) : Tick.rfOf (ticks sm k) = Tick.rfOf sm :=
  ticks_eq_of_reconcile (fun _ => rfOf_reconcile) sm k

/-! ## The generation -/

/-- The state with another generation of the map. -/
def withGeneration (sm : StateMachine) (g : Nat) : StateMachine :=
  { sm with placement := { sm.placement with generation := g } }

theorem assignShard_withGeneration (sm : StateMachine) (g : Nat) (a : ShardAssignment) :
    applyCommand (withGeneration sm g) (.assignShard a)
      = withGeneration (applyCommand sm (.assignShard a)) (g + 1) := rfl

theorem reconcileShard_withGeneration (t : Tick) (p : Pass) (shard : ShardId) (g : Nat) :
    ∃ g', reconcileShard t { p with sm := withGeneration p.sm g } shard
      = { reconcileShard t p shard with sm := withGeneration (reconcileShard t p shard).sm g' } := by
  have hget : (withGeneration p.sm g).placement.get shard = p.sm.placement.get shard := rfl
  have hpolicy : (withGeneration p.sm g).placement.policy shard = p.sm.placement.policy shard := rfl
  unfold reconcileShard
  simp only [hget, hpolicy]
  split
  · exact ⟨g, rfl⟩
  · split
    · exact ⟨g, rfl⟩
    · split
      · refine ⟨g + 1, ?_⟩
        rw [assignShard_withGeneration]
      · refine ⟨g, ?_⟩
        with_reducible rfl

theorem walk_withGeneration (t : Tick) (p : Pass) (n g : Nat) :
    ∃ g', t.walk { p with sm := withGeneration p.sm g } n
      = { t.walk p n with sm := withGeneration (t.walk p n).sm g' } := by
  induction n with
  | zero => exact ⟨g, rfl⟩
  | succ n ih =>
    obtain ⟨g', hg⟩ := ih
    rw [Tick.walk_succ, Tick.walk_succ, hg]
    exact reconcileShard_withGeneration t (t.walk p n) n g'

theorem finalizeScaleDown_withGeneration (nodes : List NodeInfo) (sm : StateMachine) (g : Nat) :
    finalizeScaleDown nodes (withGeneration sm g) = withGeneration (finalizeScaleDown nodes sm) g := by
  have hsnapshot : (withGeneration sm g).placement.snapshot = sm.placement.snapshot := rfl
  unfold finalizeScaleDown
  rw [hsnapshot]
  generalize sm.placement.snapshot.flatMap (·.replicas) = assigned
  induction nodes generalizing sm with
  | nil => rfl
  | cons n rest ih =>
    have hforget : applyCommand (withGeneration sm g) (.forgetNode n.nodeId)
        = withGeneration (applyCommand sm (.forgetNode n.nodeId)) g := by
      have hassigned : stillAssigned (withGeneration sm g).placement n.nodeId
          = stillAssigned sm.placement n.nodeId := rfl
      simp only [applyCommand, hassigned]
      split <;> rfl
    simp only [List.foldl_cons]
    split
    · rw [hforget]
      exact ih _ rfl
    · exact ih sm rfl

/-- **A tick does not look at the generation.** -/
theorem reconcile_withGeneration (sm : StateMachine) (g : Nat) :
    ∃ g', reconcile true (withGeneration sm g) = withGeneration (reconcile true sm) g' := by
  obtain ⟨g', hg⟩ := walk_withGeneration (Tick.of sm) (.start sm) sm.placement.shardCount g
  refine ⟨g', ?_⟩
  rw [reconcile, if_pos rfl, reconcile, if_pos rfl, ← finalizeScaleDown_withGeneration]
  exact congrArg (fun p : Pass => finalizeScaleDown sm.membership.snapshot p.sm) hg

theorem ticks_withGeneration (sm : StateMachine) (k g : Nat) :
    ∃ g', ticks (withGeneration sm g) k = withGeneration (ticks sm k) g' := by
  induction k with
  | zero => exact ⟨g, rfl⟩
  | succ k ih =>
    obtain ⟨g', hg⟩ := ih
    rw [ticks, ticks, hg]
    exact reconcile_withGeneration (ticks sm k) g'

theorem ticks_add (sm : StateMachine) (j k : Nat) : ticks sm (j + k) = ticks (ticks sm j) k := by
  induction k with
  | zero => rfl
  | succ k ih => rw [← Nat.add_assoc, ticks, ticks, ih]

/-- A state that comes back, but for the generation, comes back again and again. -/
theorem ticks_mul_period {sm : StateMachine} {p g : Nat} (h : ticks sm p = withGeneration sm g)
    (n : Nat) : ∃ g', ticks sm (p * n) = withGeneration sm g' := by
  induction n with
  | zero => exact ⟨sm.placement.generation, rfl⟩
  | succ n ih =>
    obtain ⟨g', hg⟩ := ih
    obtain ⟨g'', hg'⟩ := ticks_withGeneration sm (p * n) g
    refine ⟨g'', ?_⟩
    rw [Nat.mul_succ, Nat.add_comm, ticks_add, h, hg', hg]
    rfl

theorem reconcile_policies (sm : StateMachine) :
    (reconcile true sm).placement.policies = sm.placement.policies := by
  rw [reconcile, if_pos rfl, (finalizeScaleDown_placement _ _).1]
  exact (sameFrame_before sm _).policies

/-- The snapshots say everything but the generation. -/
theorem eq_withGeneration {sm sm' : StateMachine}
    (hmembers : sm'.membership.snapshot = sm.membership.snapshot)
    (hmap : sm'.placement.snapshot = sm.placement.snapshot) (hplan : sm'.plan = sm.plan)
    (hcount : sm'.placement.shardCount = sm.placement.shardCount)
    (hpolicies : sm'.placement.policies = sm.placement.policies) :
    sm' = withGeneration sm sm'.placement.generation := by
  have hnodes : sm'.membership.nodes = sm.membership.nodes := by
    refine Std.ExtTreeMap.ext_getElem? (fun {id} => ?_)
    rw [← Membership.find?_snapshot, ← Membership.find?_snapshot, hmembers]
  have hassign : sm'.placement.assignments = sm.placement.assignments := by
    rw [← Assignments.ofList_snapshot sm'.placement.assignments,
      ← Assignments.ofList_snapshot sm.placement.assignments]
    exact congrArg Assignments.ofList hmap
  obtain ⟨⟨nodes, keyed⟩, ⟨count, generation, assignments, policies⟩, plan⟩ := sm
  obtain ⟨⟨nodes', keyed'⟩, ⟨count', generation', assignments', policies'⟩, plan'⟩ := sm'
  cases hnodes
  cases hassign
  cases hplan
  cases hcount
  cases hpolicies
  rfl

end FiduciaBrain.Scheduler
