import FiduciaBrain.Scheduler.Loads

/-!
# Who should lead

The preferred leader of a decided shard is the replica with the largest key (`preferredLeader_spec`):
region and provider affinity first, then the smaller leader load, then whoever leads already, then
the smaller id. The leader loads of a walk start as the counts of the whole map; at every shard it
decides the walk takes the old leader out, chooses, and puts the new one in.
-/

namespace FiduciaBrain.Scheduler

open Infra

/-! ## The choice -/

/-- The leader order as a key. The slot with the largest one leads. -/
def leaderKey (policy : Option PlacementPolicy) (current : Option NodeId) (s : LeaderSlot) :
    (Bool ×ₗ Bool) ×ₗ ℕᵒᵈ ×ₗ Bool ×ₗ NodeIdᵒᵈ :=
  toLex (toLex ((policy.bind (·.homeRegion)).any (eqIgnoreAsciiCase · s.region),
      (policy.bind (·.preferredCloudProvider)).any (eqIgnoreAsciiCase · s.cloudProvider)),
    toLex (OrderDual.toDual s.leaderLoad,
      toLex (current == some s.nodeId, OrderDual.toDual s.nodeId)))

theorem leaderOrder_gt_iff (policy : Option PlacementPolicy) (current : Option NodeId)
    (x y : LeaderSlot) :
    (leaderOrder policy current y x == .gt) = true ↔
      leaderKey policy current y < leaderKey policy current x := by
  simp only [leaderOrder, leaderKey, beq_iff_eq, Ordering.then_eq_gt, compare_gt_iff_gt,
    compare_eq_iff_eq, Prod.Lex.toLex_lt_toLex, OrderDual.toDual_lt_toDual,
    EmbeddingLike.apply_eq_iff_eq, Prod.mk.injEq]
  grind

namespace Tick

variable (t : Tick) (policy : Option PlacementPolicy) (shard : ShardId)

/-- How well a node fits the policy: its region first, its provider second. -/
def affinity (id : NodeId) : Bool ×ₗ Bool :=
  toLex ((policy.bind (·.homeRegion)).any (eqIgnoreAsciiCase · (t.regionOf id)),
    (policy.bind (·.preferredCloudProvider)).any (eqIgnoreAsciiCase · (t.cloudOf id)))

/-- What breaks a tie of the loads: whoever leads already, then the smaller id. -/
def tie (id : NodeId) : Bool ×ₗ NodeIdᵒᵈ :=
  toLex (t.observedLeader shard == some id, OrderDual.toDual id)

theorem leaderKey_slot (id : NodeId) (load : Nat) :
    leaderKey policy (t.observedLeader shard) ⟨id, t.cloudOf id, t.regionOf id, load⟩
      = toLex (t.affinity policy id, toLex (OrderDual.toDual load, t.tie shard id)) := rfl

variable {t policy shard} {leaderLoad : Loads} {desired : List NodeId}

/-- **The preferred leader** is the replica with the best affinity, of these the one with the least
load, and of these the one that wins the tie. -/
theorem preferredLeader_spec (hne : desired ≠ []) (hhealthy : ∀ id ∈ desired, id ∈ t.healthyIds) :
    ∃ l ∈ desired, t.preferredLeader leaderLoad policy desired shard = some l ∧
      ∀ id ∈ desired,
        toLex (t.affinity policy id, toLex (OrderDual.toDual (leaderLoad.get id), t.tie shard id))
          ≤ toLex (t.affinity policy l,
              toLex (OrderDual.toDual (leaderLoad.get l), t.tie shard l)) := by
  have hok : ∀ id ∈ desired, (t.healthyIds.contains id && desired.any (· == id)) = true := by
    intro id hid
    simp [hhealthy id hid, hid]
  set leaderSlots := desired.map fun id =>
    (⟨id, t.cloudOf id, t.regionOf id, leaderLoad.get id⟩ : LeaderSlot) with hslots
  have hall : leaderSlots.filter (fun slot =>
      t.healthyIds.contains slot.nodeId && desired.any (· == slot.nodeId)) = leaderSlots := by
    refine List.filter_eq_self.mpr (fun slot hslot => ?_)
    obtain ⟨id, hid, rfl⟩ := List.mem_map.mp hslot
    exact hok id hid
  cases hmin : minBy (leaderOrder policy (t.observedLeader shard)) leaderSlots with
  | none =>
    have hnil := minBy_eq_none.mp hmin
    exact absurd (List.map_eq_nil_iff.mp hnil) hne
  | some slot =>
    have hmax : ∀ s ∈ leaderSlots, leaderKey policy (t.observedLeader shard) s
        ≤ leaderKey policy (t.observedLeader shard) slot :=
      selectBest_max (fun x y hxy => ((leaderOrder_gt_iff _ _ x y).mp hxy).le)
        (fun x y hxy => (leaderOrder_gt_iff _ _ x y).mpr hxy) hmin
    obtain ⟨l, hl, rfl⟩ := List.mem_map.mp (minBy_mem hmin)
    refine ⟨l, hl, ?_, fun id hid => ?_⟩
    · rw [Tick.preferredLeader, preferredLeaderForPolicy, ← hslots, hall, hmin]
      simp only [desiredLeader, Option.map_some, Option.filter_some, hok l hl, if_true,
        Option.some_or]
    · have hkey := hmax ⟨id, t.cloudOf id, t.regionOf id, leaderLoad.get id⟩
        (List.mem_map.mpr ⟨id, hid, rfl⟩)
      rwa [leaderKey_slot, leaderKey_slot] at hkey

/-- Nobody leads a shard without replicas. -/
theorem preferredLeader_nil : t.preferredLeader leaderLoad policy [] shard = none := by
  cases t.observedLeader shard <;>
    simp [preferredLeader, preferredLeaderForPolicy, desiredLeader, minBy, selectBest, *]

end Tick

/-! ## The leader loads of a walk -/

/-- The leader the map has for a shard. -/
def leaderOf (sm : StateMachine) (s : ShardId) : Option NodeId :=
  (sm.placement.get s).bind (·.preferredLeader)

theorem start_leaderLoad (sm : StateMachine) (x : NodeId) :
    (Pass.start sm).leaderLoad x
      = if x ∈ (Tick.of sm).healthyIds then
          some (sm.placement.snapshot.map fun a => a.preferredLeader.toList.count x).sum
        else none := by
  simp only [Pass.start, leaderLoads, Loads.elim_add]
  exact Loads.foldl_foldl_add_zero (·.preferredLeader.toList) _ _ x

theorem releaseLeader_eq (leaderLoad : Loads) (current : Option ShardAssignment) (x : NodeId) :
    releaseLeader leaderLoad current x
      = (leaderLoad x).map (· - (current.bind (·.preferredLeader)).toList.count x) := by
  rw [releaseLeader, Loads.elim_sub, Loads.foldl_sub]

/-- What one shard does to the leader loads. -/
theorem reconcileShard_leaderLoad {t : Tick} {p : Pass} {shard : ShardId}
    (h : t.held (t.replicasAt p shard) = false) (x : NodeId) :
    (reconcileShard t p shard).leaderLoad x
      = (p.leaderLoad x).map (fun n =>
          n - ((p.sm.placement.get shard).bind (·.preferredLeader)).toList.count x
            + (t.nextAssignment p shard).preferredLeader.toList.count x) := by
  rw [reconcileShard_of_not_held h]
  simp only [Loads.elim_add, Loads.foldl_add, releaseLeader_eq, Option.map_map, Function.comp_def]

theorem before_succ_leaderLoad (sm : StateMachine) (s : ShardId) (x : NodeId) :
    (before sm (s + 1)).leaderLoad x
      = if (Tick.of sm).held (currentReplicas sm s) = true then (before sm s).leaderLoad x
        else ((before sm s).leaderLoad x).map (fun n => n - (leaderOf sm s).toList.count x
          + (nextAssignment sm s).preferredLeader.toList.count x) := by
  have hstep : before sm (s + 1) = reconcileShard (Tick.of sm) (before sm s) s :=
    Tick.walk_succ _ _ s
  rw [hstep]
  cases hheld : (Tick.of sm).held (currentReplicas sm s) with
  | true => rw [if_pos rfl, reconcileShard_of_held (by rwa [replicasAt_before])]
  | false =>
    rw [if_neg (by simp), reconcileShard_leaderLoad (by rwa [replicasAt_before]), get_before,
      leaderOf, nextAssignment]

end FiduciaBrain.Scheduler
