import FiduciaBrain.Scheduler.Ticks

/-!
# The active nodes settle

The loads a walk carries are those of the map as far as the walk has rewritten it (`before_load`).
The cut to the target keeps the most loaded nodes, and only active nodes get replicas. What a node
that is not active has left is its share of the held shards, which no tick changes, so in the order
of those shares (`heldBefore`) every change of the active nodes is for the better
(`activeNodes_settle`).
-/

namespace FiduciaBrain.Scheduler

open Infra

/-- The shards that can have replicas. -/
structure Covers (K : Finset ShardId) (sm : StateMachine) : Prop where
  inRange : ∀ s < sm.placement.shardCount, s ∈ K
  placed : ∀ s, sm.placement.get s ≠ none → s ∈ K

theorem exists_covers (sm : StateMachine) : ∃ K, Covers K sm := by
  refine ⟨Finset.range sm.placement.shardCount ∪ (sm.placement.snapshot.map (·.shardId)).toFinset,
    fun s hs => Finset.mem_union_left _ (Finset.mem_range.mpr hs), fun s hs => ?_⟩
  obtain ⟨a, ha⟩ := Option.ne_none_iff_exists'.mp hs
  have hkey : a.shardId = s := shardId_of_get ha
  have hmem : a ∈ sm.placement.snapshot := Assignments.mem_snapshot.mpr (hkey ▸ ha)
  exact Finset.mem_union_right _ (List.mem_toFinset.mpr (List.mem_map.mpr ⟨a, hmem, hkey⟩))

section

variable {K : Finset ShardId} {sm : StateMachine}

theorem Covers.reconcile (h : Covers K sm) : Covers K (reconcile true sm) where
  inRange := by
    rw [reconcile_shardCount]
    exact h.inRange
  placed := by
    intro s hs
    by_cases hlive : Live sm s
    · exact h.inRange s hlive.1
    · rw [get_reconcile_of_not_live hlive] at hs
      exact h.placed s hs

theorem Covers.ticks (h : Covers K sm) (k : Nat) : Covers K (ticks sm k) := by
  induction k with
  | zero => exact h
  | succ k ih => exact ih.reconcile

/-! ## The loads of the walk -/

/-- Counting over the map is counting over the shards. -/
theorem sum_snapshot (h : Covers K sm) (f : ShardAssignment → List NodeId) (x : NodeId) :
    (sm.placement.snapshot.map fun a => (f a).count x).sum
      = loadOf K (fun s => (sm.placement.get s).elim [] f) x := by
  have hdistinct : (sm.placement.snapshot.map (·.shardId)).Nodup :=
    List.pairwise_map.mpr sm.placement.assignments.snapshot_distinct
  have hsub : (sm.placement.snapshot.map (·.shardId)).toFinset ⊆ K := by
    intro s hs
    obtain ⟨a, ha, rfl⟩ := List.mem_map.mp (List.mem_toFinset.mp hs)
    have hget : sm.placement.get a.shardId = some a := Assignments.mem_snapshot.mp ha
    exact h.placed _ (by simp [hget])
  rw [loadOf, ← Finset.sum_subset hsub, List.sum_toFinset _ hdistinct, List.map_map]
  · refine congrArg List.sum (List.map_congr_left (fun a ha => ?_))
    have hget : sm.placement.get a.shardId = some a := Assignments.mem_snapshot.mp ha
    simp [hget]
  · intro s _ hs
    have hnone : sm.placement.get s = none := by
      cases hget : sm.placement.get s with
      | none => rfl
      | some a =>
        have hkey : a.shardId = s := shardId_of_get hget
        have hmem : a ∈ sm.placement.snapshot := Assignments.mem_snapshot.mpr (hkey ▸ hget)
        exact absurd (List.mem_toFinset.mpr (List.mem_map.mpr ⟨a, hmem, hkey⟩)) hs
    simp [hnone]

/-- What the map counts for a node. -/
theorem replicaCount_snapshot (h : Covers K sm) (x : NodeId) :
    replicaCount sm.placement.snapshot x = loadOf K (replicasOf sm) x :=
  sum_snapshot h (·.replicas) x

/-- The replicas of every shard when the walk arrives at `s`. -/
def layoutAt (sm : StateMachine) (s : ShardId) : ShardId → List NodeId := fun s' =>
  if s' < s then replicasOf (reconcile true sm) s' else replicasOf sm s'

theorem layoutAt_eq : layoutAt sm = upTo (replicasOf sm) (replicasOf (reconcile true sm)) := rfl

theorem layoutAt_shardCount :
    layoutAt sm sm.placement.shardCount = replicasOf (reconcile true sm) :=
  upTo_eq_new (fun _ hs => replicasOf_reconcile_of_not_live (fun h => Nat.not_lt.mpr hs h.1))

/-- **The loads the walk arrives with** are those of the map it has rewritten so far. -/
theorem before_load (hmap : Mapped sm) (hK : Covers K sm) {x : NodeId} (hx : x ∈ activeNodes sm)
    {s : ShardId} (hs : s ≤ sm.placement.shardCount) :
    (before sm s).load x = some (loadOf K (layoutAt sm s) x) := by
  rw [layoutAt_eq]
  induction s with
  | zero =>
    have hx' : x ∈ (Tick.of sm).healthyIds := hx
    rw [upTo_zero, ← replicaCount_snapshot hK]
    exact (start_load sm x).trans (if_pos hx')
  | succ s ih =>
    rw [before_succ_load, ih (Nat.le_of_succ_le hs)]
    cases hheld : (Tick.of sm).held (currentReplicas sm s) with
    | true =>
      rw [if_pos rfl, upTo_succ_of_eq]
      exact replicasOf_reconcile_of_not_live (fun h => by simp [h.2] at hheld)
    | false =>
      rw [loadOf_upTo_succ_eq (hK.inRange s hs), replicasOf_reconcile_of_live ⟨hs, hheld⟩,
        if_neg (by simp), hmap s hs, Option.map_some]

end

/-! ## The cut -/

/-- A node the cut keeps comes before a node it leaves out. -/
theorem activeNodesForTarget_before {l : List NodeId} {load : Loads} {target : Nat} {x y : NodeId}
    (hx : x ∈ activeNodesForTarget l load target) (hy : y ∈ l)
    (hout : y ∉ activeNodesForTarget l load target) :
    load.get y < load.get x ∨ (load.get x = load.get y ∧ x ≤ y) := by
  let r : NodeId → NodeId → Prop := fun a b =>
    ((compare (load.get b) (load.get a)).then (compare a b)).isLE = true
  have hr : ∀ {a b}, r a b ↔ load.get b < load.get a ∨ (load.get a = load.get b ∧ a ≤ b) :=
    fun {a b} => activeOrder_iff load a b
  have htotal : Std.Total r := ⟨fun a b => by
    rw [hr, hr]
    rcases lt_trichotomy (load.get a) (load.get b) with h | h | h
    · exact .inr (.inl h)
    · exact (le_total a b).imp (fun hab => .inr ⟨h, hab⟩) (fun hba => .inr ⟨h.symm, hba⟩)
    · exact .inl (.inl h)⟩
  have htrans : IsTrans NodeId r := ⟨fun a b c hab hbc => by
    rw [hr] at hab hbc ⊢
    rcases hab with hab | ⟨hab, hle⟩ <;> rcases hbc with hbc | ⟨hbc, hle'⟩
    · exact .inl (hbc.trans hab)
    · exact .inl (hbc ▸ hab)
    · exact .inl (hab ▸ hbc)
    · exact .inr ⟨hab.trans hbc, hle.trans hle'⟩⟩
  unfold activeNodesForTarget at hx hout
  split at hx
  · next hall =>
    rw [if_pos hall] at hout
    exact absurd hy hout
  · next hcut =>
    rw [if_neg hcut, List.mem_insertionSort] at hout
    rw [List.mem_insertionSort] at hx
    have hsorted : (l.insertionSort r).Pairwise r := List.pairwise_insertionSort r l
    have hy' : y ∈ (l.insertionSort r).take target ++ (l.insertionSort r).drop target := by
      rw [List.take_append_drop, List.mem_insertionSort]
      exact hy
    rw [← List.take_append_drop target (l.insertionSort r), List.pairwise_append] at hsorted
    exact hr.mp (hsorted.2.2 x hx y ((List.mem_append.mp hy').resolve_left hout))

theorem activeNodes_before {sm : StateMachine} {x y : NodeId} (hx : x ∈ activeNodes sm)
    (hy : y ∈ healthyNodes sm) (hout : y ∉ activeNodes sm) :
    replicaCount sm.placement.snapshot y < replicaCount sm.placement.snapshot x ∨
      (replicaCount sm.placement.snapshot x = replicaCount sm.placement.snapshot y ∧ x ≤ y) := by
  have hget : ∀ z ∈ healthyNodes sm,
      (replicaLoads sm.placement.snapshot (healthyNodes sm)).get z
        = replicaCount sm.placement.snapshot z := by
    intro z hz
    rw [Loads.get, replicaLoads_eq, if_pos hz, Option.getD_some]
  have h := activeNodesForTarget_before hx hy hout
  rwa [← healthyNodes, hget y hy, hget x (activeNodes_subset hx)] at h

/-! ## The held shards -/

section

variable (K : Finset ShardId) (sm : StateMachine)

/-- What the shards that no tick decides give a node. -/
def heldLoad (x : NodeId) : Nat := ∑ s ∈ K with ¬ Live sm s, (replicasOf sm s).count x

/-- The larger share of the held shards first, then the smaller id. -/
def heldBefore (x y : NodeId) : Prop :=
  heldLoad K sm y < heldLoad K sm x ∨ (heldLoad K sm x = heldLoad K sm y ∧ x < y)

instance : DecidableRel (heldBefore K sm) := fun _ _ => instDecidableOr

variable {K sm}

theorem heldBefore_trans {x y z : NodeId} (h : heldBefore K sm x y) (h' : heldBefore K sm y z) :
    heldBefore K sm x z := by
  rcases h with h | ⟨h, hlt⟩ <;> rcases h' with h' | ⟨h', hlt'⟩
  · exact .inl (h'.trans h)
  · exact .inl (h' ▸ h)
  · exact .inl (h ▸ h')
  · exact .inr ⟨h.trans h', hlt.trans hlt'⟩

theorem heldBefore_irrefl (x : NodeId) : ¬ heldBefore K sm x x := by
  rintro (h | ⟨-, h⟩) <;> exact lt_irrefl _ h

theorem heldLoad_reconcile : heldLoad K (reconcile true sm) = heldLoad K sm := by
  funext x
  refine Finset.sum_congr (Finset.filter_congr (fun s _ => by rw [live_reconcile])) ?_
  intro s hs
  rw [replicasOf_reconcile_of_not_live (Finset.mem_filter.mp hs).2]

/-- A node that was not active has nothing but its share of the held shards. -/
theorem replicaCount_reconcile (hK : Covers K sm) (x : NodeId) :
    heldLoad K sm x ≤ replicaCount (reconcile true sm).placement.snapshot x ∧
      (x ∉ activeNodes sm →
        replicaCount (reconcile true sm).placement.snapshot x = heldLoad K sm x) := by
  have hsplit : replicaCount (reconcile true sm).placement.snapshot x
      = (∑ s ∈ K with Live sm s, (replicasOf (reconcile true sm) s).count x)
        + heldLoad K sm x := by
    rw [replicaCount_snapshot hK.reconcile, loadOf,
      ← Finset.sum_filter_add_sum_filter_not K (Live sm)]
    congr 1
    refine Finset.sum_congr rfl (fun s hs => ?_)
    rw [replicasOf_reconcile_of_not_live (Finset.mem_filter.mp hs).2]
  refine ⟨by omega, fun hx => ?_⟩
  have hzero : ∑ s ∈ K with Live sm s, (replicasOf (reconcile true sm) s).count x = 0 := by
    refine Finset.sum_eq_zero (fun s hs => ?_)
    rw [replicasOf_reconcile_of_live (Finset.mem_filter.mp hs).2]
    exact List.count_eq_zero.mpr (fun hmem => hx (mem_nextAssignment_active hmem))
  omega

/-! ## Every change is for the better -/

/-- The rank sum of the active nodes among the healthy ones. -/
def activeRank (K : Finset ShardId) (sm : StateMachine) : Nat :=
  ∑ x ∈ (activeNodes sm).toFinset, rankIn (heldBefore K sm) (healthyNodes sm).toFinset x

theorem card_activeNodes (sm : StateMachine) :
    (activeNodes sm).toFinset.card
      = min (healthyNodes sm).length (max sm.plan.targetNodes (Tick.rfOf sm)) := by
  exact (List.toFinset_card_of_nodup (Tick.nodup_healthyIds sm)).trans (Tick.length_healthyIds sm)

/-- A node that becomes active comes before every node that it replaces. -/
theorem heldBefore_of_replaces (hK : Covers K sm) {x y : NodeId}
    (hx : x ∈ activeNodes (reconcile true sm)) (hx' : x ∉ activeNodes sm)
    (hy : y ∈ activeNodes sm) (hy' : y ∉ activeNodes (reconcile true sm)) :
    heldBefore K sm x y := by
  have hxload := (replicaCount_reconcile hK x).2 hx'
  have hyload := (replicaCount_reconcile hK y).1
  have hhealthy : y ∈ healthyNodes (reconcile true sm) :=
    mem_healthyNodes_reconcile.mpr (activeNodes_subset hy)
  rcases activeNodes_before hx hhealthy hy' with hlt | ⟨heq, hle⟩
  · exact .inl (by omega)
  · rcases Nat.lt_or_eq_of_le hyload with hlt | hsame
    · exact .inl (by omega)
    · have hne : x ≠ y := fun h => hx' (h ▸ hy)
      exact .inr ⟨by omega, lt_of_le_of_ne hle hne⟩

theorem activeRank_reconcile (hK : Covers K sm) :
    activeRank K (reconcile true sm) ≤ activeRank K sm ∧
      (activeRank K (reconcile true sm) = activeRank K sm →
        (activeNodes (reconcile true sm)).toFinset = (activeNodes sm).toFinset) := by
  have hrank : activeRank K (reconcile true sm)
      = ∑ x ∈ (activeNodes (reconcile true sm)).toFinset,
          rankIn (heldBefore K sm) (healthyNodes sm).toFinset x := by
    simp only [activeRank, rankIn, heldBefore, heldLoad_reconcile, healthyNodes_reconcile]
  by_cases hsame : (activeNodes (reconcile true sm)).toFinset = (activeNodes sm).toFinset
  · exact ⟨by rw [hrank, hsame, activeRank], fun _ => hsame⟩
  · have hlt : activeRank K (reconcile true sm) < activeRank K sm := by
      rw [hrank]
      refine sum_lt_of_exchange ?_ (fun x hx y hy => ?_) hsame
      · rw [card_activeNodes, card_activeNodes, healthyNodes_reconcile, rfOf_reconcile,
          reconcile_plan]
      · simp only [Finset.mem_sdiff, List.mem_toFinset] at hx hy
        have hhealthy : x ∈ healthyNodes sm :=
          mem_healthyNodes_reconcile.mp (activeNodes_subset hx.1)
        have hbefore : heldBefore K sm x y := heldBefore_of_replaces hK hx.1 hx.2 hy.1 hy.2
        exact @rankIn_lt _ (heldBefore K sm) _ heldBefore_trans heldBefore_irrefl _ _ _
          (List.mem_toFinset.mpr hhealthy) hbefore
    exact ⟨hlt.le, fun heq => absurd heq hlt.ne⟩

/-- **After finitely many ticks the active nodes stay the same.** -/
theorem activeNodes_settle (sm : StateMachine) :
    ∃ N, ∀ k, N ≤ k →
      (activeNodes (ticks sm (k + 1))).toFinset = (activeNodes (ticks sm k)).toFinset := by
  obtain ⟨K, hK⟩ := exists_covers sm
  obtain ⟨N, -, hN⟩ := eventually_const (f := fun k => activeRank K (ticks sm k)) (N := 0)
    (fun k _ => (activeRank_reconcile (hK.ticks k)).1)
  exact ⟨N, fun k hk => (activeRank_reconcile (hK.ticks k)).2 (hN k hk)⟩

end

end FiduciaBrain.Scheduler
