import FiduciaBrain.Scheduler.Walk
import Mathlib.Algebra.GroupWithZero.Nat

/-!
# The loads of a walk

A walk starts with the replica counts of the whole map and, at every shard it decides, takes the
current replicas out and puts the planned ones in. Both are told here by counts.
-/

namespace FiduciaBrain.Scheduler

namespace Loads

theorem foldl_add (l : Loads) (ids : List NodeId) (x : NodeId) :
    ids.foldl add l x = (l x).map (· + ids.count x) := by
  induction ids generalizing l with
  | nil => simp
  | cons id rest ih =>
    rw [List.foldl_cons, ih, add, List.count_cons]
    by_cases h : x = id
    · subst h
      simp [Option.map_map, Function.comp_def, Nat.add_comm, Nat.add_left_comm]
    · have hne : ¬ id = x := fun heq => h heq.symm
      simp [h, hne]

theorem foldl_sub (l : Loads) (ids : List NodeId) (x : NodeId) :
    ids.foldl sub l x = (l x).map (· - ids.count x) := by
  induction ids generalizing l with
  | nil => simp
  | cons id rest ih =>
    rw [List.foldl_cons, ih, sub, List.count_cons]
    by_cases h : x = id
    · subst h
      simp [Option.map_map, Function.comp_def, Nat.sub_sub, Nat.add_comm]
    · have hne : ¬ id = x := fun heq => h heq.symm
      simp [h, hne]

theorem elim_add (l : Loads) (id : Option NodeId) : id.elim l l.add = id.toList.foldl add l := by
  cases id <;> rfl

theorem elim_sub (l : Loads) (id : Option NodeId) : id.elim l l.sub = id.toList.foldl sub l := by
  cases id <;> rfl

/-- Counting what `f` lists for each assignment. -/
theorem foldl_foldl_add (f : ShardAssignment → List NodeId) (assignments : List ShardAssignment)
    (l : Loads) (x : NodeId) :
    assignments.foldl (fun l a => (f a).foldl add l) l x
      = (l x).map (· + (assignments.map fun a => (f a).count x).sum) := by
  induction assignments generalizing l with
  | nil => simp
  | cons a rest ih =>
    rw [List.foldl_cons, ih, foldl_add, Option.map_map]
    simp [Function.comp_def, Nat.add_assoc]

theorem foldl_foldl_add_zero (f : ShardAssignment → List NodeId)
    (assignments : List ShardAssignment) (ids : List NodeId) (x : NodeId) :
    assignments.foldl (fun l a => (f a).foldl add l) (zero ids) x
      = if x ∈ ids then some (assignments.map fun a => (f a).count x).sum else none := by
  rw [foldl_foldl_add, zero]
  split <;> simp

end Loads

/-- The replicas that some assignments give a node. -/
def replicaCount (assignments : List ShardAssignment) (id : NodeId) : Nat :=
  (assignments.map (·.replicas.count id)).sum

theorem replicaLoads_eq (assignments : List ShardAssignment) (ids : List NodeId) (x : NodeId) :
    replicaLoads assignments ids x
      = if x ∈ ids then some (replicaCount assignments x) else none :=
  Loads.foldl_foldl_add_zero (·.replicas) assignments ids x

theorem start_load (sm : StateMachine) (x : NodeId) :
    (Pass.start sm).load x
      = if x ∈ (Tick.of sm).healthyIds then some (replicaCount sm.placement.snapshot x)
        else none := by
  simp only [Pass.start, Loads.retain, replicaLoads_eq]
  by_cases hx : x ∈ (Tick.of sm).healthyIds
  · rw [if_pos hx, if_pos hx, if_pos (Tick.healthyIds_subset sm hx)]
  · rw [if_neg hx, if_neg hx]

/-- What one shard does to the loads. -/
theorem reconcileShard_load {t : Tick} {p : Pass} {shard : ShardId}
    (h : t.held (t.replicasAt p shard) = false) (x : NodeId) :
    (reconcileShard t p shard).load x
      = (p.load x).map (fun n => n - (t.replicasAt p shard).count x
          + (t.desired p.load (t.replicasAt p shard)).count x) := by
  rw [reconcileShard_of_not_held h]
  simp only [Loads.foldl_add, Loads.foldl_sub, Option.map_map, Function.comp_def]

theorem before_succ_load (sm : StateMachine) (s : ShardId) (x : NodeId) :
    (before sm (s + 1)).load x
      = if (Tick.of sm).held (currentReplicas sm s) = true then (before sm s).load x
        else ((before sm s).load x).map (fun n => n - (currentReplicas sm s).count x
          + (nextAssignment sm s).replicas.count x) := by
  rw [before, Tick.walk_succ]
  cases hheld : (Tick.of sm).held (currentReplicas sm s) with
  | true =>
    rw [if_pos rfl, reconcileShard_of_held (by rwa [← replicasAt_before] at hheld)]
    rfl
  | false =>
    rw [if_neg (by simp), reconcileShard_load (by rwa [← replicasAt_before] at hheld)]
    rw [← replicasAt_before]
    rfl

end FiduciaBrain.Scheduler
