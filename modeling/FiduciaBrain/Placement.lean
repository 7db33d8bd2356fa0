import FiduciaBrain.Model
import Std.Data.ExtTreeMap

/-!
# The shard placement map

`src/placement.rs`. The source keeps every assignment under its own `shard_id`; `Assignments`
carries that as a field, so a snapshot determines the map it was taken from
(`Assignments.ofList_snapshot`).
-/

namespace FiduciaBrain

/-- The shard → assignment map. -/
structure Assignments where
  map : Std.ExtTreeMap ShardId ShardAssignment
  keyed : ∀ (shard : ShardId) (a : ShardAssignment), map[shard]? = some a → a.shardId = shard

namespace Assignments

def empty : Assignments where
  map := ∅
  keyed := by simp

def get (m : Assignments) (shard : ShardId) : Option ShardAssignment := m.map[shard]?

def insert (m : Assignments) (a : ShardAssignment) : Assignments where
  map := m.map.insert a.shardId a
  keyed := by
    intro shard b h
    rw [Std.ExtTreeMap.getElem?_insert] at h
    split at h
    · next heq =>
      cases h
      simpa using heq
    · exact m.keyed shard b h

/-- All assignments, sorted by shard id. -/
def snapshot (m : Assignments) : List ShardAssignment := m.map.toList.map Prod.snd

def ofList (l : List ShardAssignment) : Assignments := l.foldl insert empty

@[ext] theorem ext {m m' : Assignments} (h : ∀ shard, m.get shard = m'.get shard) : m = m' := by
  have hmap : m.map = m'.map := Std.ExtTreeMap.ext_getElem? (fun {k} => h k)
  cases m
  cases m'
  simp_all

@[simp] theorem get_empty (shard : ShardId) : empty.get shard = none := by simp [get, empty]

@[simp] theorem get_insert (m : Assignments) (a : ShardAssignment) (shard : ShardId) :
    (m.insert a).get shard = if a.shardId = shard then some a else m.get shard := by
  simp [get, insert, Std.ExtTreeMap.getElem?_insert]

theorem mem_snapshot {m : Assignments} {a : ShardAssignment} :
    a ∈ m.snapshot ↔ m.get a.shardId = some a := by
  simp only [snapshot, List.mem_map, Prod.exists, exists_eq_right, get]
  constructor
  · rintro ⟨shard, h⟩
    have hs : m.map[shard]? = some a := by simpa using h
    rwa [m.keyed shard a hs]
  · intro h
    exact ⟨a.shardId, by simpa using h⟩

theorem snapshot_distinct (m : Assignments) :
    m.snapshot.Pairwise (fun a b => a.shardId ≠ b.shardId) := by
  refine List.pairwise_map.mpr (m.map.distinct_keys_toList.imp_of_mem ?_)
  intro x y hx hy hxy heq
  have hkey : ∀ z ∈ m.map.toList, z.2.shardId = z.1 := fun z hz =>
    m.keyed z.1 z.2 (Std.ExtTreeMap.mem_toList_iff_getElem?_eq_some.mp hz)
  rw [hkey x hx, hkey y hy] at heq
  exact hxy (by simpa using heq)

theorem get_foldl_insert_of_notMem {l : List ShardAssignment} {shard : ShardId}
    (h : ∀ a ∈ l, a.shardId ≠ shard) (m : Assignments) :
    (l.foldl insert m).get shard = m.get shard := by
  induction l generalizing m with
  | nil => rfl
  | cons a rest ih =>
    rw [List.foldl_cons, ih (fun b hb => h b (List.mem_cons_of_mem _ hb)), get_insert,
      if_neg (h a List.mem_cons_self)]

theorem get_foldl_insert_of_mem {l : List ShardAssignment} {a : ShardAssignment}
    (hl : l.Pairwise (fun a b => a.shardId ≠ b.shardId)) (ha : a ∈ l) (m : Assignments) :
    (l.foldl insert m).get a.shardId = some a := by
  induction l generalizing m with
  | nil => cases ha
  | cons b rest ih =>
    obtain ⟨hb, hrest⟩ := List.pairwise_cons.mp hl
    rw [List.foldl_cons]
    rcases List.mem_cons.mp ha with rfl | ha
    · rw [get_foldl_insert_of_notMem (fun c hc => (hb c hc).symm), get_insert, if_pos rfl]
    · exact ih hrest ha _

/-- **A snapshot determines the map it was taken from.** -/
theorem ofList_snapshot (m : Assignments) : ofList m.snapshot = m := by
  ext1 shard
  cases h : m.get shard with
  | some a =>
    have hkey : a.shardId = shard := m.keyed shard a h
    subst hkey
    exact get_foldl_insert_of_mem m.snapshot_distinct (mem_snapshot.mpr h) _
  | none =>
    rw [ofList, get_foldl_insert_of_notMem, get_empty]
    rintro a ha rfl
    rw [mem_snapshot.mp ha] at h
    cases h

end Assignments

/-- The cluster-wide shard → replicas/leader map. -/
structure Placement where
  shardCount : Nat
  generation : Nat
  assignments : Assignments
  policies : Std.ExtTreeMap ShardId PlacementPolicy

namespace Placement

def new (shardCount : Nat) : Placement where
  shardCount := shardCount
  generation := 0
  assignments := .empty
  policies := ∅

def get (p : Placement) (shard : ShardId) : Option ShardAssignment := p.assignments.get shard

/-- The full shard map, as served to data-plane nodes. -/
def snapshot (p : Placement) : List ShardAssignment := p.assignments.snapshot

/-- Current placement policy for one shard, if an operator has set one. -/
def policy (p : Placement) (shard : ShardId) : Option PlacementPolicy := p.policies[shard]?

/-- Set or replace a namespace placement policy for the shard it hashes to. -/
def setPolicy (p : Placement) (policy : PlacementPolicy) : Placement :=
  { p with policies := p.policies.insert policy.shardId policy }

/-- The first half of `assign`: the entry, under the lock. -/
def insert (p : Placement) (assignment : ShardAssignment) : Placement :=
  { p with assignments := p.assignments.insert assignment }

/-- The second half of `assign`: the version, behind the lock. -/
def bump (p : Placement) : Placement := { p with generation := p.generation + 1 }

/-- Install a new assignment for a shard. -/
def assign (p : Placement) (assignment : ShardAssignment) : Placement :=
  { p with
    assignments := p.assignments.insert assignment
    generation := p.generation + 1 }

theorem assign_eq (p : Placement) (assignment : ShardAssignment) :
    p.assign assignment = (p.insert assignment).bump := rfl

/-- Replace the whole placement map at once. -/
def restoreFrom (p : Placement) (assignments : List ShardAssignment) : Placement :=
  { p with
    assignments := .ofList assignments
    generation := p.generation + 1 }

end Placement

end FiduciaBrain
