import FiduciaBrain.RaftStore.Json
import FiduciaBrain.Cluster

/-!
# Snapshots of the state machine

`StateSnapshot` of `src/raft_driver.rs` and the two functions that take it and put it back. Its
serializer is a parameter, as the store's is; `jsonSnapshotSerde` is the concrete one.
-/

namespace FiduciaBrain.RaftDriver

open Infra RaftStore

/-- The replicated state machine, serialized for a Raft snapshot. -/
structure StateSnapshot where
  shards : List ShardAssignment
  plan : ScalePlan
  deriving DecidableEq, Repr

/-- `serde_json` on a `StateSnapshot`. -/
structure SnapshotSerde where
  encode : StateSnapshot → Except String Bytes
  decode : Bytes → Except String StateSnapshot

/-- A snapshot is read back as it was written. -/
def SnapshotSerde.Lawful (S : SnapshotSerde) : Prop :=
  ∀ snapshot data, S.encode snapshot = .ok data → S.decode data = .ok snapshot

/-- The replicated state that a snapshot restores. -/
def StateSnapshot.replicated (snapshot : StateSnapshot) : Replicated where
  assignments := .ofList snapshot.shards
  plan := snapshot.plan

/-- Serialize what was read of the placement map and of the plan. -/
def snapshotStateMachine (S : SnapshotSerde) (placement : Placement) (plan : ScalePlan) :
    Except String Bytes :=
  S.encode { shards := placement.snapshot, plan := plan }

/-- Replace the replicated state by that of a snapshot. -/
def restoreStateMachine (S : SnapshotSerde) (data : Bytes) (sm : StateMachine) :
    Except String StateMachine := do
  let snapshot ← S.decode data
  return { sm with
    placement := sm.placement.restoreFrom snapshot.shards
    plan := snapshot.plan }

/-! ## JSON -/

def stateSnapshotFormat : Format UInt8 StateSnapshot :=
  ((Format.after (utf8 "\x7b\"shards\":") (array assignmentFormat (fun a s t => by
      have hprint : ∃ more, assignmentFormat.print a = utf8 "\x7b\"shard_id\":" ++ more :=
        ⟨_, List.append_assoc _ _ _⟩
      obtain ⟨more, hmore⟩ := hprint
      rw [hmore, List.append_assoc]
      exact Format.append_ne_append (by decide +kernel) (by decide +kernel) _ _))).pair
      ((Format.after (utf8 ",\"plan\":") scalePlanFormat).before (utf8 "\x7d"))).conv
    (fun x => some ⟨x.1, x.2⟩) (fun snapshot => (snapshot.shards, snapshot.plan))
    (fun _ => rfl) (by rintro ⟨_, _⟩ b h; cases h; rfl)

def jsonSnapshotSerde : SnapshotSerde where
  encode snapshot := .ok (stateSnapshotFormat.print snapshot)
  decode := decodeWith stateSnapshotFormat

theorem jsonSnapshotSerde_lawful : jsonSnapshotSerde.Lawful := by
  intro snapshot data h
  cases h
  exact decodeWith_print stateSnapshotFormat snapshot

end FiduciaBrain.RaftDriver
