import FiduciaBrain.RaftDriver.History
import FiduciaBrain.RaftDriver.Snapshot

/-!
# Snapshots that lag behind their reads

Why a snapshot may be labelled with an older index than the ones at which its two halves were read:
whoever restores it and applies the log from that index on ends up where everybody else does,
whatever his registry of nodes looks like.
-/

namespace FiduciaBrain.RaftDriver

open Infra

/-- Committed commands applied in order, while heartbeats, failure detection and policies change the
soft state in between. -/
inductive Applies : StateMachine → List Command → StateMachine → Prop
  | done (sm : StateMachine) : Applies sm [] sm
  | command {sm sm' : StateMachine} {c : Command} {cs : List Command} :
      Applies (applyCommand sm c) cs sm' → Applies sm (c :: cs) sm'
  | soft {sm sm' : StateMachine} {cs : List Command} (membership : Membership)
      (policies : Std.ExtTreeMap ShardId PlacementPolicy) :
      Applies { sm with
        membership := membership
        placement := { sm.placement with policies := policies } } cs sm' →
      Applies sm cs sm'

/-- **The replicated part depends on nothing but itself.** -/
theorem Applies.replicated {sm sm' : StateMachine} {cs : List Command} (h : Applies sm cs sm') :
    sm'.replicated = (cs.map some).foldl Replicated.applyEntry sm.replicated := by
  induction h with
  | done sm => rfl
  | command _ ih =>
    rw [ih, replicated_applyCommand]
    rfl
  | soft membership policies _ ih => exact ih

/-- Commands applied without a change of the soft state in between. -/
theorem applies_foldl (cs : List Command) (sm : StateMachine) :
    Applies sm cs (cs.foldl applyCommand sm) := by
  induction cs generalizing sm with
  | nil => exact .done sm
  | cons c rest ih => exact .command (ih _)

/-- What a member is left with behind the first `n` commands is at position `n` of the log. -/
theorem rejoins_of_applies {sm sm' : StateMachine} {cs : List Command} {n : Nat}
    (hn : n ≤ cs.length) (h : Applies sm (cs.take n) sm') :
    (SlotLevel.rejoins replicatedSlots sm.replicated).level.At (cs.map some) n sm'.replicated := by
  refine SlotLevel.rejoins_at_iff.mpr ⟨by simpa using hn, ?_⟩
  rw [h.replicated, List.map_take, ← List.foldl_append, List.take_append_drop]

/-- **A snapshot may lag behind its reads.** The placement map was read behind `i` commands, the plan
behind `j`; applying the log from any `b ≤ i` on leads where the whole log leads. -/
theorem lagging_snapshot_rejoins {S : SnapshotSerde} (hS : S.Lawful) {cs : List Command}
    {b i j : Nat} (hbi : b ≤ i) (hij : i ≤ j) (hj : j ≤ cs.length)
    {start atShards atPlan other : StateMachine} {data : Bytes}
    (hshards : Applies start (cs.take i) atShards) (hplan : Applies start (cs.take j) atPlan)
    (hdata : snapshotStateMachine S atShards.placement atPlan.plan = .ok data)
    (hother : other.replicated = start.replicated) (restorer : StateMachine) :
    ∃ restored, restoreStateMachine S data restorer = .ok restored ∧
      ∀ caughtUp full, Applies restored (cs.drop b) caughtUp → Applies other cs full →
        caughtUp.placement.assignments = full.placement.assignments ∧
          caughtUp.plan = full.plan := by
  have hdecode := hS _ _ hdata
  refine ⟨_, by rw [restoreStateMachine, hdecode]; rfl, ?_⟩
  intro caughtUp full hcaught hfull
  -- both halves are at `b` or later
  have hi := SlotLevel.level_mono _ (rejoins_of_applies (hij.trans hj) hshards) hbi
  have hj' := SlotLevel.level_mono _ (rejoins_of_applies hj hplan) (hbi.trans hij)
  let torn : Replicated := ⟨.ofList atShards.placement.snapshot, atPlan.plan⟩
  have htorn : (SlotLevel.rejoins replicatedSlots start.replicated).level.At (cs.map some) b
      torn := by
    refine SlotLevel.level_mix _ hi hj' fun slot => ?_
    cases slot with
    | shard shard =>
      refine Or.inl ?_
      show (Assignments.ofList atShards.placement.assignments.snapshot).get shard = _
      rw [Assignments.ofList_snapshot]
      rfl
    | plan => exact Or.inr rfl
  have hrejoins := (SlotLevel.rejoins_at_iff.mp htorn).2
  have hsame : caughtUp.replicated = full.replicated := by
    rw [hcaught.replicated, hfull.replicated, hother, ← hrejoins, List.map_drop]
    rfl
  exact ⟨congrArg Replicated.assignments hsame, congrArg Replicated.plan hsame⟩

/-- Two plans and an assignment; the placement map is read behind the first of them, the plan behind
the last. -/
theorem lagging_snapshot_rejoins_plans :
    let cs : List Command := [.setScalePlan ⟨4, 1⟩, .assignShard ⟨0, [], none, none, none⟩,
      .setScalePlan ⟨5, 1⟩]
    let start : StateMachine := ⟨.new, .new 4, ⟨3, 3⟩⟩
    ∃ restored, restoreStateMachine jsonSnapshotSerde
        (stateSnapshotFormat.print ⟨[], ⟨5, 1⟩⟩) start = .ok restored ∧
      ((cs.drop 1).foldl applyCommand restored).placement.assignments
        = (cs.foldl applyCommand start).placement.assignments ∧
      ((cs.drop 1).foldl applyCommand restored).plan = ⟨5, 1⟩ := by
  intro cs start
  have hstart : start.replicated = start.replicated := rfl
  obtain ⟨restored, hrestored, hsame⟩ := lagging_snapshot_rejoins jsonSnapshotSerde_lawful
    (b := 1) (i := 1) (j := 3) (by decide) (by decide) (by decide)
    (applies_foldl (cs.take 1) start) (applies_foldl (cs.take 3) start) rfl hstart start
  obtain ⟨hassignments, hplan⟩ := hsame _ _ (applies_foldl _ restored) (applies_foldl cs start)
  exact ⟨restored, hrestored, hassignments, hplan⟩

end FiduciaBrain.RaftDriver
