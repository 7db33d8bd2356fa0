import FiduciaBrain.Membership.Run
import FiduciaBrain.Raft.Types

/-!
# The registry refines the reference detector

`tests/formal_membership_refinement.rs` checks the registry against a transition system for a single
node, up to a depth and with fixed thresholds. `Reference` is that transition system with the
thresholds of any configuration and with a report where the test has the number of one of its three
reports. `refines_reference` follows it for every node of the registry over any run.
-/

namespace FiduciaBrain

/-- The single-node reference transition system. -/
structure Reference where
  nowMs : Nat
  lastSeenMs : Nat
  health : NodeHealth
  oracle : PodLiveness
  lastSeq : Nat
  report : HeartbeatReport
  everDraining : Bool

namespace Reference

inductive Action
  | heartbeat (seq : Nat) (report : HeartbeatReport)
  | sweep
  | advanceToSuspect
  | advanceToDead
  | oracleAndSweep (verdict : PodLiveness)
  | drain

inductive Outcome
  | heartbeat (health : NodeHealth)
  | sweep (newlyDead : Bool)
  | drain (known : Bool)
  deriving DecidableEq

def initial (report : HeartbeatReport) : Reference where
  nowMs := 0
  lastSeenMs := 0
  health := .healthy
  oracle := .unknown
  lastSeq := 0
  report := report
  everDraining := false

def heartbeat (s : Reference) (seq : Nat) (report : HeartbeatReport) : Reference × Outcome :=
  if seq ≠ 0 ∧ seq ≤ s.lastSeq then (s, .heartbeat s.health)
  else
    let health := if s.health ≠ .draining then .healthy else s.health
    ({ s with
        lastSeenMs := s.nowMs
        lastSeq := max s.lastSeq seq
        report := report
        health := health },
      .heartbeat health)

def sweep (config : MembershipConfig) (s : Reference) : Reference × Outcome :=
  let old := s.health
  let health :=
    if old = .draining then .draining
    else
      let silentFor := s.nowMs - s.lastSeenMs
      let byTimeout :=
        if config.deadAfterMs ≤ silentFor then NodeHealth.dead
        else if config.suspectAfterMs ≤ silentFor then .suspect
        else .healthy
      match s.oracle with
      | .gone => .dead
      | .running => if byTimeout = .dead then .suspect else byTimeout
      | .unknown => byTimeout
  ({ s with health := health }, .sweep (health = .dead ∧ old ≠ .dead))

def apply (config : MembershipConfig) (s : Reference) : Action → Reference × Outcome
  | .heartbeat seq report => s.heartbeat seq report
  | .sweep => s.sweep config
  | .advanceToSuspect =>
    sweep config
      { s with nowMs := max s.nowMs (saturatingAdd s.lastSeenMs config.suspectAfterMs) }
  | .advanceToDead =>
    sweep config { s with nowMs := max s.nowMs (saturatingAdd s.lastSeenMs config.deadAfterMs) }
  | .oracleAndSweep verdict => sweep config { s with oracle := verdict }
  | .drain => ({ s with health := .draining, everDraining := true }, .drain true)

/-- The action at the clock reading of an event. -/
def applyAt (config : MembershipConfig) (s : Reference) (nowMs : Nat) (a : Action) : Reference :=
  (apply config { s with nowMs := nowMs } a).1

/-- The action a registry event of the node stands for, with its clock reading. A node that is
unknown is started by a heartbeat and by nothing else. -/
def follow (config : MembershipConfig) (nodeId : NodeId) :
    Option Reference → Membership.Event → Option Reference
  | none, .heartbeat _ nowMs report =>
    some ((initial report).applyAt config nowMs (.heartbeat report.seq report))
  | none, _ => none
  | some s, .heartbeat _ nowMs report => some (s.applyAt config nowMs (.heartbeat report.seq report))
  | some s, .sweep oracle nowMs => some (s.applyAt config nowMs (.oracleAndSweep (oracle nodeId)))
  | some s, .drain _ => some (s.apply config .drain).1
  | some _, .forget _ => none

/-- The reference over the events of one node, unknown at first. -/
def run (config : MembershipConfig) (nodeId : NodeId) (events : List Membership.Event) :
    Option Reference :=
  events.foldl (follow config nodeId) none

end Reference

/-- What the reference determines of a record. A report that leaves the address or the domain blank
erases neither, so these are not in it. -/
structure Projection where
  health : NodeHealth
  lastSeenMs : Nat
  lastSeq : Nat
  hostedShards : List ShardId
  leadingShards : List ShardId
  deriving DecidableEq, Repr

namespace Projection

def fromReference (s : Reference) : Projection where
  health := s.health
  lastSeenMs := s.lastSeenMs
  lastSeq := s.lastSeq
  hostedShards := s.report.hostedShards
  leadingShards := s.report.leadingShards

def fromRecord (info : NodeInfo) : Projection where
  health := info.health
  lastSeenMs := info.lastSeenMs
  lastSeq := info.lastSeq
  hostedShards := info.hostedShards
  leadingShards := info.leadingShards

end Projection

open FiduciaBrain.Membership Projection

variable {config : MembershipConfig} {nodeId : NodeId}

/-! ## One event -/

theorem applyAt_heartbeat_of_stale {s : Reference} {nowMs : Nat} {report : HeartbeatReport}
    (h : Stale report s.lastSeq) :
    s.applyAt config nowMs (.heartbeat report.seq report) = { s with nowMs := nowMs } :=
  congrArg Prod.fst (if_pos h)

theorem applyAt_heartbeat_of_fresh {s : Reference} {nowMs : Nat} {report : HeartbeatReport}
    (h : ¬ Stale report s.lastSeq) :
    s.applyAt config nowMs (.heartbeat report.seq report) =
      { s with
        nowMs := nowMs
        lastSeenMs := nowMs
        lastSeq := max s.lastSeq report.seq
        report := report
        health := if s.health ≠ .draining then .healthy else s.health } :=
  congrArg Prod.fst (if_neg h)

theorem not_stale_zero (report : HeartbeatReport) : ¬ Stale report 0 :=
  fun h => h.1 (Nat.le_zero.mp h.2)

/-- The first heartbeat starts the reference where it starts the record. -/
theorem fromRecord_heard_none (nowMs : Nat) (report : HeartbeatReport) :
    fromRecord (heard nodeId nowMs report none)
      = fromReference
          ((Reference.initial report).applyAt config nowMs (.heartbeat report.seq report)) := by
  rw [applyAt_heartbeat_of_fresh (not_stale_zero report)]
  rfl

theorem fromRecord_heard {entry : NodeInfo} {s : Reference} {nowMs : Nat}
    {report : HeartbeatReport} (h : fromRecord entry = fromReference s) :
    fromRecord (heard nodeId nowMs report (some entry))
      = fromReference (s.applyAt config nowMs (.heartbeat report.seq report)) := by
  have hhealth : entry.health = s.health := congrArg Projection.health h
  have hseq : entry.lastSeq = s.lastSeq := congrArg Projection.lastSeq h
  by_cases hstale : Stale report entry.lastSeq
  · rw [heard_of_stale hstale, applyAt_heartbeat_of_stale (hseq ▸ hstale)]
    exact h
  · rw [heard_of_fresh hstale, applyAt_heartbeat_of_fresh (hseq ▸ hstale)]
    simp only [fromRecord, fromReference, refresh, hhealth, hseq]

theorem fromRecord_sweepNode {entry : NodeInfo} {s : Reference} {nowMs : Nat}
    {oracle : NodeId → PodLiveness} (hid : entry.nodeId = nodeId)
    (h : fromRecord entry = fromReference s) :
    fromRecord (sweepNode config oracle nowMs entry)
      = fromReference (s.applyAt config nowMs (.oracleAndSweep (oracle nodeId))) := by
  simp only [fromRecord, fromReference, Projection.mk.injEq] at h
  obtain ⟨hhealth, hseen, hseq, hhosted, hleading⟩ := h
  simp only [Reference.applyAt, Reference.apply, Reference.sweep, ← hhealth, ← hseen]
  unfold sweepNode
  split
  · -- the registry returns early on a draining node, the reference keeps its health
    next hd => simp only [fromRecord, fromReference, hd, hseen, hseq, hhosted, hleading]
  · simp only [fromRecord, fromReference, hid, hseen, hseq, hhosted, hleading]
    rfl

/-- **One event of a node keeps the record on the reference.** -/
theorem fromRecord_recordStep {record : Option NodeInfo} {s : Option Reference}
    (hid : ∀ info, record = some info → info.nodeId = nodeId)
    (h : record.map fromRecord = s.map fromReference) (e : Event) :
    (recordStep config nodeId record e).map fromRecord
      = (Reference.follow config nodeId s e).map fromReference := by
  cases record with
  | none =>
    cases s with
    | some s => simp at h
    | none =>
      cases e with
      | heartbeat id nowMs report => exact congrArg some (fromRecord_heard_none nowMs report)
      | sweep oracle nowMs => rfl
      | drain id => rfl
      | forget id => rfl
  | some entry =>
    cases s with
    | none => simp at h
    | some s =>
      have h : fromRecord entry = fromReference s := by simpa using h
      cases e with
      | heartbeat id nowMs report => exact congrArg some (fromRecord_heard h)
      | sweep oracle nowMs => exact congrArg some (fromRecord_sweepNode (hid entry rfl) h)
      | drain id =>
        simp only [fromRecord, fromReference, Projection.mk.injEq] at h
        simp [recordStep, Reference.follow, Reference.apply, fromRecord, fromReference, h]
      | forget id => rfl

/-! ## Runs -/

/-- **A run keeps every record on its reference.** -/
theorem fromRecord_run {m : FiduciaBrain.Membership} {s : Option Reference} (events : List Event)
    (h : m.nodes[nodeId]?.map fromRecord = s.map fromReference) :
    (m.run config events).nodes[nodeId]?.map fromRecord
      = ((events.filter (·.concerns nodeId)).foldl (Reference.follow config nodeId) s).map
          fromReference := by
  induction events generalizing m s with
  | nil => exact h
  | cons e rest ih =>
    have hstep := @getElem?_apply config nodeId m e
    cases hc : e.concerns nodeId with
    | true =>
      rw [List.filter_cons_of_pos hc, List.foldl_cons]
      rw [if_pos hc] at hstep
      refine ih (m := m.apply config e) ?_
      rw [hstep]
      exact fromRecord_recordStep (m.keyed nodeId) h e
    | false =>
      rw [List.filter_cons_of_neg (by simp [hc])]
      rw [if_neg (by simp [hc])] at hstep
      refine ih (m := m.apply config e) ?_
      rw [hstep]
      exact h

/-! ## What a sweep returns -/

theorem mem_sweep {m : FiduciaBrain.Membership} {oracle : NodeId → PodLiveness} {nowMs : Nat} :
    nodeId ∈ (m.sweep config oracle nowMs).1 ↔
      ∃ old new, m.nodes[nodeId]? = some old ∧
        (m.sweep config oracle nowMs).2.nodes[nodeId]? = some new ∧
        old.health ≠ .dead ∧ new.health = .dead := by
  rw [getElem?_sweep]
  simp only [sweep, List.mem_map, List.mem_filter, decide_eq_true_eq, mem_snapshot]
  constructor
  · rintro ⟨old, ⟨hget, hnew, hold⟩, rfl⟩
    exact ⟨old, _, hget, by rw [hget]; rfl, hold, hnew⟩
  · rintro ⟨old, new, hget, hswept, hold, hnew⟩
    have hid : old.nodeId = nodeId := m.keyed nodeId old hget
    rw [hget, Option.map_some, Option.some_inj] at hswept
    exact ⟨old, ⟨hid ▸ hget, hswept ▸ hnew, hold⟩, hid⟩

theorem nodup_sweep (m : FiduciaBrain.Membership) (oracle : NodeId → PodLiveness) (nowMs : Nat) :
    (m.sweep config oracle nowMs).1.Nodup :=
  m.snapshot_ids_nodup.sublist (List.filter_sublist.map _)

/-- **The registry refines the reference detector, node by node**: after any run the record of a
node is what the reference reaches on the events of that node, a sweep returns exactly the nodes it
turned dead, and an event of one node changes no record of another. -/
theorem refines_reference (config : MembershipConfig) (events : List Event) :
    let m := FiduciaBrain.Membership.new.run config events
    (∀ nodeId, m.nodes[nodeId]?.map fromRecord
      = (Reference.run config nodeId (events.filter (·.concerns nodeId))).map fromReference) ∧
    (∀ oracle nowMs, (m.sweep config oracle nowMs).1.Nodup ∧
      ∀ nodeId, nodeId ∈ (m.sweep config oracle nowMs).1 ↔
        ∃ old new, m.nodes[nodeId]? = some old ∧
          (m.sweep config oracle nowMs).2.nodes[nodeId]? = some new ∧
          old.health ≠ .dead ∧ new.health = .dead) ∧
    ∀ nodeId e, e.concerns nodeId = false →
      (m.apply config e).nodes[nodeId]? = m.nodes[nodeId]? := by
  intro m
  refine ⟨fun nodeId => ?_, fun oracle nowMs => ⟨nodup_sweep m oracle nowMs, fun _ => mem_sweep⟩,
    fun nodeId e he => getElem?_apply_of_not_concerns m he⟩
  exact fromRecord_run events (by simp [Membership.new])

end FiduciaBrain
