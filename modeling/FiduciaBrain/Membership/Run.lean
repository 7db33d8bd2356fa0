import FiduciaBrain.Membership

/-!
# The registry over a run

Every write to the registry as an event, and what a run of events makes of one node's record. The
records do not touch each other: `getElem?_apply` says that the registry steps record by record, and
`getElem?_run` that a node's record is its own events replayed.
-/

namespace FiduciaBrain.Membership

/-- A call that writes the registry. The oracle's answers are those of that sweep. -/
inductive Event
  | heartbeat (nodeId : NodeId) (nowMs : Nat) (report : HeartbeatReport)
  | sweep (oracle : NodeId → PodLiveness) (nowMs : Nat)
  | drain (nodeId : NodeId)
  | forget (nodeId : NodeId)

def apply (config : MembershipConfig) (m : Membership) : Event → Membership
  | .heartbeat nodeId nowMs report => (m.heartbeat nodeId nowMs report).2
  | .sweep oracle nowMs => (m.sweep config oracle nowMs).2
  | .drain nodeId => (m.drain nodeId).2
  | .forget nodeId => (m.forget nodeId).2

def run (config : MembershipConfig) (m : Membership) (events : List Event) : Membership :=
  events.foldl (apply config) m

/-- The event concerns the node: it names the node, or it is a sweep. -/
def Event.concerns (nodeId : NodeId) : Event → Bool
  | .heartbeat id _ _ => id = nodeId
  | .sweep _ _ => true
  | .drain id => id = nodeId
  | .forget id => id = nodeId

/-! ## One record -/

/-- The report is a reordered or duplicated delivery for a record of that `lastSeq`. -/
def Stale (report : HeartbeatReport) (lastSeq : Nat) : Prop :=
  report.seq ≠ 0 ∧ report.seq ≤ lastSeq

instance (report : HeartbeatReport) (lastSeq : Nat) : Decidable (Stale report lastSeq) :=
  instDecidableAnd

/-- The record that a heartbeat of the node leaves. -/
def heard (nodeId : NodeId) (nowMs : Nat) (report : HeartbeatReport) : Option NodeInfo → NodeInfo
  | none => refresh (newNode nodeId nowMs report) nodeId nowMs report
  | some existing =>
    if Stale report existing.lastSeq then existing else refresh existing nodeId nowMs report

/-- What an event that concerns the node does to its record. -/
def recordStep (config : MembershipConfig) (nodeId : NodeId) (record : Option NodeInfo) :
    Event → Option NodeInfo
  | .heartbeat _ nowMs report => some (heard nodeId nowMs report record)
  | .sweep oracle nowMs => record.map (sweepNode config oracle nowMs)
  | .drain _ => record.map fun info => { info with health := .draining }
  | .forget _ => none

variable {config : MembershipConfig} {nodeId : NodeId}

theorem heard_of_stale {nowMs : Nat} {report : HeartbeatReport} {existing : NodeInfo}
    (h : Stale report existing.lastSeq) : heard nodeId nowMs report (some existing) = existing :=
  if_pos h

theorem heard_of_fresh {nowMs : Nat} {report : HeartbeatReport} {existing : NodeInfo}
    (h : ¬ Stale report existing.lastSeq) :
    heard nodeId nowMs report (some existing) = refresh existing nodeId nowMs report :=
  if_neg h

@[simp] theorem refresh_nodeId (entry : NodeInfo) (nodeId : NodeId) (nowMs : Nat)
    (report : HeartbeatReport) : (refresh entry nodeId nowMs report).nodeId = entry.nodeId := rfl

theorem heartbeat_eq (m : Membership) (nodeId : NodeId) (nowMs : Nat) (report : HeartbeatReport) :
    (m.heartbeat nodeId nowMs report).1 = (heard nodeId nowMs report m.nodes[nodeId]?).health ∧
      (m.heartbeat nodeId nowMs report).2.nodes[nodeId]?
        = some (heard nodeId nowMs report m.nodes[nodeId]?) := by
  unfold heartbeat
  cases h : m.nodes[nodeId]? with
  | none => simp [heard, newNode]
  | some existing =>
    have hid : existing.nodeId = nodeId := m.keyed nodeId existing h
    by_cases hstale : Stale report existing.lastSeq
    · rw [heard_of_stale hstale]
      unfold Stale at hstale
      simp only [if_pos hstale, true_and]
      exact h
    · rw [heard_of_fresh hstale]
      unfold Stale at hstale
      simp only [if_neg hstale, true_and]
      simp [hid]

/-- **The registry steps record by record.** -/
theorem getElem?_apply (m : Membership) (e : Event) :
    (m.apply config e).nodes[nodeId]? =
      if e.concerns nodeId then recordStep config nodeId m.nodes[nodeId]? e
      else m.nodes[nodeId]? := by
  cases e with
  | heartbeat id nowMs report =>
    by_cases heq : id = nodeId
    · subst heq
      simpa [apply, Event.concerns, recordStep] using (heartbeat_eq m id nowMs report).2
    · simpa [apply, Event.concerns, heq] using getElem?_heartbeat_of_ne m nowMs report heq
  | sweep oracle nowMs => exact getElem?_sweep m config oracle nowMs nodeId
  | drain id => simp [apply, Event.concerns, recordStep, getElem?_drain]
  | forget id => simp [apply, Event.concerns, recordStep]

/-- An event of another node leaves the record as it is. -/
theorem getElem?_apply_of_not_concerns (m : Membership) {e : Event}
    (h : e.concerns nodeId = false) : (m.apply config e).nodes[nodeId]? = m.nodes[nodeId]? := by
  rw [getElem?_apply, if_neg (by simp [h])]

/-- **A node's record after a run is its own events replayed.** -/
theorem getElem?_run (m : Membership) (events : List Event) :
    (m.run config events).nodes[nodeId]? =
      (events.filter (·.concerns nodeId)).foldl (recordStep config nodeId) m.nodes[nodeId]? := by
  rw [List.foldl_filter]
  exact (List.foldl_hom (fun m : Membership => m.nodes[nodeId]?)
    (fun m e => (getElem?_apply m e).symm)).symm

end FiduciaBrain.Membership
