import FiduciaBrain.Model
import Mathlib.Data.List.Sort
import Mathlib.Data.String.Basic
import Mathlib.Order.Compare
import Std.Data.ExtTreeMap

/-!
# The registry of data-plane nodes

`src/membership.rs`. The registry is leader-local soft state: heartbeats and the failure sweep write
it, an operator drains, and the committed log only ever removes a node from it.

The source keeps every record under its own `node_id`; `Membership` carries that as a field, so the
snapshot lists each id once (`Membership.snapshot_sorted`).
-/

namespace FiduciaBrain

/-- Registry of known data-plane nodes and their health. -/
@[ext] structure Membership where
  nodes : Std.ExtTreeMap NodeId NodeInfo
  keyed : ∀ (nodeId : NodeId) (info : NodeInfo), nodes[nodeId]? = some info → info.nodeId = nodeId

/-- Failure-detector timing. -/
structure MembershipConfig where
  suspectAfterMs : Nat
  deadAfterMs : Nat
  deriving DecidableEq, Repr

/-- What an external oracle believes about a node's backing pod. -/
inductive PodLiveness
  | running
  | gone
  | unknown
  deriving DecidableEq, Repr

/-! ## Failure domains -/

/-- `char::is_whitespace`: the Unicode `White_Space` property. -/
def isWhitespace (c : Char) : Bool :=
  (9 ≤ c.toNat && c.toNat ≤ 13) || c.toNat == 32 || c.toNat == 133 || c.toNat == 160 ||
    c.toNat == 5760 || (8192 ≤ c.toNat && c.toNat ≤ 8202) || c.toNat == 8232 || c.toNat == 8233 ||
    c.toNat == 8239 || c.toNat == 8287 || c.toNat == 12288

/-- `str::trim`. -/
def trim (s : String) : String :=
  String.ofList ((s.toList.dropWhile isWhitespace).reverse.dropWhile isWhitespace).reverse

/-- `str::to_ascii_lowercase`. -/
def toAsciiLowercase (s : String) : String := String.ofList (s.toList.map Char.toLower)

def normalizedFailureDomainFromParts (cloudProvider region clusterId fallback : String) : String :=
  let cloudProvider := toAsciiLowercase (trim cloudProvider)
  let region := toAsciiLowercase (trim region)
  let clusterId := toAsciiLowercase (trim clusterId)
  match cloudProvider.isEmpty, region.isEmpty, clusterId.isEmpty with
  | false, false, false => cloudProvider ++ "/" ++ region ++ "/" ++ clusterId
  | false, false, true => cloudProvider ++ "/" ++ region
  | false, true, false => cloudProvider ++ "/" ++ clusterId
  | false, true, true => cloudProvider
  | true, false, false => region ++ "/" ++ clusterId
  | true, false, true => region
  | true, true, false => clusterId
  | true, true, true => fallback

def normalizedFailureDomain (report : HeartbeatReport) : String :=
  if !(trim report.failureDomain).isEmpty then toAsciiLowercase (trim report.failureDomain)
  else normalizedFailureDomainFromParts report.cloudProvider report.region report.clusterId ""

namespace Membership

/-- The registry a brain starts with. -/
def new : Membership where
  nodes := ∅
  keyed := by simp

/-- Write a node's record. -/
def put (m : Membership) (info : NodeInfo) : Membership where
  nodes := m.nodes.insert info.nodeId info
  keyed := by
    intro nodeId x h
    rw [Std.ExtTreeMap.getElem?_insert] at h
    split at h
    · next heq =>
      cases h
      simpa using heq
    · exact m.keyed nodeId x h

/-- The record a new node starts with. -/
def newNode (nodeId : NodeId) (nowMs : Nat) (report : HeartbeatReport) : NodeInfo where
  nodeId := nodeId
  address := report.address
  health := .healthy
  cloudProvider := report.cloudProvider
  region := report.region
  clusterId := report.clusterId
  failureDomain := normalizedFailureDomain report
  lastSeenMs := nowMs
  hostedShards := []
  leadingShards := []
  lastSeq := 0

/-- What an accepted heartbeat does to a node's record. Empty fields of the report erase nothing,
and a draining node stays draining. -/
def refresh (entry : NodeInfo) (nodeId : NodeId) (nowMs : Nat) (report : HeartbeatReport) :
    NodeInfo :=
  let cloudProvider :=
    if report.cloudProvider.isEmpty then entry.cloudProvider else report.cloudProvider
  let region := if report.region.isEmpty then entry.region else report.region
  let clusterId := if report.clusterId.isEmpty then entry.clusterId else report.clusterId
  { entry with
    lastSeenMs := nowMs
    address := if report.address.isEmpty then entry.address else report.address
    cloudProvider := cloudProvider
    region := region
    clusterId := clusterId
    failureDomain :=
      if !report.failureDomain.isEmpty then normalizedFailureDomain report
      else if entry.failureDomain.isEmpty then
        normalizedFailureDomainFromParts cloudProvider region clusterId nodeId
      else entry.failureDomain
    hostedShards := report.hostedShards
    leadingShards := report.leadingShards
    lastSeq := max entry.lastSeq report.seq
    health := if entry.health ≠ .draining then .healthy else entry.health }

/-- Record a heartbeat from a node, registering it if new. A reordered or duplicated heartbeat is
ignored; `seq = 0` means that the sender does not sequence. -/
def heartbeat (m : Membership) (nodeId : NodeId) (nowMs : Nat) (report : HeartbeatReport) :
    NodeHealth × Membership :=
  match m.nodes[nodeId]? with
  | some existing =>
    if report.seq ≠ 0 ∧ report.seq ≤ existing.lastSeq then (existing.health, m)
    else
      let entry := refresh existing nodeId nowMs report
      (entry.health, m.put entry)
  | none =>
    let entry := refresh (newNode nodeId nowMs report) nodeId nowMs report
    (entry.health, m.put entry)

/-- Begin draining a node ahead of removal. Returns whether the node was known. -/
def drain (m : Membership) (nodeId : NodeId) : Bool × Membership :=
  match m.nodes[nodeId]? with
  | some info => (true, m.put { info with health := .draining })
  | none => (false, m)

/-- Drop a node from the registry entirely. Returns whether it was present. -/
def forget (m : Membership) (nodeId : NodeId) : Bool × Membership :=
  (m.nodes.contains nodeId,
    { nodes := m.nodes.erase nodeId
      keyed := by
        intro x info h
        rw [Std.ExtTreeMap.getElem?_erase] at h
        split at h
        · cases h
        · exact m.keyed x info h })

/-- All known nodes, by id. -/
def snapshot (m : Membership) : List NodeInfo := m.nodes.values

/-- The health a sweep gives a node that is not draining. A pod that is gone is dead at once, and
one that is running is not declared dead on silence alone. -/
def sweptHealth (config : MembershipConfig) (liveness : PodLiveness) (silentFor : Nat) :
    NodeHealth :=
  let byTimeout :=
    if config.deadAfterMs ≤ silentFor then NodeHealth.dead
    else if config.suspectAfterMs ≤ silentFor then .suspect
    else .healthy
  match liveness with
  | .gone => .dead
  | .running => if byTimeout = .dead then .suspect else byTimeout
  | .unknown => byTimeout

def sweepNode (config : MembershipConfig) (oracle : NodeId → PodLiveness) (nowMs : Nat)
    (info : NodeInfo) : NodeInfo :=
  if info.health = .draining then info
  else { info with health := sweptHealth config (oracle info.nodeId) (nowMs - info.lastSeenMs) }

theorem sweepNode_nodeId (config : MembershipConfig) (oracle : NodeId → PodLiveness) (nowMs : Nat)
    (info : NodeInfo) : (sweepNode config oracle nowMs info).nodeId = info.nodeId := by
  unfold sweepNode
  split <;> rfl

/-- Periodic failure sweep. Returns the nodes that are newly dead. -/
def sweep (m : Membership) (config : MembershipConfig) (oracle : NodeId → PodLiveness)
    (nowMs : Nat) : List NodeId × Membership :=
  ((m.snapshot.filter fun info =>
      (sweepNode config oracle nowMs info).health = .dead ∧ info.health ≠ .dead).map (·.nodeId),
    { nodes := m.nodes.map fun _ info => sweepNode config oracle nowMs info
      keyed := by
        intro nodeId info h
        rw [Std.ExtTreeMap.getElem?_map] at h
        obtain ⟨old, hold, rfl⟩ := Option.map_eq_some_iff.mp h
        rw [sweepNode_nodeId]
        exact m.keyed nodeId old hold })

/-! ## The snapshot lists the records by id -/

theorem snapshot_eq (m : Membership) : m.snapshot = m.nodes.toList.map Prod.snd := by
  obtain ⟨⟨⟨q⟩⟩, -⟩ := m
  induction q using Quotient.ind with
  | _ t =>
    show t.inner.values = (Std.DTreeMap.Internal.Impl.Const.toList t.inner).map Prod.snd
    rw [Std.DTreeMap.Internal.Impl.values_eq_map_snd,
      Std.DTreeMap.Internal.Impl.Const.toList_eq_toListModel_map, List.map_map]
    rfl

theorem mem_snapshot {m : Membership} {info : NodeInfo} :
    info ∈ m.snapshot ↔ m.nodes[info.nodeId]? = some info := by
  simp only [snapshot_eq, List.mem_map, Prod.exists, exists_eq_right]
  constructor
  · rintro ⟨nodeId, h⟩
    have hs : m.nodes[nodeId]? = some info := by simpa using h
    rwa [m.keyed nodeId info hs]
  · intro h
    exact ⟨info.nodeId, by simpa using h⟩

theorem snapshot_sorted (m : Membership) :
    m.snapshot.Pairwise (fun a b => a.nodeId < b.nodeId) := by
  rw [snapshot_eq]
  refine List.pairwise_map.mpr (Std.ExtTreeMap.ordered_keys_toList.imp_of_mem ?_)
  intro x y hx hy hxy
  have hkey : ∀ z ∈ m.nodes.toList, z.2.nodeId = z.1 := fun z hz =>
    m.keyed z.1 z.2 (Std.ExtTreeMap.mem_toList_iff_getElem?_eq_some.mp hz)
  rw [hkey x hx, hkey y hy]
  exact compare_lt_iff_lt.mp hxy

theorem snapshot_ids_nodup (m : Membership) : (m.snapshot.map (·.nodeId)).Nodup :=
  List.pairwise_map.mpr (m.snapshot_sorted.imp ne_of_lt)

/-- Looking an id up in the snapshot is looking it up in the registry. -/
theorem find?_snapshot (m : Membership) (nodeId : NodeId) :
    m.snapshot.find? (fun info => info.nodeId == nodeId) = m.nodes[nodeId]? := by
  cases h : m.snapshot.find? (fun info => info.nodeId == nodeId) with
  | some info =>
    have hid : info.nodeId = nodeId := by simpa using List.find?_some h
    rw [← hid]
    exact (mem_snapshot.mp (List.mem_of_find?_eq_some h)).symm
  | none =>
    symm
    cases hm : m.nodes[nodeId]? with
    | none => rfl
    | some info =>
      have hid : info.nodeId = nodeId := m.keyed nodeId info hm
      have hmem : info ∈ m.snapshot := mem_snapshot.mpr (hid ▸ hm)
      simpa [hid] using List.find?_eq_none.mp h info hmem

/-! ## What each operation does to one record -/

@[simp] theorem getElem?_put (m : Membership) (info : NodeInfo) (nodeId : NodeId) :
    (m.put info).nodes[nodeId]? = if info.nodeId = nodeId then some info else m.nodes[nodeId]? := by
  simp [put, Std.ExtTreeMap.getElem?_insert]

@[simp] theorem getElem?_forget (m : Membership) (nodeId x : NodeId) :
    (m.forget nodeId).2.nodes[x]? = if nodeId = x then none else m.nodes[x]? := by
  simp [forget, Std.ExtTreeMap.getElem?_erase]

@[simp] theorem getElem?_sweep (m : Membership) (config : MembershipConfig)
    (oracle : NodeId → PodLiveness) (nowMs : Nat) (nodeId : NodeId) :
    (m.sweep config oracle nowMs).2.nodes[nodeId]?
      = m.nodes[nodeId]?.map (sweepNode config oracle nowMs) := by
  simp [sweep, Std.ExtTreeMap.getElem?_map]

theorem getElem?_drain (m : Membership) (nodeId x : NodeId) :
    (m.drain nodeId).2.nodes[x]?
      = if nodeId = x then m.nodes[x]?.map (fun info => { info with health := .draining })
        else m.nodes[x]? := by
  unfold drain
  by_cases heq : nodeId = x
  · subst heq
    cases h : m.nodes[nodeId]? with
    | none => simp [h]
    | some info =>
      have hid : info.nodeId = nodeId := m.keyed nodeId info h
      simp [hid]
  · rw [if_neg heq]
    cases h : m.nodes[nodeId]? with
    | none => rfl
    | some info =>
      have hid : info.nodeId = nodeId := m.keyed nodeId info h
      simp [hid, heq]

theorem getElem?_heartbeat_of_ne (m : Membership) {nodeId x : NodeId} (nowMs : Nat)
    (report : HeartbeatReport) (hne : nodeId ≠ x) :
    (m.heartbeat nodeId nowMs report).2.nodes[x]? = m.nodes[x]? := by
  unfold heartbeat
  split
  · next existing h =>
    have hid : existing.nodeId = nodeId := m.keyed nodeId existing h
    split
    · rfl
    · simp [refresh, hid, hne]
  · simp [refresh, newNode, hne]

/-- After a heartbeat the sender is known, with the record it had (the report was stale) or with one
that the report refreshed. -/
theorem getElem?_heartbeat_self (m : Membership) (nodeId : NodeId) (nowMs : Nat)
    (report : HeartbeatReport) :
    ((m.heartbeat nodeId nowMs report).2 = m ∧ ∃ existing, m.nodes[nodeId]? = some existing) ∨
      ∃ entry, entry = (m.nodes[nodeId]?).getD (newNode nodeId nowMs report) ∧
        (m.heartbeat nodeId nowMs report).2.nodes[nodeId]?
          = some (refresh entry nodeId nowMs report) := by
  unfold heartbeat
  cases h : m.nodes[nodeId]? with
  | some existing =>
    have hid : existing.nodeId = nodeId := m.keyed nodeId existing h
    by_cases hstale : report.seq ≠ 0 ∧ report.seq ≤ existing.lastSeq
    · left
      simp only [if_pos hstale, true_and]
      exact ⟨existing, rfl⟩
    · right
      simp only [if_neg hstale]
      exact ⟨existing, rfl, by simp [refresh, hid]⟩
  | none => exact .inr ⟨newNode nodeId nowMs report, rfl, by simp [refresh, newNode]⟩

end Membership

end FiduciaBrain
