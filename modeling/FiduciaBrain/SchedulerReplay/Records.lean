import FiduciaBrain.Scheduler.Walk
import FiduciaBrain.SchedulerReplay.Harness
import FiduciaBrain.SchedulerReplay.Shapes

/-!
# The brain behind a shape

A shape determines the brain that the harness has built, but for the clock reading of one heartbeat
(`Shape.harness`). The registry is written as the table of its four records (`membershipOf`), which
says how each call of the registry rewrites it.
-/

namespace FiduciaBrain.SchedulerReplay

open Scheduler

/-! ## Records -/

/-- The record of a node after a report of its own. -/
def record (node : Nat) (health : NodeHealth) (hosts leads : Bool) (seen : Nat) : NodeInfo :=
  let r := report node hosts leads
  { nodeId := nodeId node
    address := r.address
    health := health
    cloudProvider := r.cloudProvider
    region := r.region
    clusterId := r.clusterId
    failureDomain := r.failureDomain
    lastSeenMs := seen
    hostedShards := r.hostedShards
    leadingShards := r.leadingShards
    lastSeq := 0 }

/-- A report without blank fields, whose domain is normalized. -/
structure Complete (r : HeartbeatReport) : Prop where
  address : r.address.isEmpty = false
  cloudProvider : r.cloudProvider.isEmpty = false
  region : r.region.isEmpty = false
  clusterId : r.clusterId.isEmpty = false
  failureDomain : r.failureDomain.isEmpty = false
  normalized : normalizedFailureDomain r = r.failureDomain

variable {node : Nat}

theorem complete_report (hn : node ∈ nodes) (hosts leads : Bool) :
    Complete (report node hosts leads) := by
  have h : ∀ node ∈ nodes, ∀ hosts leads,
      (report node hosts leads).address.isEmpty = false ∧
        (report node hosts leads).cloudProvider.isEmpty = false ∧
        (report node hosts leads).region.isEmpty = false ∧
        (report node hosts leads).clusterId.isEmpty = false ∧
        (report node hosts leads).failureDomain.isEmpty = false ∧
        normalizedFailureDomain (report node hosts leads)
          = (report node hosts leads).failureDomain := by
    decide
  obtain ⟨h1, h2, h3, h4, h5, h6⟩ := h node hn hosts leads
  exact ⟨h1, h2, h3, h4, h5, h6⟩

theorem refresh_record (hn : node ∈ nodes) (health : NodeHealth) (hosts leads hosts' leads' : Bool)
    (seen now : Nat) :
    Membership.refresh (record node health hosts leads seen) (nodeId node) now
        (report node hosts' leads')
      = record node (if health ≠ .draining then .healthy else health) hosts' leads' now := by
  have h := complete_report hn hosts' leads'
  simp only [Membership.refresh, h.address, h.cloudProvider, h.region, h.clusterId,
    h.failureDomain, h.normalized]
  rfl

theorem newNode_record (hn : node ∈ nodes) (hosts leads : Bool) (now : Nat) :
    Membership.newNode (nodeId node) now (report node hosts leads)
      = record node .healthy false false now := by
  have h := complete_report hn hosts leads
  simp only [Membership.newNode, h.normalized]
  rfl

/-! ## The registry as a table -/

theorem mem_nodes : node ∈ nodes ↔ node = 1 ∨ node = 2 ∨ node = 3 ∨ node = 4 := by
  simp [nodes]

theorem nodeNumber_eq_some (hn : node ∈ nodes) {id : NodeId} :
    nodeNumber id = some node ↔ nodeId node = id := by
  rcases mem_nodes.mp hn with rfl | rfl | rfl | rfl <;>
    simp only [nodeNumber, nodeId, nodeA, nodeB, nodeC, nodeD] <;> grind

theorem mem_nodes_of_nodeNumber {id : NodeId} (h : nodeNumber id = some node) : node ∈ nodes := by
  simp only [nodeNumber] at h
  rw [mem_nodes]
  grind

/-- The registry with the records of a table. -/
def membershipOf (table : Nat → Option NodeInfo) : Membership :=
  [1, 2, 3, 4].foldl (fun m node => (table node).elim m m.put) .new

/-- Each record is under its own id. -/
def Keyed (table : Nat → Option NodeInfo) : Prop :=
  ∀ node info, table node = some info → info.nodeId = nodeId node

section Table

variable {table : Nat → Option NodeInfo}

theorem table_ext {table' : Nat → Option NodeInfo} (hA : table 1 = table' 1)
    (hB : table 2 = table' 2) (hC : table 3 = table' 3) (hD : table 4 = table' 4)
    (hzero : table 0 = table' 0) (hrest : ∀ n, table (n + 5) = table' (n + 5)) :
    table = table' := by
  funext node
  match node with
  | 0 => exact hzero
  | 1 => exact hA
  | 2 => exact hB
  | 3 => exact hC
  | 4 => exact hD
  | n + 5 => exact hrest n

theorem getElem?_elim_put (h : Keyed table) (m : Membership) (node : Nat) (id : NodeId) :
    ((table node).elim m m.put).nodes[id]?
      = if nodeId node = id then (table node).or m.nodes[id]? else m.nodes[id]? := by
  cases ht : table node with
  | none => simp
  | some info => simp [h node info ht]

theorem getElem?_membershipOf (h : Keyed table) (id : NodeId) :
    (membershipOf table).nodes[id]? = (nodeNumber id).bind table := by
  simp only [membershipOf, List.foldl_cons, List.foldl_nil, getElem?_elim_put h]
  have hnew : (Membership.new).nodes[id]? = none := by simp [Membership.new]
  simp only [hnew, nodeNumber, nodeId, nodeA, nodeB, nodeC, nodeD, @eq_comm _ id]
  grind

/-- The records decide the registry. -/
theorem eq_membershipOf {m : Membership} (h : Keyed table)
    (hm : ∀ id, m.nodes[id]? = (nodeNumber id).bind table) : m = membershipOf table := by
  have hnodes : m.nodes = (membershipOf table).nodes :=
    Std.ExtTreeMap.ext_getElem? fun {id} => by rw [hm id, getElem?_membershipOf h]
  obtain ⟨_, _⟩ := m
  cases hnodes
  rfl

theorem Keyed.update (h : Keyed table) {entry : Option NodeInfo}
    (hentry : ∀ info, entry = some info → info.nodeId = nodeId node) :
    Keyed (Function.update table node entry) := by
  intro n info hinfo
  by_cases hn : n = node
  · subst hn
    rw [Function.update_self] at hinfo
    exact hentry info hinfo
  · rw [Function.update_of_ne hn] at hinfo
    exact h n info hinfo

theorem bind_update (hn : node ∈ nodes) (entry : Option NodeInfo) (id : NodeId) :
    (nodeNumber id).bind (Function.update table node entry)
      = if nodeId node = id then entry else (nodeNumber id).bind table := by
  split
  · next heq => rw [(nodeNumber_eq_some hn).mpr heq, Option.bind_some, Function.update_self]
  · next hne =>
    cases hid : nodeNumber id with
    | none => rfl
    | some n =>
      have hnn : n ≠ node := by
        rintro rfl
        exact hne ((nodeNumber_eq_some hn).mp hid)
      rw [Option.bind_some, Option.bind_some, Function.update_of_ne hnn]

theorem put_membershipOf (h : Keyed table) (hn : node ∈ nodes) {info : NodeInfo}
    (hinfo : info.nodeId = nodeId node) :
    (membershipOf table).put info = membershipOf (Function.update table node (some info)) := by
  refine eq_membershipOf (h.update fun x hx => ?_) fun id => ?_
  · rw [← Option.some.inj hx, hinfo]
  · rw [Membership.getElem?_put, getElem?_membershipOf h, hinfo, bind_update hn]

theorem nodes_membershipOf (h : Keyed table) (hn : node ∈ nodes) :
    (membershipOf table).nodes[nodeId node]? = table node := by
  rw [getElem?_membershipOf h, (nodeNumber_eq_some hn).mpr rfl, Option.bind_some]

/-- A report of a node that is known. -/
theorem heartbeat_of_known (h : Keyed table) (hn : node ∈ nodes) {health : NodeHealth}
    {hosts leads : Bool} {seen : Nat} (ht : table node = some (record node health hosts leads seen))
    (now : Nat) (hosts' leads' : Bool) :
    ((membershipOf table).heartbeat (nodeId node) now (report node hosts' leads')).2
      = membershipOf (Function.update table node (some (record node
          (if health ≠ .draining then .healthy else health) hosts' leads' now))) := by
  rw [Membership.heartbeat, nodes_membershipOf h hn, ht]
  dsimp only
  rw [if_neg fun hseq => hseq.1 rfl, refresh_record hn, put_membershipOf h hn rfl]

/-- The first report of a node. -/
theorem heartbeat_of_unknown (h : Keyed table) (hn : node ∈ nodes) (ht : table node = none)
    (now : Nat) (hosts leads : Bool) :
    ((membershipOf table).heartbeat (nodeId node) now (report node hosts leads)).2
      = membershipOf
          (Function.update table node (some (record node .healthy hosts leads now))) := by
  rw [Membership.heartbeat, nodes_membershipOf h hn, ht]
  dsimp only
  rw [newNode_record hn, refresh_record hn, put_membershipOf h hn rfl, if_pos (by decide)]

theorem drain_membershipOf (h : Keyed table) (hn : node ∈ nodes) {info : NodeInfo}
    (ht : table node = some info) :
    (membershipOf table).drain (nodeId node)
      = (true, membershipOf (Function.update table node
          (some { info with health := .draining }))) := by
  rw [Membership.drain, nodes_membershipOf h hn, ht]
  have hid : ({ info with health := .draining } : NodeInfo).nodeId = nodeId node := h node info ht
  exact congrArg (Prod.mk true) (put_membershipOf h hn hid)

theorem forget_membershipOf (h : Keyed table) (hn : node ∈ nodes) {info : NodeInfo}
    (ht : table node = some info) :
    (membershipOf table).forget (nodeId node)
      = (true, membershipOf (Function.update table node none)) := by
  refine Prod.ext ?_ ?_
  · have hin := nodes_membershipOf h hn
    rw [ht] at hin
    exact Std.ExtTreeMap.contains_eq_isSome_getElem?.trans (by rw [hin]; rfl)
  · refine eq_membershipOf (h.update nofun) fun id => ?_
    rw [Membership.getElem?_forget, getElem?_membershipOf h, bind_update hn]

theorem sweep_membershipOf (h : Keyed table) (config : MembershipConfig)
    (oracle : NodeId → PodLiveness) (now : Nat) :
    ((membershipOf table).sweep config oracle now).2
      = membershipOf fun node => (table node).map (Membership.sweepNode config oracle now) := by
  refine eq_membershipOf ?_ fun id => ?_
  · intro node info hinfo
    obtain ⟨old, hold, rfl⟩ := Option.map_eq_some_iff.mp hinfo
    rw [Membership.sweepNode_nodeId]
    exact h node old hold
  · rw [Membership.getElem?_sweep, getElem?_membershipOf h]
    cases nodeNumber id <;> rfl

theorem snapshot_membershipOf (h : Keyed table) :
    (membershipOf table).snapshot = [1, 2, 3, 4].filterMap table := by
  have hsorted : ([1, 2, 3, 4].filterMap table).Pairwise fun a b => a.nodeId < b.nodeId := by
    refine List.pairwise_filterMap.mpr (List.Pairwise.imp (R := fun m n => nodeId m < nodeId n) ?_
      (by decide))
    intro m n hmn a ha b hb
    rw [h m a ha, h n b hb]
    exact hmn
  refine List.Perm.eq_of_pairwise (fun a b _ _ hab hba => absurd hba hab.asymm)
    (membershipOf table).snapshot_sorted hsorted ?_
  refine (List.perm_ext_iff_of_nodup (.of_map _ (membershipOf table).snapshot_ids_nodup)
    (hsorted.imp fun {a b} hab (heq : a = b) => lt_irrefl b.nodeId (heq ▸ hab))).mpr
      fun info => ?_
  rw [Membership.mem_snapshot, getElem?_membershipOf h, List.mem_filterMap,
    Option.bind_eq_some_iff]
  constructor
  · rintro ⟨n, hn, hinfo⟩
    exact ⟨n, by simpa using mem_nodes.mp (mem_nodes_of_nodeNumber hn), hinfo⟩
  · rintro ⟨n, hn, hinfo⟩
    exact ⟨n, (nodeNumber_eq_some (mem_nodes.mpr (by simpa using hn))).mpr (h n info hinfo).symm,
      hinfo⟩

end Table

/-! ## The brain -/

/-- The assignments of an origin. -/
def Origin.assignments : Origin → List ShardAssignment
  | .initial => [assignment [1, 2, 3] 1]
  | .snapshot => [assignment [2, 3, 4] 2]
  | .cold => []
  | .adopted => [assignment [1, 2, 3] 2]

namespace Shape

variable (sh : Shape) (late : Bool)

/-- The record of node 1. It reports to lead until a restart or its evacuation. -/
def recordA : Option NodeInfo :=
  let leads := !sh.origin.restarted
  let seen := if sh.origin.restarted then 1 else 0
  match sh.fate with
  | .healthy => some (record 1 .healthy true leads seen)
  | .dead => some (record 1 .dead true leads seen)
  | .draining => some (record 1 .draining true leads seen)
  | .evacuated => some (record 1 .draining false false 1)
  | .lost | .forgotten => none

/-- When nodes 2 and 3 were last heard: node 1 dies while the others are refreshed. -/
def seen : Nat := if sh.fate = .dead then 100 else if sh.origin.restarted then 1 else 0

/-- The records. `late` says that node 4 has joined since node 1 died. -/
def table : Nat → Option NodeInfo
  | 1 => sh.recordA
  | 2 => some (record 2 .healthy true sh.origin.restarted sh.seen)
  | 3 => some (record 3 .healthy true false sh.seen)
  | 4 =>
    if sh.joined then
      some (record 4 .healthy false false (if sh.fate = .dead ∧ late = false then 100 else 0))
    else none
  | _ => none

def sm : StateMachine where
  membership := membershipOf (sh.table late)
  placement :=
    { shardCount := 1
      generation := sh.origin.generation
      assignments := .ofList sh.origin.assignments
      policies := ∅ }
  plan := { targetNodes := 3, replicationFactor := 3 }

/-- The harness behind the shape. -/
def harness : Harness where
  sm := sh.sm late
  leader := sh.role = .leader
  forgotten := forgotten sh.fate

theorem keyed_table : Keyed (sh.table late) := by
  intro node info h
  unfold table at h
  split at h
  · cases hf : sh.fate <;> rw [recordA, hf] at h <;> cases h <;> rfl
  · cases h
    rfl
  · cases h
    rfl
  · split at h <;> cases h
    rfl
  · cases h

end Shape

end FiduciaBrain.SchedulerReplay
