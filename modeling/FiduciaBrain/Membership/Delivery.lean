import FiduciaBrain.Membership.Run
import FiduciaBrain.Text
import Mathlib.Data.Finset.Insert
import Mathlib.Data.Finset.Dedup
import Mathlib.Data.List.MinMax

/-!
# Sequenced heartbeats in any order

A node that stamps its heartbeats is as its newest report says, whatever order they arrive in and
however often. The record after a run mirrors the report of the highest `seq` delivered so far
(`mirrors_run`), and that report is the same for two runs that deliver the same ones.
-/

namespace FiduciaBrain.Membership

variable {config : MembershipConfig} {nodeId : NodeId}

/-- The reports of a node in the order they arrive. -/
def reports (nodeId : NodeId) (events : List Event) : List HeartbeatReport :=
  events.filterMap fun
    | .heartbeat id _ report => if id = nodeId then some report else none
    | _ => none

/-- The run delivers exactly these reports of the node, each at least once, and never forgets the
node. -/
structure Delivers (nodeId : NodeId) (sent : Finset HeartbeatReport) (events : List Event) :
    Prop where
  exactly : (reports nodeId events).toFinset = sent
  kept : .forget nodeId ∉ events

/-- The record is as the report says. A field that the report leaves empty says nothing. -/
structure Mirrors (report : HeartbeatReport) (info : NodeInfo) : Prop where
  hostedShards : info.hostedShards = report.hostedShards
  leadingShards : info.leadingShards = report.leadingShards
  lastSeq : info.lastSeq = report.seq
  address : report.address ≠ "" → info.address = report.address
  cloudProvider : report.cloudProvider ≠ "" → info.cloudProvider = report.cloudProvider
  region : report.region ≠ "" → info.region = report.region
  clusterId : report.clusterId ≠ "" → info.clusterId = report.clusterId
  failureDomain : trim report.failureDomain ≠ "" →
    info.failureDomain = toAsciiLowercase (trim report.failureDomain)

/-- What a report always says of its node. -/
def reported (info : NodeInfo) : List ShardId × List ShardId × Nat :=
  (info.hostedShards, info.leadingShards, info.lastSeq)

/-! ## One record -/

theorem mirrors_refresh {entry : NodeInfo} {nowMs : Nat} {report : HeartbeatReport}
    (h : entry.lastSeq ≤ report.seq) : Mirrors report (refresh entry nodeId nowMs report) where
  hostedShards := rfl
  leadingShards := rfl
  lastSeq := max_eq_right h
  address hne := if_neg (by simpa using hne)
  cloudProvider hne := if_neg (by simpa using hne)
  region hne := if_neg (by simpa using hne)
  clusterId hne := if_neg (by simpa using hne)
  failureDomain hne := by
    have hsome : report.failureDomain ≠ "" := fun h => hne (h ▸ trim_empty)
    exact (if_pos (by simpa using hsome)).trans (normalizedFailureDomain_of_named hne)

theorem Mirrors.sweepNode {report : HeartbeatReport} {info : NodeInfo} (h : Mirrors report info)
    (oracle : NodeId → PodLiveness) (nowMs : Nat) :
    Mirrors report (sweepNode config oracle nowMs info) := by
  unfold Membership.sweepNode
  split
  · exact h
  · exact { h with }

/-- A heartbeat of the node leaves a record that mirrors the newer of the report it mirrored and the
one that arrived. -/
theorem mirrors_heard {newest report : HeartbeatReport} {entry : NodeInfo} {nowMs : Nat}
    (hseq : report.seq ≠ 0) (h : Mirrors newest entry) :
    Mirrors (if newest.seq < report.seq then report else newest)
      (heard nodeId nowMs report (some entry)) := by
  split
  · next hlt =>
    rw [heard_of_fresh fun hstale => Nat.not_le_of_lt hlt (h.lastSeq ▸ hstale.2)]
    exact mirrors_refresh (h.lastSeq ▸ hlt.le)
  · next hle =>
    rw [heard_of_stale ⟨hseq, h.lastSeq ▸ Nat.not_lt.mp hle⟩]
    exact h

/-- Whatever keeps each record on its report keeps a node that may be unknown on it. -/
theorem rel_map {newest : Option HeartbeatReport} {record : Option NodeInfo}
    {f : NodeInfo → NodeInfo} (hf : ∀ report info, Mirrors report info → Mirrors report (f info))
    (h : Option.Rel Mirrors newest record) : Option.Rel Mirrors newest (record.map f) := by
  cases h with
  | none => exact .none
  | some h => exact .some (hf _ _ h)

theorem rel_heard {before : List HeartbeatReport} {report : HeartbeatReport}
    {record : Option NodeInfo} {nowMs : Nat} (hseq : report.seq ≠ 0)
    (h : Option.Rel Mirrors (before.argmax (·.seq)) record) :
    Option.Rel Mirrors ((before ++ [report]).argmax (·.seq))
      (some (heard nodeId nowMs report record)) := by
  rw [List.argmax_concat]
  generalize before.argmax (·.seq) = newest at h
  cases h with
  | none => exact .some (mirrors_refresh (Nat.zero_le _))
  | some h =>
    simp only [← apply_ite some]
    exact .some (mirrors_heard hseq h)

/-! ## One run -/

theorem run_concat (m : FiduciaBrain.Membership) (events : List Event) (e : Event) :
    m.run config (events ++ [e]) = (m.run config events).apply config e := by
  rw [run, List.foldl_append]
  rfl

/-- **The record mirrors the newest report delivered so far.** -/
theorem mirrors_run {m : FiduciaBrain.Membership} (hm : m.nodes[nodeId]? = none)
    {events : List Event} (hseq : ∀ report ∈ reports nodeId events, report.seq ≠ 0)
    (hkept : .forget nodeId ∉ events) :
    Option.Rel Mirrors ((reports nodeId events).argmax (·.seq))
      (m.run config events).nodes[nodeId]? := by
  induction events using List.reverseRecOn with
  | nil => exact hm ▸ .none
  | append_singleton events e ih =>
    have hreports : reports nodeId (events ++ [e]) = reports nodeId events ++ reports nodeId [e] :=
      List.filterMap_append
    rw [hreports] at hseq ⊢
    rw [run_concat, getElem?_apply]
    have ih := ih (fun report hr => hseq report (List.mem_append_left _ hr))
      fun h => hkept (List.mem_append_left _ h)
    cases hc : e.concerns nodeId with
    | false =>
      have hnone : reports nodeId [e] = [] := by
        cases e <;> simp_all [reports, Event.concerns]
      rw [hnone, List.append_nil, if_neg (by simp)]
      exact ih
    | true =>
      rw [if_pos rfl]
      cases e with
      | heartbeat id nowMs report =>
        have hreport : reports nodeId [.heartbeat id nowMs report] = [report] := by
          simp_all [reports, Event.concerns]
        rw [hreport] at hseq ⊢
        exact rel_heard (hseq report (by simp)) ih
      | sweep oracle nowMs =>
        exact (List.append_nil _).symm ▸ rel_map (fun _ _ h => h.sweepNode oracle nowMs) ih
      | drain id => exact (List.append_nil _).symm ▸ rel_map (fun _ _ h => { h with }) ih
      -- a node that is registered again starts from `lastSeq` 0
      | forget id => exact absurd (by simp_all [Event.concerns]) hkept

/-! ## Two runs -/

/-- Two lists of the same reports have the same newest one when no two share a `seq`. -/
theorem argmax_eq_of_toFinset_eq {sent : Finset HeartbeatReport} {l l' : List HeartbeatReport}
    (hinj : Set.InjOn (·.seq) (sent : Set HeartbeatReport)) (h : l.toFinset = sent)
    (h' : l'.toFinset = sent) : l.argmax (·.seq) = l'.argmax (·.seq) := by
  have hmem : ∀ r, r ∈ l ↔ r ∈ sent := fun r => by rw [← h, List.mem_toFinset]
  have hmem' : ∀ r, r ∈ l' ↔ r ∈ sent := fun r => by rw [← h', List.mem_toFinset]
  cases hl : l.argmax (·.seq) with
  | none =>
    rw [List.argmax_eq_none] at hl
    have hl' : l' = [] := List.eq_nil_iff_forall_not_mem.mpr fun r hr => by
      have := (hmem r).mpr ((hmem' r).mp hr)
      simp [hl] at this
    rw [hl', List.argmax_nil]
  | some top =>
    cases hl' : l'.argmax (·.seq) with
    | none =>
      rw [List.argmax_eq_none] at hl'
      have := (hmem' top).mpr ((hmem top).mp (List.argmax_mem hl))
      simp [hl'] at this
    | some top' =>
      have htop : top ∈ sent := (hmem top).mp (List.argmax_mem hl)
      have htop' : top' ∈ sent := (hmem' top').mp (List.argmax_mem hl')
      have hle := List.le_of_mem_argmax ((hmem top').mpr htop') hl
      have hle' := List.le_of_mem_argmax ((hmem' top).mpr htop) hl'
      exact congrArg some (hinj htop htop' (Nat.le_antisymm hle' hle))

/-- **Sequenced heartbeats converge.** Two runs that deliver the same reports of a node, in any
order, with any repetition and with anything else in between, agree on what the node hosts and leads
and on its `lastSeq`, and both mirror the report of the highest `seq`. -/
theorem heartbeats_converge {config' : MembershipConfig} {sent : Finset HeartbeatReport}
    (hseq : ∀ report ∈ sent, report.seq ≠ 0)
    (hinj : Set.InjOn (·.seq) (sent : Set HeartbeatReport)) {m m' : FiduciaBrain.Membership}
    (hm : m.nodes[nodeId]? = none) (hm' : m'.nodes[nodeId]? = none) {events events' : List Event}
    (h : Delivers nodeId sent events) (h' : Delivers nodeId sent events') :
    (m.run config events).nodes[nodeId]?.map reported
        = (m'.run config' events').nodes[nodeId]?.map reported ∧
      ∀ newest ∈ sent, (∀ report ∈ sent, report.seq ≤ newest.seq) →
        ∃ info info', (m.run config events).nodes[nodeId]? = some info ∧
          (m'.run config' events').nodes[nodeId]? = some info' ∧
          Mirrors newest info ∧ Mirrors newest info' := by
  have hmem : ∀ r ∈ reports nodeId events, r.seq ≠ 0 := fun r hr =>
    hseq r (h.exactly ▸ List.mem_toFinset.mpr hr)
  have hmem' : ∀ r ∈ reports nodeId events', r.seq ≠ 0 := fun r hr =>
    hseq r (h'.exactly ▸ List.mem_toFinset.mpr hr)
  have hrun := @mirrors_run config _ m hm _ hmem h.kept
  have hrun' := @mirrors_run config' _ m' hm' _ hmem' h'.kept
  -- the two runs follow one report, whatever the order in which theirs arrive
  rw [← argmax_eq_of_toFinset_eq hinj h.exactly h'.exactly] at hrun'
  generalize hbest : (reports nodeId events).argmax (·.seq) = best at hrun hrun'
  generalize (m.run config events).nodes[nodeId]? = record at hrun ⊢
  generalize (m'.run config' events').nodes[nodeId]? = record' at hrun' ⊢
  have hreports : ∀ r, r ∈ reports nodeId events ↔ r ∈ sent := fun r => by
    rw [← h.exactly, List.mem_toFinset]
  cases hrun with
  | none =>
    cases hrun'
    refine ⟨rfl, fun newest hnewest _ => ?_⟩
    rw [List.argmax_eq_none.mp hbest] at hreports
    cases (hreports newest).mpr hnewest
  | @some best info hi =>
    cases hrun' with
    | @some _ info' hi' =>
      refine ⟨?_, fun newest hnewest hmax => ⟨info, info', rfl, rfl, ?_⟩⟩
      · simp only [Option.map_some, reported, hi.hostedShards, hi.leadingShards, hi.lastSeq,
          hi'.hostedShards, hi'.leadingShards, hi'.lastSeq]
      · have hmem : best ∈ sent := (hreports best).mp (List.argmax_mem hbest)
        have hle := List.le_of_mem_argmax ((hreports newest).mpr hnewest) hbest
        have heq : best = newest := hinj hmem hnewest (Nat.le_antisymm (hmax best hmem) hle)
        exact heq ▸ ⟨hi, hi'⟩

/-- A node's report of one hosted shard. -/
def shardReport (seq : Nat) (shard : ShardId) : HeartbeatReport where
  address := "10.0.0.1:8090"
  cloudProvider := "aws"
  region := "us-east-1"
  clusterId := "aws-prod"
  failureDomain := " Rack-1 "
  hostedShards := [shard]
  leadingShards := []
  seq := seq

def inOrder : List Event :=
  [.heartbeat "a" 0 (shardReport 1 7), .sweep (fun _ => .unknown) 40,
    .heartbeat "a" 50 (shardReport 2 8)]

def outOfOrder : List Event :=
  [.heartbeat "a" 0 (shardReport 2 8), .drain "a", .heartbeat "b" 3 (shardReport 9 5),
    .heartbeat "a" 5 (shardReport 1 7), .heartbeat "a" 6 (shardReport 2 8)]

theorem heartbeats_converge_outOfOrder :
    (new.run ⟨10, 20⟩ inOrder).nodes["a"]?.map reported
        = (new.run ⟨10, 20⟩ outOfOrder).nodes["a"]?.map reported ∧
      ∀ newest ∈ ({shardReport 1 7, shardReport 2 8} : Finset HeartbeatReport),
        (∀ report ∈ ({shardReport 1 7, shardReport 2 8} : Finset HeartbeatReport),
          report.seq ≤ newest.seq) →
        ∃ info info', (new.run ⟨10, 20⟩ inOrder).nodes["a"]? = some info ∧
          (new.run ⟨10, 20⟩ outOfOrder).nodes["a"]? = some info' ∧
          Mirrors newest info ∧ Mirrors newest info' := by
  refine heartbeats_converge ?_ ?_ (by simp [new]) (by simp [new])
    ⟨by decide, by simp [inOrder]⟩ ⟨by decide, by simp [outOfOrder]⟩
  · decide
  · intro r hr r' hr' h
    simp only [Finset.coe_insert, Finset.coe_singleton, Set.mem_insert_iff,
      Set.mem_singleton_iff] at hr hr'
    rcases hr with rfl | rfl <;> rcases hr' with rfl | rfl
    · rfl
    · exact absurd h (by decide)
    · exact absurd h (by decide)
    · rfl

end FiduciaBrain.Membership
