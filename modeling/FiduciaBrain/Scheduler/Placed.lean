import FiduciaBrain.Scheduler.Affinity
import FiduciaBrain.Scheduler.Brain

/-!
# Placement over whole runs

With a replication factor of 3 a brain that starts with nothing only ever stores assignments of
existing shards to one to three distinct known nodes, one of them the preferred leader, and no shard
ever loses a replica (`placement_well_formed`). The invariant is `WellPlaced`; a tick is the only
action that writes assignments.
-/

namespace FiduciaBrain.Scheduler

open Infra

/-! ## What is observed -/

/-- Sanitized reports name a host once. -/
theorem nodup_observedReplicas {m : Membership} {t : Tick} (hnodes : t.nodes = m.snapshot)
    (hhosted : ∀ (id : NodeId) (info : NodeInfo), m.nodes[id]? = some info →
      info.hostedShards.Nodup) (shard : ShardId) :
    (t.observedReplicas shard).Nodup := by
  rw [Tick.observedReplicas, hnodes]
  refine List.nodup_flatMap.mpr ⟨?_, ?_⟩
  · intro info hinfo
    have hmem := Membership.mem_snapshot.mp (List.mem_of_mem_filter hinfo)
    have hone : info.hostedShards.count shard ≤ 1 :=
      List.nodup_iff_count_le_one.mp (hhosted _ info hmem) shard
    rw [List.filter_beq, List.map_replicate]
    exact List.nodup_replicate.mpr hone
  · refine (m.snapshot_sorted.sublist List.filter_sublist).imp (fun {a b} hab => ?_)
    intro x hx hy
    obtain ⟨-, -, rfl⟩ := List.mem_map.mp hx
    obtain ⟨-, -, heq⟩ := List.mem_map.mp hy
    exact absurd heq.symm (ne_of_lt hab)

/-! ## The invariant -/

/-- One assignment is in order: one to three distinct known replicas, the leader among them. -/
structure Assigned (m : Membership) (a : ShardAssignment) : Prop where
  nonempty : 1 ≤ a.replicas.length
  small : a.replicas.length ≤ 3
  distinct : a.replicas.Nodup
  known : ∀ r ∈ a.replicas, (m.nodes[r]?).isSome
  leader : ∃ l ∈ a.replicas, a.preferredLeader = some l

/-- Every stored assignment is in order and of a shard that exists; the plan asks for three replicas
and the recorded reports are sanitized. -/
structure WellPlaced (sm : StateMachine) : Prop where
  assigned : ∀ s a, sm.placement.get s = some a → s < sm.placement.shardCount ∧
    Assigned sm.membership a
  rf : sm.plan.replicationFactor = 3
  hosted : ∀ (id : NodeId) (info : NodeInfo), sm.membership.nodes[id]? = some info →
    info.hostedShards.Nodup

theorem Assigned.mono {m m' : Membership} {a : ShardAssignment} (h : Assigned m a)
    (hkeys : ∀ id : NodeId, (m.nodes[id]?).isSome → (m'.nodes[id]?).isSome) : Assigned m' a where
  nonempty := h.nonempty
  small := h.small
  distinct := h.distinct
  known := fun r hr => hkeys r (h.known r hr)
  leader := h.leader

theorem wellPlaced_fresh (shardCount targetNodes : Nat) :
    WellPlaced (fresh shardCount ⟨targetNodes, 3⟩) where
  assigned := fun s a h => by simp [fresh, Placement.new, Placement.get] at h
  rf := rfl
  hosted := fun id info h => by simp [fresh, Membership.new] at h

/-- Registering more, or changing what is registered without a look at the placement. -/
theorem WellPlaced.withMembership {sm : StateMachine} (h : WellPlaced sm) (m : Membership)
    (hkeys : ∀ id : NodeId, (sm.membership.nodes[id]?).isSome → (m.nodes[id]?).isSome)
    (hhosted : ∀ (id : NodeId) (info : NodeInfo), m.nodes[id]? = some info →
      info.hostedShards.Nodup) :
    WellPlaced { sm with membership := m } where
  assigned := fun s a ha => ⟨(h.assigned s a ha).1, (h.assigned s a ha).2.mono hkeys⟩
  rf := h.rf
  hosted := hhosted

theorem wellPlaced_heartbeat {sm : StateMachine} (h : WellPlaced sm) (nodeId : NodeId)
    (nowMs : Nat) (report : HeartbeatReport) (hreport : report.hostedShards.Nodup) :
    WellPlaced { sm with membership := (sm.membership.heartbeat nodeId nowMs report).2 } := by
  have hspec : ∀ id : NodeId, (sm.membership.heartbeat nodeId nowMs report).2.nodes[id]?
        = sm.membership.nodes[id]? ∨
      ∃ entry, (sm.membership.heartbeat nodeId nowMs report).2.nodes[id]?
        = some (Membership.refresh entry nodeId nowMs report) := by
    intro id
    by_cases hid : nodeId = id
    · subst hid
      rcases sm.membership.getElem?_heartbeat_self nodeId nowMs report with
        ⟨hsame, -⟩ | ⟨entry, -, hentry⟩
      · exact .inl (by rw [hsame])
      · exact .inr ⟨entry, hentry⟩
    · exact .inl (sm.membership.getElem?_heartbeat_of_ne nowMs report hid)
  refine h.withMembership _ (fun id hsome => ?_) (fun id info hinfo => ?_)
  · rcases hspec id with heq | ⟨entry, heq⟩
    · rwa [heq]
    · simp [heq]
  · rcases hspec id with heq | ⟨entry, heq⟩
    · exact h.hosted id info (heq ▸ hinfo)
    · rw [heq] at hinfo
      cases hinfo
      exact hreport

theorem wellPlaced_drain {sm : StateMachine} (h : WellPlaced sm) (nodeId : NodeId) :
    WellPlaced { sm with membership := (sm.membership.drain nodeId).2 } := by
  refine h.withMembership _ (fun id hsome => ?_) (fun id info hinfo => ?_)
  · rw [Membership.getElem?_drain]
    split <;> simpa using hsome
  · rw [Membership.getElem?_drain] at hinfo
    split at hinfo
    · obtain ⟨old, hold, rfl⟩ := Option.map_eq_some_iff.mp hinfo
      exact h.hosted id old hold
    · exact h.hosted id info hinfo

theorem wellPlaced_sweep {sm : StateMachine} (h : WellPlaced sm) (config : MembershipConfig)
    (oracle : NodeId → PodLiveness) (nowMs : Nat) :
    WellPlaced { sm with membership := (sm.membership.sweep config oracle nowMs).2 } := by
  refine h.withMembership _ (fun id hsome => ?_) (fun id info hinfo => ?_)
  · simpa using hsome
  · rw [Membership.getElem?_sweep] at hinfo
    obtain ⟨old, hold, rfl⟩ := Option.map_eq_some_iff.mp hinfo
    have hsame : (Membership.sweepNode config oracle nowMs old).hostedShards = old.hostedShards := by
      unfold Membership.sweepNode
      split <;> rfl
    rw [hsame]
    exact h.hosted id old hold

/-! ## A tick -/

section

variable {sm : StateMachine} {s : ShardId}

theorem rfOf_of_wellPlaced (h : WellPlaced sm) : Tick.rfOf sm = 3 := by
  rw [Tick.rfOf, h.rf]
  rfl

theorem nodup_currentReplicas_of (hassigned : ∀ a, sm.placement.get s = some a → a.replicas.Nodup)
    (hhosted : ∀ (id : NodeId) (info : NodeInfo), sm.membership.nodes[id]? = some info →
      info.hostedShards.Nodup) : (currentReplicas sm s).Nodup := by
  rw [currentReplicas]
  cases hget : sm.placement.get s with
  | some a => exact hassigned a hget
  | none => exact nodup_observedReplicas rfl hhosted s

theorem nodup_currentReplicas (h : WellPlaced sm) : (currentReplicas sm s).Nodup :=
  nodup_currentReplicas_of (fun a ha => (h.assigned s a ha).2.distinct) h.hosted

/-- A shard that is decided keeps its number of replicas or gets more. -/
theorem length_nextAssignment (h : WellPlaced sm)
    (hheld : (Tick.of sm).held (currentReplicas sm s) = false) :
    (replicasOf sm s).length ≤ (nextAssignment sm s).replicas.length ∧
      (nextAssignment sm s).replicas.length ≤ 3 := by
  have hrf : (Tick.of sm).rf = 3 := rfOf_of_wellPlaced h
  have hlen := (Tick.of sm).length_desired (before sm s).load (currentReplicas sm s)
  have hactive := (Tick.of sm).length_healthyIds_le (Tick.nodup_healthyIds sm) (currentReplicas sm s)
  rw [Tick.held, Bool.or_eq_false_iff, decide_eq_false_iff_not] at hheld
  have hnot := hheld.2
  rw [hrf] at hlen hnot
  rw [nextAssignment_eq_desired, hlen]
  cases hget : sm.placement.get s with
  | none => simp [replicasOf, hget]
  | some a =>
    have hsmall := (h.assigned s a hget).2.small
    have hcur : currentReplicas sm s = a.replicas := by
      rw [currentReplicas, hget]
      rfl
    have hreplicas : replicasOf sm s = a.replicas := by
      rw [replicasOf, hget]
      rfl
    rw [hcur] at hnot hactive ⊢
    rw [hreplicas]
    omega

/-- What a tick writes is in order. -/
theorem assigned_nextAssignment (h : WellPlaced sm)
    (hheld : (Tick.of sm).held (currentReplicas sm s) = false)
    (hne : ¬ (sm.placement.get s = none ∧ (nextAssignment sm s).replicas = [])) :
    Assigned sm.membership (nextAssignment sm s) := by
  obtain ⟨hmore, hsmall⟩ := length_nextAssignment h hheld
  have hactive : ∀ id ∈ (nextAssignment sm s).replicas, id ∈ (Tick.of sm).healthyIds := by
    intro id hid
    rw [nextAssignment_eq_desired] at hid
    exact (Tick.of sm).mem_desired hid
  have hfull : (nextAssignment sm s).replicas ≠ [] := by
    intro hnil
    cases hget : sm.placement.get s with
    | none => exact hne ⟨hget, hnil⟩
    | some a =>
      have hone := (h.assigned s a hget).2.nonempty
      rw [hnil, replicasOf, hget] at hmore
      exact absurd (hone.trans hmore) (by simp)
  refine ⟨List.length_pos_of_ne_nil hfull, hsmall, ?_, ?_, ?_⟩
  · exact nodup_nextAssignment (nodup_currentReplicas h)
  · intro r hr
    rw [← Tick.known_eq]
    exact Tick.known_of_mem sm (hactive r hr)
  · rw [nextAssignment, nextAssignment_preferredLeader]
    obtain ⟨l, hl, hleader, -⟩ := Tick.preferredLeader_spec hfull hactive
    exact ⟨l, hl, hleader⟩

/-- The map after a tick: what was there, or something in order and no shorter. -/
theorem get_reconcile_cases (h : WellPlaced sm) (s : ShardId) :
    (reconcile true sm).placement.get s = sm.placement.get s ∨
      (s < sm.placement.shardCount ∧
        (reconcile true sm).placement.get s = some (nextAssignment sm s) ∧
        Assigned sm.membership (nextAssignment sm s) ∧
        (replicasOf sm s).length ≤ (nextAssignment sm s).replicas.length) := by
  rw [get_reconcile]
  split
  · next hdecided =>
    split
    · next hnone => exact .inl hnone.1.symm
    · next hne =>
      exact .inr ⟨hdecided.1, rfl, assigned_nextAssignment h hdecided.2 hne,
        (length_nextAssignment h hdecided.2).1⟩
  · exact .inl rfl

end

theorem stillAssigned_of_mem {pl : Placement} {s : ShardId} {a : ShardAssignment} {r : NodeId}
    (ha : pl.get s = some a) (hr : r ∈ a.replicas) : stillAssigned pl r = true := by
  have hkey : a.shardId = s := shardId_of_get ha
  have hmem : a ∈ pl.snapshot := Assignments.mem_snapshot.mpr (hkey ▸ ha)
  exact List.any_eq_true.mpr ⟨a, hmem, by simpa using hr⟩

theorem wellPlaced_reconcile {sm : StateMachine} (h : WellPlaced sm) :
    WellPlaced (reconcile true sm) where
  assigned := by
    intro s a ha
    have hassigned : s < sm.placement.shardCount ∧ Assigned sm.membership a := by
      rcases get_reconcile_cases h s with hsame | ⟨hs, hnext, hok, -⟩
      · exact h.assigned s a (hsame ▸ ha)
      · rw [ha] at hnext
        cases hnext
        exact ⟨hs, hok⟩
    refine ⟨by rw [reconcile_shardCount]; exact hassigned.1, ?_⟩
    -- a node that an assignment names is not forgotten
    refine { hassigned.2 with known := fun r hr => ?_ }
    rcases reconcile_nodes sm r with hsame | ⟨hnot, -⟩
    · rw [hsame]
      exact hassigned.2.known r hr
    · rw [stillAssigned_of_mem ha hr] at hnot
      cases hnot
  rf := by rw [reconcile_plan, h.rf]
  hosted := by
    intro id info hinfo
    rcases reconcile_nodes sm id with hsame | ⟨-, hnone⟩
    · exact h.hosted id info (hsame ▸ hinfo)
    · rw [hnone] at hinfo
      cases hinfo

/-! ## Whole runs -/

/-- The plans an operator may ask for keep three replicas. -/
def KeepsThree (_ : StateMachine) (a : Action) : Prop :=
  ∀ plan, a = .setScale plan → plan.replicationFactor = 3

/-- A brain that starts with nothing known and nothing placed. -/
def StartsFresh (sm : StateMachine) : Prop :=
  ∃ shardCount targetNodes, sm = fresh shardCount ⟨targetNodes, 3⟩

/-- **One action** keeps the invariant, and every shard its number of replicas. -/
theorem wellPlaced_act {config : MembershipConfig} {sm : StateMachine} {a : Action}
    (h : WellPlaced sm) (ha : KeepsThree sm a) :
    WellPlaced (act config sm a) ∧
      ∀ s, (replicasOf sm s).length ≤ (replicasOf (act config sm a) s).length := by
  cases a with
  | heartbeat nodeId nowMs report =>
    exact ⟨wellPlaced_heartbeat h nodeId nowMs _ (sanitizeReport_hosted report _).1,
      fun s => le_refl _⟩
  | drain nodeId => exact ⟨wellPlaced_drain h nodeId, fun s => le_refl _⟩
  | sweep oracle nowMs => exact ⟨wellPlaced_sweep h config oracle nowMs, fun s => le_refl _⟩
  | setScale plan =>
    exact ⟨{ h with rf := ha plan rfl }, fun s => le_refl _⟩
  | setPolicy policy =>
    exact ⟨{ h with assigned := h.assigned }, fun s => le_refl _⟩
  | reconcile =>
    refine ⟨wellPlaced_reconcile h, fun s => ?_⟩
    have hafter : replicasOf (act config sm .reconcile) s
        = ((reconcile true sm).placement.get s).elim [] (·.replicas) := rfl
    rw [hafter]
    rcases get_reconcile_cases h s with hsame | ⟨-, hnext, -, hmore⟩
    · rw [hsame]
      exact le_refl _
    · rw [hnext]
      exact hmore

/-- **Placement stays well-formed over whole runs**, and no shard loses a replica. -/
theorem placement_well_formed {config : MembershipConfig} {sm : StateMachine}
    (h : (brainSystem config StartsFresh KeepsThree).Reachable sm) :
    (∀ s a, sm.placement.get s = some a →
      a.shardId = s ∧ s < sm.placement.shardCount ∧ Assigned sm.membership a) ∧
    ∀ sm', (brainSystem config StartsFresh KeepsThree).step sm sm' →
      ∀ s, (replicasOf sm s).length ≤ (replicasOf sm' s).length := by
  have hwell : WellPlaced sm := by
    refine h.invariant (fun s hs => ?_) (fun s t _ hs hst => ?_)
    · obtain ⟨shardCount, targetNodes, rfl⟩ := hs
      exact wellPlaced_fresh shardCount targetNodes
    · obtain ⟨a, ha, rfl⟩ := hst
      exact (wellPlaced_act hs ha).1
  constructor
  · intro s a ha
    exact ⟨shardId_of_get ha, hwell.assigned s a ha⟩
  · rintro sm' ⟨a, ha, rfl⟩
    exact (wellPlaced_act hwell ha).2

/-- Three nodes report in and a tick places the shard on them. -/
def bootRun : List Action :=
  [.heartbeat "a" 0 (plainReport "gcp"), .heartbeat "b" 0 (plainReport "aws"),
    .heartbeat "c" 0 (plainReport "hetzner"), .reconcile]

theorem placement_well_formed_boot :
    let sm := acts ⟨6000, 30000⟩ (fresh 1 ⟨3, 3⟩) bootRun
    (sm.placement.get 0).map (·.replicas) = some ["a", "b", "c"] ∧
      ∀ s a, sm.placement.get s = some a →
        a.shardId = s ∧ s < sm.placement.shardCount ∧ Assigned sm.membership a := by
  intro sm
  refine ⟨by decide +kernel, (@placement_well_formed ⟨6000, 30000⟩ _
    ⟨fresh 1 ⟨3, 3⟩, ⟨1, 3, rfl⟩, steps_acts ?_⟩).1⟩
  refine ⟨?_, ?_, ?_, ?_, trivial⟩ <;> intro plan h <;> cases h

end FiduciaBrain.Scheduler
