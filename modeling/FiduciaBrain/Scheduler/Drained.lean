import FiduciaBrain.Scheduler.Brain

/-!
# Drained nodes

Heartbeats and sweeps leave a draining node draining, and a tick forgets it once it is evacuated. The
intent to remove it is kept in its record only, so it is kept exactly as long as the record is: a
heartbeat that arrives after the node was forgotten registers it as healthy
(`forgotten_node_returns`). In runs without such a heartbeat the node stays out
(`drained_stays_out`).
-/

namespace FiduciaBrain.Scheduler

open Infra

/-- The node is draining or not registered. -/
def Out (sm : StateMachine) (n : NodeId) : Prop :=
  ∀ info, sm.membership.nodes[n]? = some info → info.health = .draining

/-- No heartbeat of `n` arrives while `n` is not registered. -/
def NoRevival (n : NodeId) (sm : StateMachine) (a : Action) : Prop :=
  ∀ nowMs report, a = .heartbeat n nowMs report → (sm.membership.nodes[n]?).isSome

section

variable {sm : StateMachine} {n : NodeId}

/-- A drain that found its node puts it out. -/
theorem out_of_drain (m : StateMachine) (n : NodeId) :
    Out { m with membership := (m.membership.drain n).2 } n := by
  intro info hinfo
  rw [Membership.getElem?_drain, if_pos rfl] at hinfo
  obtain ⟨old, -, rfl⟩ := Option.map_eq_some_iff.mp hinfo
  rfl

theorem out_heartbeat (h : Out sm n) {nodeId : NodeId} {nowMs : Nat} {report : HeartbeatReport}
    (hknown : nodeId = n → (sm.membership.nodes[n]?).isSome) :
    Out { sm with membership := (sm.membership.heartbeat nodeId nowMs report).2 } n := by
  intro info hinfo
  by_cases hid : nodeId = n
  · subst hid
    obtain ⟨old, hold⟩ := Option.isSome_iff_exists.mp (hknown rfl)
    rcases sm.membership.getElem?_heartbeat_self nodeId nowMs report with
      ⟨hsame, -⟩ | ⟨entry, hentry, hafter⟩
    · exact h info (hsame ▸ hinfo)
    · -- the record it had was draining, and refreshing keeps that
      have hdraining : entry.health = .draining := by
        rw [hentry, hold]
        exact h old hold
      simp only at hinfo
      rw [hafter] at hinfo
      cases hinfo
      simp [Membership.refresh, hdraining]
  · have hsame := sm.membership.getElem?_heartbeat_of_ne nowMs report hid
    exact h info (hsame ▸ hinfo)

theorem out_drain (h : Out sm n) (nodeId : NodeId) :
    Out { sm with membership := (sm.membership.drain nodeId).2 } n := by
  intro info hinfo
  simp only at hinfo
  rw [Membership.getElem?_drain] at hinfo
  split at hinfo
  · obtain ⟨old, -, rfl⟩ := Option.map_eq_some_iff.mp hinfo
    rfl
  · exact h info hinfo

theorem out_sweep (h : Out sm n) (config : MembershipConfig) (oracle : NodeId → PodLiveness)
    (nowMs : Nat) : Out { sm with membership := (sm.membership.sweep config oracle nowMs).2 } n := by
  intro info hinfo
  simp only [Membership.getElem?_sweep] at hinfo
  obtain ⟨old, hold, rfl⟩ := Option.map_eq_some_iff.mp hinfo
  have hdraining : old.health = .draining := h old hold
  simp [Membership.sweepNode, hdraining]

theorem out_reconcile (h : Out sm n) : Out (reconcile true sm) n := by
  intro info hinfo
  rcases reconcile_nodes sm n with hsame | ⟨-, hnone⟩
  · exact h info (hsame ▸ hinfo)
  · rw [hnone] at hinfo
    cases hinfo

/-- **One action** leaves a node out. -/
theorem out_act {config : MembershipConfig} {a : Action} (h : Out sm n) (ha : NoRevival n sm a) :
    Out (act config sm a) n := by
  cases a with
  | heartbeat nodeId nowMs report =>
    exact out_heartbeat h (fun heq => ha nowMs report (by rw [heq]))
  | drain nodeId => exact out_drain h nodeId
  | sweep oracle nowMs => exact out_sweep h config oracle nowMs
  | setScale plan => exact h
  | setPolicy policy => exact h
  | reconcile => exact out_reconcile h

/-- A tick adds no node that is out. -/
theorem not_added_of_out (h : Out sm n) {s : ShardId} {a : ShardAssignment}
    (ha : (reconcile true sm).placement.get s = some a) (hn : n ∈ a.replicas) :
    sm.placement.get s = some a := by
  rw [get_reconcile] at ha
  split at ha
  · split at ha
    · cases ha
    · cases ha
      obtain ⟨info, hinfo, hhealthy⟩ := mem_allHealthyIds.mp (health_of_mem_nextAssignment hn)
      rw [h info hinfo] at hhealthy
      cases hhealthy
  · exact ha

end

/-- **A drained node stays out** in every run in which no heartbeat of it arrives after it was
forgotten: it is never healthy, and no tick adds it to a shard. -/
theorem drained_stays_out {config : MembershipConfig} {sm sm' : StateMachine} {n : NodeId}
    (hrun : (brainSystem config (fun _ => True) (NoRevival n)).Steps (act config sm (.drain n)) sm') :
    (∀ info, sm'.membership.nodes[n]? = some info → info.health ≠ .healthy) ∧
      ∀ s a, (act config sm' .reconcile).placement.get s = some a → n ∈ a.replicas →
        ∃ old, sm'.placement.get s = some old ∧ n ∈ old.replicas := by
  have hout : Out sm' n := by
    refine hrun.preserves (P := fun t => Out t n) (fun s t _ hs hst => ?_) (.of_init trivial)
      (out_of_drain sm n)
    obtain ⟨a, ha, rfl⟩ := hst
    exact out_act hs ha
  constructor
  · intro info hinfo hhealthy
    rw [hout info hinfo] at hhealthy
    cases hhealthy
  · intro s a ha hn
    exact ⟨a, not_added_of_out hout ha hn, hn⟩

/-! ## A spare node that is drained -/

/-- One shard on `b`, `c` and `d`, and `a` beside them. -/
def spareRun : List Action :=
  [.heartbeat "b" 0 (plainReport "aws"), .heartbeat "c" 0 (plainReport "hetzner"),
    .heartbeat "d" 0 (plainReport "gcp"), .reconcile, .heartbeat "a" 0 (plainReport "gcp")]

/-- It keeps reporting while it is registered, and is then forgotten. -/
theorem drained_stays_out_spare :
    let sm := acts ⟨6000, 30000⟩ (fresh 1 ⟨3, 3⟩) spareRun
    let sm' := acts ⟨6000, 30000⟩ (act ⟨6000, 30000⟩ sm (.drain "a"))
      [.heartbeat "a" 1 (plainReport "gcp"), .reconcile]
    (∀ info, sm'.membership.nodes["a"]? = some info → info.health ≠ .healthy) ∧
      ∀ s a, (act ⟨6000, 30000⟩ sm' .reconcile).placement.get s = some a → "a" ∈ a.replicas →
        ∃ old, sm'.placement.get s = some old ∧ "a" ∈ old.replicas := by
  intro sm sm'
  refine drained_stays_out (steps_acts ⟨?_, ?_, trivial⟩)
  · intro nowMs report _
    decide +kernel
  · intro nowMs report h
    cases h

/-- **A heartbeat after that brings it back**: `a` is drained, forgotten, healthy again, and the next
tick that loses a replica places on it. -/
theorem forgotten_node_returns :
    let sm := acts ⟨6000, 30000⟩ (fresh 1 ⟨3, 3⟩) spareRun
    let gone := acts ⟨6000, 30000⟩ sm [.drain "a", .reconcile]
    let back := acts ⟨6000, 30000⟩ gone [.heartbeat "a" 1 (plainReport "gcp"),
      .sweep (fun id => if id = "d" then .gone else .unknown) 2]
    (sm.membership.drain "a").1 = true ∧
      gone.membership.nodes["a"]? = none ∧
      back.membership.nodes["a"]?.map (·.health) = some .healthy ∧
      replicasOf back 0 = ["b", "c", "d"] ∧
      replicasOf (act ⟨6000, 30000⟩ back .reconcile) 0 = ["b", "c", "a"] := by
  decide +kernel

end FiduciaBrain.Scheduler
