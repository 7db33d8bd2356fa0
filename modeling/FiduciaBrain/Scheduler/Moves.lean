import FiduciaBrain.Scheduler.Active

/-!
# What a tick does to a full set of active replicas

Once the active nodes stay the same, the plan of a decided shard is its own set with at most one
replica exchanged (`move_cases`). An exchange is judged by the failure domains it gains and by the
difference of the two loads, as the walk has them when it arrives at the shard. The load of the
replica counts the shard itself and that of the candidate does not, so at a difference of one the
exchange only trades the two nodes' places (`EvenMove`).
-/

namespace FiduciaBrain.Scheduler

open Infra

section

variable (sm : StateMachine) (s : ShardId)

/-- A replica of the shard and an active node that is none. -/
structure Exchange (i : Nat) (v c : NodeId) : Prop where
  victim : (currentReplicas sm s)[i]? = some v
  candidate : c ∈ idleNodes sm s

/-- The failure domains an exchange gains. -/
def gain (i : Nat) (c : NodeId) : Int :=
  (spread sm ((currentReplicas sm s).set i c) : Int) - spread sm (currentReplicas sm s)

/-- How much more load the replica has than the candidate, when the walk arrives at the shard. -/
def delta (v c : NodeId) : Int :=
  ((before sm s).load.get v : Int) - (before sm s).load.get c

/-- The walk arrives at a full set of active replicas and the best that is left is an exchange that
keeps the spread at a load difference of exactly one. -/
structure EvenMove : Prop where
  live : Live sm s
  active : ∀ r ∈ currentReplicas sm s, r ∈ activeNodes sm
  full : (currentReplicas sm s).length = Tick.rfOf sm
  even : ∃ i v c, Exchange sm s i v c ∧ gain sm s i c = 0 ∧ delta sm s v c = 1
  best : ∀ i v c, Exchange sm s i v c →
    gain sm s i c < 0 ∨ (gain sm s i c = 0 ∧ delta sm s v c ≤ 1)

/-- The replicas of a decided shard only move: they are active, and as many as are wanted or as
there are. -/
structure Settled : Prop where
  live : Live sm s
  active : ∀ r ∈ currentReplicas sm s, r ∈ activeNodes sm
  full : (currentReplicas sm s).length = Tick.rfOf sm ∨
    ((currentReplicas sm s).length ≤ Tick.rfOf sm ∧ idleNodes sm s = [])

variable {sm s}

theorem EvenMove.settled (h : EvenMove sm s) : Settled sm s := ⟨h.live, h.active, .inl h.full⟩

/-- The candidate as the planner sees it. -/
def slotAt (sm : StateMachine) (s : ShardId) (c : NodeId) : NodeSlot :=
  ⟨c, (Tick.of sm).domainOf c, (before sm s).load.get c⟩

theorem mem_idleNodes {c : NodeId} :
    c ∈ idleNodes sm s ↔ c ∈ activeNodes sm ∧ c ∉ currentReplicas sm s :=
  (Tick.of sm).mem_idle

theorem nextAssignment_of_settled (h : Settled sm s) :
    (nextAssignment sm s).replicas
      = rebalance ((Tick.of sm).slots (before sm s).load) (Tick.rfOf sm) (currentReplicas sm s)
          ((idleNodes sm s).map (slotAt sm s)) := by
  have hspare : spare (currentReplicas sm s) ((Tick.of sm).slots (before sm s).load)
      = (idleNodes sm s).map (slotAt sm s) := Tick.spare_slots _ _ _
  rw [nextAssignment_eq_desired, Tick.desired, planReplicas_settled, hspare]
  · rfl
  · simpa [activeNodes] using h.active
  · rw [hspare, List.map_eq_nil_iff]
    exact h.full

section

variable (hactive : ∀ r ∈ currentReplicas sm s, r ∈ activeNodes sm) {i : Nat} {v c : NodeId}
include hactive

theorem active_of_exchange (h : Exchange sm s i v c) :
    ∀ r ∈ (currentReplicas sm s).set i c, r ∈ activeNodes sm := by
  intro r hr
  rcases List.mem_or_eq_of_mem_set hr with hr | rfl
  · exact hactive r hr
  · exact (mem_idleNodes.mp h.candidate).1

/-- The planner's view of an exchange. -/
theorem trialSwap_exchange (h : Exchange sm s i v c) :
    let move := trialSwap ((Tick.of sm).slots (before sm s).load) (currentReplicas sm s)
      (slotAt sm s c) v i
    move.domainGain = gain sm s i c ∧ move.loadDelta = delta sm s v c := by
  have hv : v ∈ activeNodes sm := hactive v (List.mem_of_getElem? h.victim)
  constructor
  · simp only [trialSwap, domainCount, gain, spread, slotAt]
    rw [domainsOf_slots _ (active_of_exchange hactive h), domainsOf_slots _ hactive]
  · simp only [trialSwap, delta, slotAt]
    rw [Tick.loadFor_slots _ (Tick.nodup_healthyIds sm) hv]

theorem mem_swaps_exchange {move : Swap} :
    move ∈ swaps ((Tick.of sm).slots (before sm s).load) (currentReplicas sm s)
        ((idleNodes sm s).map (slotAt sm s)) ↔
      ∃ i v c, Exchange sm s i v c ∧ (0 < gain sm s i c ∨ (gain sm s i c = 0 ∧ 0 < delta sm s v c)) ∧
        move = trialSwap ((Tick.of sm).slots (before sm s).load) (currentReplicas sm s)
          (slotAt sm s c) v i := by
  rw [mem_swaps]
  constructor
  · rintro ⟨_, hslot, i, v, hv, rfl, hw⟩
    obtain ⟨c, hc, rfl⟩ := List.mem_map.mp hslot
    have hx : Exchange sm s i v c := ⟨hv, hc⟩
    obtain ⟨hgain, hdelta⟩ := trialSwap_exchange hactive hx
    rw [Swap.worthwhile_iff, hgain, hdelta] at hw
    exact ⟨i, v, c, hx, hw, rfl⟩
  · rintro ⟨i, v, c, hx, hw, rfl⟩
    obtain ⟨hgain, hdelta⟩ := trialSwap_exchange hactive hx
    refine ⟨_, List.mem_map_of_mem hx.candidate, i, v, hx.victim, rfl, ?_⟩
    rw [Swap.worthwhile_iff, hgain, hdelta]
    exact hw

end

/-- **What a tick does to a settled shard**: nothing, when no exchange is worth making, and one of
the best exchanges otherwise. -/
theorem move_cases (h : Settled sm s) :
    ((nextAssignment sm s).replicas = currentReplicas sm s ∧
      ((currentReplicas sm s).length = Tick.rfOf sm → ∀ i v c, Exchange sm s i v c →
        ¬ (0 < gain sm s i c ∨ (gain sm s i c = 0 ∧ 0 < delta sm s v c)))) ∨
    ((currentReplicas sm s).length = Tick.rfOf sm ∧ ∃ i v c, Exchange sm s i v c ∧
      (nextAssignment sm s).replicas = (currentReplicas sm s).set i c ∧
      (0 < gain sm s i c ∨ (gain sm s i c = 0 ∧ 0 < delta sm s v c)) ∧
      ∀ i' v' c', Exchange sm s i' v' c' → gain sm s i' c' < gain sm s i c ∨
        (gain sm s i' c' = gain sm s i c ∧ delta sm s v' c' ≤ delta sm s v c)) := by
  rw [nextAssignment_of_settled h]
  rcases rebalance_cases ((Tick.of sm).slots (before sm s).load) (Tick.rfOf sm)
    (currentReplicas sm s) ((idleNodes sm s).map (slotAt sm s)) with
    ⟨heq, hnone⟩ | ⟨hfull, best, hbest, hmax, heq⟩
  · refine .inl ⟨heq, fun hfull i v c hx hw => ?_⟩
    have hmem := (mem_swaps_exchange h.active).mpr ⟨i, v, c, hx, hw, rfl⟩
    rw [hnone hfull] at hmem
    cases hmem
  · obtain ⟨i, v, c, hx, hw, rfl⟩ := (mem_swaps_exchange h.active).mp hbest
    obtain ⟨hgain, hdelta⟩ := trialSwap_exchange h.active hx
    refine .inr ⟨hfull, i, v, c, hx, heq, hw, fun i' v' c' hx' => ?_⟩
    by_cases hw' : 0 < gain sm s i' c' ∨ (gain sm s i' c' = 0 ∧ 0 < delta sm s v' c')
    · have hle := hmax _ ((mem_swaps_exchange h.active).mpr ⟨i', v', c', hx', hw', rfl⟩)
      obtain ⟨hgain', hdelta'⟩ := trialSwap_exchange h.active hx'
      rw [Swap.key, Swap.key, Prod.Lex.toLex_le_toLex, hgain, hdelta, hgain', hdelta'] at hle
      exact hle
    · omega

/-! ## When a shard is settled -/

/-- **One tick on the same active nodes settles every decided shard.** -/
theorem settled_reconcile (hlive : Live sm s)
    (hsame : (activeNodes (reconcile true sm)).toFinset = (activeNodes sm).toFinset) :
    Settled (reconcile true sm) s := by
  have hiff : ∀ x, x ∈ activeNodes (reconcile true sm) ↔ x ∈ activeNodes sm := by
    intro x
    rw [← List.mem_toFinset, hsame, List.mem_toFinset]
  have hlive' := live_reconcile.mpr hlive
  have hcur : currentReplicas (reconcile true sm) s = (nextAssignment sm s).replicas := by
    rw [mapped_reconcile s hlive'.1, replicasOf_reconcile_of_live hlive]
  have hplan := nextAssignment_eq_desired sm s
  have hlen : (nextAssignment sm s).replicas.length ≤ Tick.rfOf sm := by
    rw [hplan, Tick.length_desired]
    exact Nat.min_le_left _ _
  refine ⟨hlive', fun r hr => (hiff r).mpr (mem_nextAssignment_active (hcur ▸ hr)), ?_⟩
  rw [hcur, rfOf_reconcile]
  rcases Nat.lt_or_eq_of_le hlen with hshort | hfull
  · refine .inr ⟨hlen, List.eq_nil_iff_forall_not_mem.mpr (fun c hc => ?_)⟩
    obtain ⟨hc, hout⟩ := mem_idleNodes.mp hc
    rw [hplan] at hshort
    rw [hcur, hplan] at hout
    exact hout (mem_planReplicas_of_short hshort (by simpa [activeNodes] using (hiff c).mp hc))
  · exact .inl hfull

end

end FiduciaBrain.Scheduler
