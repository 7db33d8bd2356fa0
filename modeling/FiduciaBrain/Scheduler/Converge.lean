import FiduciaBrain.Scheduler.Moves

/-!
# Does reconciliation come to rest?

Three measures in a row. The active nodes settle (`activeNodes_settle`). On the same active nodes no
exchange loses a failure domain, so the domains the decided shards cover settle too
(`spread_settles`). From then on an exchange only evens out loads, and unless it is an even one it
makes the sum of the squared loads smaller (`energy_walk`). So the replica sets come to rest exactly
when the even exchanges do (`settles_iff`); `oscillating` is a cluster where they do not.
-/

namespace FiduciaBrain.Scheduler

open Infra

/-- After finitely many ticks no tick changes a replica set any more. -/
def Settles (sm : StateMachine) : Prop :=
  ∃ N, ∀ k, N ≤ k → ∀ s,
    (replicasOf (ticks sm k) s).toFinset = (replicasOf (ticks sm N) s).toFinset

section

variable {sm : StateMachine} {s : ShardId}

/-! ## The spread of a settled shard -/

theorem spread_le_rf (h : Settled sm s) : spread sm (currentReplicas sm s) ≤ Tick.rfOf sm :=
  (card_colours_le_length _ _).trans (by rcases h.full with hfull | ⟨hle, -⟩ <;> omega)

theorem spread_le_next (h : Settled sm s) :
    spread sm (currentReplicas sm s) ≤ spread sm (nextAssignment sm s).replicas := by
  rcases move_cases h with ⟨heq, -⟩ | ⟨-, i, v, c, -, heq, hw, -⟩
  · rw [heq]
  · rw [heq]
    simp only [gain] at hw
    omega

/-! ## The loads of a walk over settled shards -/

/-- An exchange moves one unit of load from the replica to the candidate. -/
theorem loadOf_exchange {K : Finset ShardId} (hs : s ∈ K) (hlive : Live sm s) (hmap : Mapped sm)
    {i : Nat} {v c : NodeId} (hx : Exchange sm s i v c)
    (hnext : (nextAssignment sm s).replicas = (currentReplicas sm s).set i c) (x : NodeId) :
    loadOf K (layoutAt sm (s + 1)) x + (if v = x then 1 else 0)
      = loadOf K (layoutAt sm s) x + (if c = x then 1 else 0) := by
  have hchange : loadOf K (layoutAt sm (s + 1)) x + (replicasOf sm s).count x
      = loadOf K (layoutAt sm s) x + (replicasOf (reconcile true sm) s).count x :=
    loadOf_upTo_succ hs x
  have hmove := count_set_move hx.victim c x
  rw [replicasOf_reconcile_of_live hlive, hnext, ← hmap s hlive.1] at hchange
  omega

/-- **One shard of a walk makes the sum of the squares no larger**, and smaller when it changes. -/
theorem energy_succ {K : Finset ShardId} (hK : Covers K sm) (hmap : Mapped sm)
    (hs : s < sm.placement.shardCount) (hset : Live sm s → Settled sm s)
    (hspread : Live sm s →
      spread sm (nextAssignment sm s).replicas = spread sm (currentReplicas sm s))
    (heven : ¬ EvenMove sm s) :
    let E := fun s => energy (activeNodes sm).toFinset (loadOf K (layoutAt sm s))
    replicasOf (reconcile true sm) s = replicasOf sm s ∨ E (s + 1) < E s := by
  intro E
  by_cases hlive : Live sm s
  · have h := hset hlive
    rcases move_cases h with ⟨heq, -⟩ | ⟨hfull, i, v, c, hx, heq, hw, hbest⟩
    · have hrep : replicasOf (reconcile true sm) s = replicasOf sm s := by
        rw [replicasOf_reconcile_of_live hlive, heq, hmap s hs]
      exact .inl hrep
    · refine .inr ?_
      have hv : v ∈ activeNodes sm := h.active v (List.mem_of_getElem? hx.victim)
      obtain ⟨hc, hout⟩ := mem_idleNodes.mp hx.candidate
      have hne : v ≠ c := fun h => hout (h ▸ List.mem_of_getElem? hx.victim)
      have hgain : gain sm s i c = 0 := by
        have := hspread hlive
        rw [heq] at this
        simp only [gain]
        omega
      have hload : ∀ y ∈ activeNodes sm,
          (before sm s).load.get y = loadOf K (layoutAt sm s) y := by
        intro y hy
        rw [Loads.get, before_load hmap hK hy hs.le, Option.getD_some]
      -- an exchange at a difference of one would be even
      have hdelta : 2 ≤ delta sm s v c := by
        by_contra hsmall
        refine heven ⟨hlive, h.active, hfull, ⟨i, v, c, hx, hgain, by omega⟩, ?_⟩
        intro i' v' c' hx'
        have := hbest i' v' c' hx'
        omega
      simp only [delta, hload v hv, hload c hc] at hdelta
      have hmove := loadOf_exchange (hK.inRange s hs) hlive hmap hx heq
      have henergy : E (s + 1) + 2 * loadOf K (layoutAt sm s) v
          = E s + 2 * loadOf K (layoutAt sm s) c + 2 :=
        energy_move (List.mem_toFinset.mpr hv) (List.mem_toFinset.mpr hc) hne
          (by simpa [hne.symm] using hmove v) (by simpa [hne] using hmove c)
          (fun x _ hxv hxc => by simpa [Ne.symm hxv, Ne.symm hxc] using hmove x)
      omega
  · exact .inl (replicasOf_reconcile_of_not_live hlive)

/-- **The whole walk**: the sum of the squares is no larger, and smaller when some shard changes. -/
theorem energy_walk {K : Finset ShardId} (hK : Covers K sm) (hmap : Mapped sm)
    (hset : ∀ s, Live sm s → Settled sm s)
    (hspread : ∀ s, Live sm s →
      spread sm (nextAssignment sm s).replicas = spread sm (currentReplicas sm s))
    (heven : ∀ s, ¬ EvenMove sm s) :
    let E := fun layout => energy (activeNodes sm).toFinset (loadOf K layout)
    E (replicasOf (reconcile true sm)) ≤ E (replicasOf sm) ∧
      (E (replicasOf (reconcile true sm)) = E (replicasOf sm) →
        replicasOf (reconcile true sm) = replicasOf sm) := by
  intro E
  have hwalk := @upTo_measure _ (replicasOf sm) (replicasOf (reconcile true sm)) _ _ E
    sm.placement.shardCount (fun n hn => energy_succ hK hmap hn (hset n) (hspread n) (heven n))
  rw [← layoutAt_eq, layoutAt_shardCount] at hwalk
  obtain ⟨hle, hall⟩ := hwalk
  refine ⟨hle, fun h => funext (fun s => ?_)⟩
  by_cases hs : s < sm.placement.shardCount
  · exact hall h s hs
  · exact replicasOf_reconcile_of_not_live (fun hlive => hs hlive.1)

/-- An even exchange changes the replica set. -/
theorem EvenMove.changes (hmap : Mapped sm) (h : EvenMove sm s) :
    (replicasOf (reconcile true sm) s).toFinset ≠ (replicasOf sm s).toFinset := by
  rw [replicasOf_reconcile_of_live h.live, ← hmap s h.live.1]
  rcases move_cases h.settled with ⟨-, hnone⟩ | ⟨-, i, v, c, hx, heq, -, -⟩
  · obtain ⟨i, v, c, hx, hgain, hdelta⟩ := h.even
    exact absurd (.inr ⟨hgain, by omega⟩) (hnone h.full i v c hx)
  · intro hsame
    have hi : i < (currentReplicas sm s).length := (List.getElem?_eq_some_iff.mp hx.victim).1
    have hc : c ∈ (nextAssignment sm s).replicas.toFinset := by
      rw [heq]
      exact List.mem_toFinset.mpr (List.mem_set hi c)
    rw [hsame] at hc
    exact (mem_idleNodes.mp hx.candidate).2 (List.mem_toFinset.mp hc)

end

/-! ## Runs of ticks -/

section

variable (sm : StateMachine)

/-- From some tick on the active nodes are the same and every decided shard is settled. -/
theorem ticks_settled :
    ∃ N, ∀ k, N ≤ k → Mapped (ticks sm k) ∧
      (activeNodes (ticks sm (k + 1))).toFinset = (activeNodes (ticks sm k)).toFinset ∧
      ∀ s, Live (ticks sm k) s → Settled (ticks sm k) s := by
  obtain ⟨N, hN⟩ := activeNodes_settle sm
  refine ⟨N + 1, fun k hk => ?_⟩
  obtain ⟨j, rfl⟩ := Nat.exists_eq_add_of_le' (Nat.le_trans (Nat.le_add_left 1 N) hk)
  refine ⟨mapped_reconcile, hN _ (by omega), fun s hs => ?_⟩
  exact settled_reconcile (live_reconcile.mp hs) (hN j (by omega))

/-- The domains the decided shards miss. -/
def missing (k : Nat) : Nat :=
  ∑ s ∈ Finset.range sm.placement.shardCount with Live sm s,
    (Tick.rfOf sm - spread (ticks sm k) (currentReplicas (ticks sm k) s))

/-- What a decided shard covers after a tick. -/
theorem spread_currentReplicas_succ {k : Nat} {s : ShardId} (hlive : Live (ticks sm k) s) :
    spread (ticks sm (k + 1)) (currentReplicas (ticks sm (k + 1)) s)
      = spread (ticks sm k) (nextAssignment (ticks sm k) s).replicas := by
  have hlive' : Live (reconcile true (ticks sm k)) s := live_reconcile.mpr hlive
  rw [ticks, mapped_reconcile s hlive'.1, replicasOf_reconcile_of_live hlive]
  exact spread_reconcile (fun r hr => activeNodes_subset (mem_nextAssignment_active hr))

/-- From some tick on no exchange gains a failure domain. -/
theorem spread_settles {N : Nat}
    (hN : ∀ k, N ≤ k → ∀ s, Live (ticks sm k) s → Settled (ticks sm k) s) :
    ∃ M, N ≤ M ∧ ∀ k, M ≤ k → ∀ s, Live (ticks sm k) s →
      spread (ticks sm k) (nextAssignment (ticks sm k) s).replicas
        = spread (ticks sm k) (currentReplicas (ticks sm k) s) := by
  have hterm : ∀ k, N ≤ k → ∀ s ∈ (Finset.range sm.placement.shardCount).filter (Live sm),
      Tick.rfOf sm - spread (ticks sm (k + 1)) (currentReplicas (ticks sm (k + 1)) s)
        ≤ Tick.rfOf sm - spread (ticks sm k) (currentReplicas (ticks sm k) s) := by
    intro k hk s hs
    have hlive : Live (ticks sm k) s := (live_ticks sm k s).mpr (Finset.mem_filter.mp hs).2
    rw [spread_currentReplicas_succ sm hlive]
    exact Nat.sub_le_sub_left (spread_le_next (hN k hk s hlive)) _
  obtain ⟨M, hM, hconst⟩ := eventually_const (f := missing sm)
    (fun k hk => Finset.sum_le_sum (hterm k hk))
  refine ⟨M, hM, fun k hk s hlive => ?_⟩
  have hk' := hM.trans hk
  have hmem : s ∈ (Finset.range sm.placement.shardCount).filter (Live sm) := by
    have hlive0 := (live_ticks sm k s).mp hlive
    exact Finset.mem_filter.mpr ⟨Finset.mem_range.mpr hlive0.1, hlive0⟩
  have heq := (Finset.sum_eq_sum_iff_of_le (hterm k hk')).mp (hconst k hk) s hmem
  have hnext : spread (ticks sm (k + 1)) (currentReplicas (ticks sm (k + 1)) s) ≤ Tick.rfOf sm := by
    have hset := hN (k + 1) (Nat.le_succ_of_le hk') s (live_reconcile.mpr hlive)
    exact (spread_le_rf hset).trans_eq (rfOf_ticks sm (k + 1))
  have hcur := spread_le_next (hN k hk' s hlive)
  rw [spread_currentReplicas_succ sm hlive] at heq hnext
  omega

/-- **Ticks come to rest exactly when the even exchanges do.** -/
theorem settles_iff :
    Settles sm ↔ ∃ N, ∀ k, N ≤ k → ∀ s, ¬ EvenMove (ticks sm k) s := by
  constructor
  · rintro ⟨N, hN⟩
    refine ⟨N + 1, fun k hk s heven => ?_⟩
    obtain ⟨j, rfl⟩ := Nat.exists_eq_add_of_le' (Nat.le_trans (Nat.le_add_left 1 N) hk)
    refine heven.changes mapped_reconcile ?_
    exact (hN (j + 1 + 1) (by omega) s).trans (hN (j + 1) (by omega) s).symm
  · rintro ⟨N, heven⟩
    obtain ⟨N₁, hset⟩ := ticks_settled sm
    obtain ⟨N₂, hN₂, hspread⟩ := spread_settles sm (fun k hk => (hset k hk).2.2)
    obtain ⟨K, hK⟩ := exists_covers sm
    have hactive : ∀ k, N₁ ≤ k →
        (activeNodes (ticks sm k)).toFinset = (activeNodes (ticks sm N₁)).toFinset :=
      const_of_steps (x := fun k => (activeNodes (ticks sm k)).toFinset)
        (fun k hk => (hset k hk).2.1)
    have hwalk : ∀ k, max N N₂ ≤ k → _ := fun k hk =>
      energy_walk (hK.ticks k) (hset k (by omega)).1 (hset k (by omega)).2.2
        (hspread k (by omega)) (heven k (by omega))
    obtain ⟨M, hM, hconst⟩ := eventually_const (N := max N N₂)
      (f := fun k => energy (activeNodes (ticks sm N₁)).toFinset (loadOf K (replicasOf (ticks sm k))))
      (fun k hk => by
        have h := (hwalk k hk).1
        rwa [hactive k (by omega)] at h)
    have hrest : ∀ k, M ≤ k → replicasOf (ticks sm (k + 1)) = replicasOf (ticks sm k) := by
      intro k hk
      refine (hwalk k (hM.trans hk)).2 ?_
      rw [hactive k (by omega)]
      exact hconst k hk
    refine ⟨M, fun k hk s => ?_⟩
    rw [const_of_steps (x := fun k => replicasOf (ticks sm k)) hrest k hk]

end

/-! ## A cluster that never comes to rest -/

/-- Two nodes in one domain and one in each of two others, all of them active, and one shard on
three of them. -/
def oscillating : StateMachine where
  membership := registryOf [("a", "gcp", 0), ("b", "aws", 0), ("c", "hetzner", 0), ("d", "gcp", 0)]
  placement := (Placement.new 1).assign ⟨0, ["a", "b", "c"], some "a", none, none⟩
  plan := ⟨4, 3⟩

theorem oscillating_period :
    ∃ g, ticks oscillating 2 = withGeneration oscillating g := by
  refine ⟨_, eq_withGeneration (by decide +kernel) (by decide +kernel) ?_ ?_ ?_⟩
  · rw [ticks, ticks, reconcile_plan, reconcile_plan]
    rfl
  · exact shardCount_ticks oscillating 2
  · rw [ticks, ticks, reconcile_policies, reconcile_policies]
    rfl

/-- **The replica goes back and forth** between the two nodes of one domain: each is empty whenever
the other holds the replica. -/
theorem oscillating_never_settles : ¬ Settles oscillating := by
  rintro ⟨N, hN⟩
  obtain ⟨g, hperiod⟩ := oscillating_period
  obtain ⟨g', hback⟩ := ticks_mul_period hperiod N
  obtain ⟨g'', hmoved⟩ := reconcile_withGeneration oscillating g'
  have hthere : replicasOf (ticks oscillating (2 * N)) 0 = ["a", "b", "c"] := by
    rw [hback]
    show replicasOf oscillating 0 = ["a", "b", "c"]
    decide +kernel
  have haway : replicasOf (ticks oscillating (2 * N + 1)) 0 = ["d", "b", "c"] := by
    rw [ticks, hback, hmoved]
    show replicasOf (reconcile true oscillating) 0 = ["d", "b", "c"]
    decide +kernel
  have hsame := (hN (2 * N) (by omega) 0).trans (hN (2 * N + 1) (by omega) 0).symm
  rw [hthere, haway] at hsame
  exact absurd hsame (by decide +kernel)

end FiduciaBrain.Scheduler
