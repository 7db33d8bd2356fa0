import FiduciaBrain.Scheduler.Converge
import FiduciaBrain.Scheduler.Placed

/-!
# Preferred leaders settle

With no more healthy nodes than replicas are wanted, one tick gives every decided shard all healthy
nodes, and its replicas stay (`nextAssignment_steady`). From then on a decided shard only changes its
leader, among the nodes of the best affinity, for one with less load, or with the same load that
wins the tie. The first makes the sum of the squared leader loads smaller. The second leaves it and
makes the tie rank of the shard smaller. So the pair of the two sums goes down with every change
(`potential_succ`), and after finitely many ticks nothing is proposed (`leaders_settle`).
-/

namespace FiduciaBrain.Scheduler

open Infra

/-- No more healthy nodes than replicas are wanted, and no node named twice in an assignment or in a
report. -/
structure Steady (sm : StateMachine) : Prop where
  few : (healthyNodes sm).length ≤ Tick.rfOf sm
  distinct : ∀ (s : ShardId) (a : ShardAssignment), sm.placement.get s = some a → a.replicas.Nodup
  sanitized : ∀ (id : NodeId) (info : NodeInfo), sm.membership.nodes[id]? = some info →
    info.hostedShards.Nodup

/-- The tick proposes an assignment for the shard. -/
def Proposes (sm : StateMachine) (s : ShardId) : Prop :=
  Live sm s ∧ differs (sm.placement.get s) (nextAssignment sm s) = true

instance (sm : StateMachine) : DecidablePred (Proposes sm) := fun _ => instDecidableAnd

section

variable {sm : StateMachine} {s : ShardId}

/-! ## The replicas -/

theorem activeNodes_eq_healthyNodes (h : Steady sm) : activeNodes sm = healthyNodes sm := by
  have hle : (healthyNodes sm).length ≤ max sm.plan.targetNodes (Tick.rfOf sm) :=
    h.few.trans (le_max_right _ _)
  exact if_pos hle

theorem Steady.nodup_replicas (h : Steady sm) : (nextAssignment sm s).replicas.Nodup :=
  nodup_nextAssignment (nodup_currentReplicas_of (h.distinct s) h.sanitized)

/-- **A decided shard gets every healthy node.** -/
theorem mem_nextAssignment_iff (h : Steady sm) {x : NodeId} :
    x ∈ (nextAssignment sm s).replicas ↔ x ∈ healthyNodes sm := by
  have hsub : (nextAssignment sm s).replicas.Subperm (healthyNodes sm) :=
    h.nodup_replicas.subperm (fun _ hr => activeNodes_subset (mem_nextAssignment_active hr))
  have hlen := Tick.length_desired (Tick.of sm) (before sm s).load (currentReplicas sm s)
  have hmany := @length_activeNodes_le sm s
  have hrf : (Tick.of sm).rf = Tick.rfOf sm := rfl
  have hfew := h.few
  rw [← nextAssignment_eq_desired] at hlen
  rw [activeNodes_eq_healthyNodes h, idleNodes] at hmany
  exact (hsub.perm_of_length_le (by omega)).mem_iff

theorem Steady.reconcile (h : Steady sm) : Steady (reconcile true sm) where
  few := by
    rw [healthyNodes_reconcile, rfOf_reconcile]
    exact h.few
  distinct := by
    intro s a ha
    by_cases hlive : Live sm s
    · rw [get_reconcile_of_live hlive] at ha
      split at ha
      · cases ha
      · cases ha
        exact h.nodup_replicas
    · rw [get_reconcile_of_not_live hlive] at ha
      exact h.distinct s a ha
  sanitized := by
    intro id info hinfo
    rcases reconcile_nodes sm id with heq | ⟨-, hgone⟩
    · exact h.sanitized id info (heq ▸ hinfo)
    · rw [hgone] at hinfo
      cases hinfo

theorem Steady.ticks (h : Steady sm) (k : Nat) : Steady (ticks sm k) := by
  induction k with
  | zero => exact h
  | succ k ih => exact ih.reconcile

/-- **After one tick the replicas stay.** -/
theorem nextAssignment_steady (h : Steady sm) (hlive : Live sm s) :
    (nextAssignment (reconcile true sm) s).replicas = (nextAssignment sm s).replicas := by
  have hlive' : Live (reconcile true sm) s := live_reconcile.mpr hlive
  have hcur : currentReplicas (reconcile true sm) s = (nextAssignment sm s).replicas := by
    rw [mapped_reconcile s hlive'.1, replicasOf_reconcile_of_live hlive]
  have hsame : activeNodes (reconcile true sm) = activeNodes sm := by
    rw [activeNodes_eq_healthyNodes h, activeNodes_eq_healthyNodes h.reconcile,
      healthyNodes_reconcile]
  rcases move_cases (settled_reconcile hlive (congrArg List.toFinset hsame)) with
    ⟨heq, -⟩ | ⟨-, i, v, c, hx, -⟩
  · rw [heq, hcur]
  · -- there is nobody to exchange a replica with
    obtain ⟨hc, hout⟩ := mem_idleNodes.mp hx.candidate
    rw [hcur, mem_nextAssignment_iff h] at hout
    rw [hsame, activeNodes_eq_healthyNodes h] at hc
    exact absurd hc hout

/-! ## What the choice of a leader looks at -/

/-- How well a node fits the policy of the shard. -/
def affinityAt (sm : StateMachine) (s : ShardId) (x : NodeId) : Bool ×ₗ Bool :=
  (Tick.of sm).affinity (sm.placement.policy s) x

theorem affinityAt_reconcile {x : NodeId} (hx : x ∈ healthyNodes sm) :
    affinityAt (reconcile true sm) s x = affinityAt sm s x := by
  obtain ⟨info, hinfo, hh⟩ := mem_allHealthyIds.mp hx
  have hsame : (Tick.of (reconcile true sm)).info x = (Tick.of sm).info x := by
    rw [Tick.info_eq, Tick.info_eq, hinfo, nodes_reconcile_of_healthy hinfo hh]
  simp only [affinityAt, Tick.affinity, Tick.regionOf, Tick.cloudOf, hsame, Placement.policy,
    reconcile_policies]

theorem tie_reconcile : (Tick.of (reconcile true sm)).tie = (Tick.of sm).tie := by
  funext s x
  have hsame : (Tick.of (reconcile true sm)).observedLeader s = (Tick.of sm).observedLeader s := by
    rw [Tick.observedLeader, Tick.observedLeader]
    exact congrArg _ (congrArg _ (congrArg _ healthyInfos_reconcile))
  rw [Tick.tie, Tick.tie, hsame]

/-! ## The leader of a decided shard -/

theorem policy_before : (before sm s).sm.placement.policy s = sm.placement.policy s := by
  rw [Placement.policy, Placement.policy, (sameFrame_before sm s).policies]

/-- The leader loads with the shard's own leader taken out. -/
def othersLead (sm : StateMachine) (s : ShardId) (x : NodeId) : Nat :=
  (releaseLeader (before sm s).leaderLoad (sm.placement.get s)).get x

/-- **The leader a tick wants** is the replica of the best affinity with the least load of the other
shards, and of these the one that wins the tie. -/
theorem nextLeader_max (hne : (nextAssignment sm s).replicas ≠ []) :
    ∃ l ∈ (nextAssignment sm s).replicas, (nextAssignment sm s).preferredLeader = some l ∧
      ∀ x ∈ (nextAssignment sm s).replicas,
        toLex (affinityAt sm s x, toLex (OrderDual.toDual (othersLead sm s x), (Tick.of sm).tie s x))
          ≤ toLex (affinityAt sm s l,
              toLex (OrderDual.toDual (othersLead sm s l), (Tick.of sm).tie s l)) := by
  obtain ⟨l, hl, hleader, hmax⟩ := @Tick.preferredLeader_spec (Tick.of sm) (sm.placement.policy s) s
    (releaseLeader (before sm s).leaderLoad (sm.placement.get s)) _ hne
    (fun r hr => mem_nextAssignment_active hr)
  refine ⟨l, hl, ?_, hmax⟩
  rw [nextAssignment, nextAssignment_preferredLeader, get_before, policy_before]
  exact hleader

/-- In a steady state every healthy node is asked. -/
theorem nextLeader_spec (h : Steady sm) (hne : (nextAssignment sm s).replicas ≠ []) :
    ∃ l ∈ healthyNodes sm, (nextAssignment sm s).preferredLeader = some l ∧
      ∀ x ∈ healthyNodes sm,
        toLex (affinityAt sm s x, toLex (OrderDual.toDual (othersLead sm s x), (Tick.of sm).tie s x))
          ≤ toLex (affinityAt sm s l,
              toLex (OrderDual.toDual (othersLead sm s l), (Tick.of sm).tie s l)) := by
  obtain ⟨l, hl, hleader, hmax⟩ := @nextLeader_max sm s hne
  exact ⟨l, (mem_nextAssignment_iff h).mp hl, hleader,
    fun x hx => hmax x ((mem_nextAssignment_iff h).mpr hx)⟩

theorem nextLeader_of_nil (hnil : (nextAssignment sm s).replicas = []) :
    (nextAssignment sm s).preferredLeader = none := by
  rw [nextAssignment, nextAssignment_preferredLeader]
  rw [nextAssignment] at hnil
  rw [hnil, Tick.preferredLeader_nil]

theorem leaderOf_reconcile_of_live (hlive : Live sm s) :
    leaderOf (reconcile true sm) s = (nextAssignment sm s).preferredLeader := by
  rw [leaderOf, get_reconcile_of_live hlive]
  split
  · next hnone => exact (nextLeader_of_nil hnone.2).symm
  · rfl

theorem leaderOf_reconcile_of_not_live (hlive : ¬ Live sm s) :
    leaderOf (reconcile true sm) s = leaderOf sm s := by
  rw [leaderOf, leaderOf, get_reconcile_of_not_live hlive]

/-! ## The leader loads -/

/-- The leaders of the shards, as the units that load the nodes. -/
def leaders (sm : StateMachine) (s : ShardId) : List NodeId := (leaderOf sm s).toList

theorem leaders_eq :
    leaders sm = fun s => (sm.placement.get s).elim [] (·.preferredLeader.toList) := by
  funext s
  rw [leaders, leaderOf]
  cases sm.placement.get s <;> rfl

/-- The leaders when the walk arrives at a shard. -/
def leadersAt (sm : StateMachine) (s : ShardId) : ShardId → List NodeId :=
  upTo (leaders sm) (leaders (reconcile true sm)) s

theorem before_leaderLoad {K : Finset ShardId} (hK : Covers K sm) {x : NodeId}
    (hx : x ∈ activeNodes sm) (hs : s ≤ sm.placement.shardCount) :
    (before sm s).leaderLoad x = some (loadOf K (leadersAt sm s) x) := by
  rw [leadersAt]
  induction s with
  | zero =>
    have hx' : x ∈ (Tick.of sm).healthyIds := hx
    rw [upTo_zero, leaders_eq, ← sum_snapshot hK]
    exact (start_leaderLoad sm x).trans (if_pos hx')
  | succ s ih =>
    rw [before_succ_leaderLoad, ih (Nat.le_of_succ_le hs)]
    cases hheld : (Tick.of sm).held (currentReplicas sm s) with
    | true =>
      rw [if_pos rfl, upTo_succ_of_eq]
      rw [leaders, leaders, leaderOf_reconcile_of_not_live (fun h => by simp [h.2] at hheld)]
    | false =>
      rw [loadOf_upTo_succ_eq (hK.inRange s hs), if_neg (by simp), Option.map_some, leaders, leaders,
        leaderOf_reconcile_of_live ⟨hs, hheld⟩]

theorem leadersAt_shardCount :
    leadersAt sm sm.placement.shardCount = leaders (reconcile true sm) :=
  upTo_eq_new (fun s hs => by
    rw [leaders, leaders, leaderOf_reconcile_of_not_live (fun h => Nat.not_lt.mpr hs h.1)])

theorem othersLead_eq {K : Finset ShardId} (hK : Covers K sm) {x : NodeId}
    (hx : x ∈ activeNodes sm) (hs : s ≤ sm.placement.shardCount) :
    othersLead sm s x = loadOf K (leadersAt sm s) x - (leaders sm s).count x := by
  rw [othersLead, Loads.get, releaseLeader_eq, before_leaderLoad hK hx hs]
  rfl

/-! ## The potential -/

/-- `x` leads the shard rather than `y`, all else equal. -/
def WinsTie (sm : StateMachine) (s : ShardId) (x y : NodeId) : Prop :=
  (Tick.of sm).tie s y < (Tick.of sm).tie s x

instance (sm : StateMachine) (s : ShardId) : DecidableRel (WinsTie sm s) := fun _ _ =>
  inferInstanceAs (Decidable (_ < _))

/-- How many healthy nodes win a tie against the node. -/
def tieRank (sm : StateMachine) (s : ShardId) (x : NodeId) : Nat :=
  rankIn (WinsTie sm s) (healthyNodes sm).toFinset x

theorem tieRank_lt {x y : NodeId} (hx : x ∈ healthyNodes sm) (hxy : WinsTie sm s x y) :
    tieRank sm s x < tieRank sm s y := by
  have htrans : ∀ {a b c}, WinsTie sm s a b → WinsTie sm s b c → WinsTie sm s a c :=
    fun hab hbc => lt_trans hbc hab
  have hirrefl : ∀ a, ¬ WinsTie sm s a a := fun _ => lt_irrefl _
  exact @rankIn_lt _ (WinsTie sm s) _ htrans hirrefl _ _ _ (List.mem_toFinset.mpr hx) hxy

theorem tieRank_reconcile : tieRank (reconcile true sm) = tieRank sm := by
  funext s x
  rw [tieRank, tieRank, rankIn, rankIn, healthyNodes_reconcile]
  refine congrArg Finset.card (Finset.filter_congr (fun y _ => ?_))
  rw [WinsTie, WinsTie, tie_reconcile]

/-- The sum of the squared leader loads first, the sum of the tie ranks second. -/
def potential (K : Finset ShardId) (sm : StateMachine) (layout : ShardId → List NodeId) : ℕ ×ₗ ℕ :=
  toLex (energy (healthyNodes sm).toFinset (loadOf K layout),
    ∑ s ∈ K, ((layout s).map (tieRank sm s)).sum)

theorem potential_reconcile (K : Finset ShardId) :
    potential K (reconcile true sm) = potential K sm := by
  funext layout
  simp only [potential, tieRank_reconcile, healthyNodes_reconcile]

/-- **A change of leader** to a node with no more load, which wins the tie if it has as much, makes
the potential smaller. -/
theorem potential_lt {K : Finset ShardId} (hs : s ∈ K) {l l' : NodeId} (hl : l ∈ healthyNodes sm)
    (hl' : l' ∈ healthyNodes sm) (hne : l ≠ l') (hold : leaders sm s = [l])
    (hnew : leaders (reconcile true sm) s = [l'])
    (hload : loadOf K (leadersAt sm s) l' + 1 < loadOf K (leadersAt sm s) l ∨
      (loadOf K (leadersAt sm s) l' + 1 = loadOf K (leadersAt sm s) l ∧ WinsTie sm s l' l)) :
    potential K sm (leadersAt sm (s + 1)) < potential K sm (leadersAt sm s) := by
  have hmove : ∀ x, loadOf K (leadersAt sm (s + 1)) x + [l].count x
      = loadOf K (leadersAt sm s) x + [l'].count x := by
    intro x
    rw [← hold, ← hnew]
    exact loadOf_upTo_succ hs x
  have hranks : ∑ i ∈ K, ((leadersAt sm (s + 1) i).map (tieRank sm i)).sum + tieRank sm s l
      = ∑ i ∈ K, ((leadersAt sm s i).map (tieRank sm i)).sum + tieRank sm s l' := by
    have h := @sum_upTo_succ _ K (fun i layout => (layout.map (tieRank sm i)).sum) (leaders sm)
      (leaders (reconcile true sm)) s hs
    simpa only [leadersAt, hold, hnew, List.map_cons, List.map_nil, List.sum_cons, List.sum_nil,
      Nat.add_zero] using h
  have henergy : energy (healthyNodes sm).toFinset (loadOf K (leadersAt sm (s + 1)))
        + 2 * loadOf K (leadersAt sm s) l
      = energy (healthyNodes sm).toFinset (loadOf K (leadersAt sm s))
        + 2 * loadOf K (leadersAt sm s) l' + 2 :=
    energy_move (List.mem_toFinset.mpr hl) (List.mem_toFinset.mpr hl') hne
      (by simpa [hne.symm] using hmove l) (by simpa [hne] using hmove l')
      (fun x _ hx hx' => by simpa [Ne.symm hx, Ne.symm hx'] using hmove x)
  rw [potential, potential, Prod.Lex.toLex_lt_toLex]
  rcases hload with hless | ⟨heq, hwins⟩
  · exact .inl (by omega)
  · have hrank := tieRank_lt hl' hwins
    exact .inr ⟨by omega, by omega⟩

/-! ## A walk after the first tick -/

/-- No node has a better affinity than the leader a tick wants. One with the same has more load, or
as much and loses the tie. -/
theorem nextLeader_best (h : Steady sm) (hne : (nextAssignment sm s).replicas ≠ []) :
    ∃ l ∈ healthyNodes sm, (nextAssignment sm s).preferredLeader = some l ∧
      ∀ x ∈ healthyNodes sm, affinityAt sm s x ≤ affinityAt sm s l ∧
        (affinityAt sm s x = affinityAt sm s l → x ≠ l →
          othersLead sm s l < othersLead sm s x ∨
          (othersLead sm s l = othersLead sm s x ∧ WinsTie sm s l x)) := by
  obtain ⟨l, hl, hleader, hmax⟩ := nextLeader_spec h hne
  refine ⟨l, hl, hleader, fun x hx => ?_⟩
  have hkey := hmax x hx
  rw [Prod.Lex.toLex_le_toLex, Prod.Lex.toLex_le_toLex, OrderDual.toDual_lt_toDual,
    OrderDual.toDual_inj] at hkey
  refine ⟨?_, fun heq hxl => ?_⟩
  · rcases hkey with hlt | ⟨heq, -⟩
    · exact hlt.le
    · exact heq.le
  · rcases hkey with hlt | ⟨-, hless | ⟨hsame, htie⟩⟩
    · exact absurd heq hlt.ne
    · exact .inl hless
    · refine .inr ⟨hsame.symm, lt_of_le_of_ne htie (fun heq => hxl ?_)⟩
      exact congrArg (fun k => OrderDual.ofDual (ofLex k).2) heq

/-- After a tick the leader of a decided shard with replicas has the best affinity. -/
theorem leaderOf_reconcile (h : Steady sm) (hlive : Live sm s)
    (hne : (nextAssignment sm s).replicas ≠ []) :
    ∃ l ∈ healthyNodes sm, leaderOf (reconcile true sm) s = some l ∧
      ∀ x ∈ healthyNodes sm,
        affinityAt (reconcile true sm) s x ≤ affinityAt (reconcile true sm) s l := by
  obtain ⟨l, hl, hleader, hmax⟩ := nextLeader_best h hne
  refine ⟨l, hl, (leaderOf_reconcile_of_live hlive).trans hleader, fun x hx => ?_⟩
  rw [affinityAt_reconcile hx, affinityAt_reconcile hl]
  exact (hmax x hx).1

/-- **One shard of a walk after the first tick**: it keeps its leader, or the potential gets
smaller. -/
theorem potential_succ (h : Steady sm) {K : Finset ShardId} (hK : Covers K (reconcile true sm))
    (hs : s < (reconcile true sm).placement.shardCount) :
    let sm' := reconcile true sm
    leaders (reconcile true sm') s = leaders sm' s ∨
      potential K sm' (leadersAt sm' (s + 1)) < potential K sm' (leadersAt sm' s) := by
  intro sm'
  by_cases hlive : Live sm s
  · have hlive' : Live sm' s := live_reconcile.mpr hlive
    by_cases hnil : (nextAssignment sm s).replicas = []
    · -- nobody is healthy, and nobody leads
      have hnil' : (nextAssignment sm' s).replicas = [] := (nextAssignment_steady h hlive).trans hnil
      refine .inl ?_
      rw [leaders, leaders, leaderOf_reconcile_of_live hlive', leaderOf_reconcile_of_live hlive,
        nextLeader_of_nil hnil, nextLeader_of_nil hnil']
    · have hne' : (nextAssignment sm' s).replicas ≠ [] := by
        rwa [nextAssignment_steady h hlive]
      obtain ⟨l, hl, hold, hbest⟩ := leaderOf_reconcile h hlive hnil
      obtain ⟨l', hl', hnew, hmax⟩ := nextLeader_best h.reconcile hne'
      have holds : leaders sm' s = [l] := by rw [leaders, hold, Option.toList_some]
      have hnews : leaders (reconcile true sm') s = [l'] := by
        rw [leaders, leaderOf_reconcile_of_live hlive', hnew, Option.toList_some]
      rcases eq_or_ne l l' with rfl | hne
      · exact .inl (hnews.trans holds.symm)
      · have hhealthy : l ∈ healthyNodes sm' := mem_healthyNodes_reconcile.mpr hl
        have hactive := activeNodes_eq_healthyNodes h.reconcile
        obtain ⟨hle, hrest⟩ := hmax l hhealthy
        have hload := hrest (le_antisymm hle (hbest l' (mem_healthyNodes_reconcile.mp hl'))) hne
        have hothers : ∀ x ∈ healthyNodes sm',
            othersLead sm' s x = loadOf K (leadersAt sm' s) x - (leaders sm' s).count x :=
          fun x hx => othersLead_eq hK (hactive ▸ hx) hs.le
        rw [hothers l' hl', hothers l hhealthy, holds, List.count_singleton_self,
          List.count_singleton, if_neg (by simpa using hne)] at hload
        have hown := @count_le_loadOf _ _ _ K (leadersAt sm' s) s (hK.inRange s hs) l
        rw [leadersAt, upTo_self, holds, List.count_singleton_self, ← leadersAt] at hown
        refine .inr (potential_lt (hK.inRange s hs) hhealthy hl' hne holds hnews ?_)
        rcases hload with hless | ⟨hsame, hwins⟩
        · exact .inl (by omega)
        · exact .inr ⟨by omega, hwins⟩
  · have hlive' : ¬ Live sm' s := fun h => hlive (live_reconcile.mp h)
    refine .inl ?_
    rw [leaders, leaders, leaderOf_reconcile_of_not_live hlive']

/-- **The whole walk**: the potential is no larger, and the same only if every leader stays. -/
theorem potential_walk (h : Steady sm) {K : Finset ShardId} (hK : Covers K sm) :
    let sm' := reconcile true sm
    potential K sm' (leaders (reconcile true sm')) ≤ potential K sm' (leaders sm') ∧
      (potential K sm' (leaders (reconcile true sm')) = potential K sm' (leaders sm') →
        leaders (reconcile true sm') = leaders sm') := by
  intro sm'
  have hbeyond : ∀ s, sm'.placement.shardCount ≤ s →
      leaders (reconcile true sm') s = leaders sm' s := by
    intro s hs
    rw [leaders, leaders, leaderOf_reconcile_of_not_live (fun hlive => Nat.not_lt.mpr hs hlive.1)]
  have hwalk := upTo_measure (potential K sm')
    (fun n (hn : n < sm'.placement.shardCount) => potential_succ h hK.reconcile hn)
  rw [upTo_eq_new hbeyond] at hwalk
  refine ⟨hwalk.1, fun heq => funext (fun s => ?_)⟩
  rcases Nat.lt_or_ge s sm'.placement.shardCount with hs | hs
  · exact hwalk.2 heq s hs
  · exact hbeyond s hs

/-! ## Proposals -/

/-- A tick that proposes nothing leaves the map alone, its generation included. -/
theorem placement_reconcile (h : ∀ s, ¬ Proposes sm s) :
    (reconcile true sm).placement = sm.placement := by
  have hwalk : ∀ n ≤ sm.placement.shardCount, (before sm n).sm = sm := by
    intro n hn
    induction n with
    | zero => rfl
    | succ n ih =>
      have hbefore := ih (Nat.le_of_succ_le hn)
      have hstep : before sm (n + 1) = reconcileShard (Tick.of sm) (before sm n) n :=
        Tick.walk_succ _ _ n
      rw [hstep]
      cases hheld : (Tick.of sm).held (currentReplicas sm n) with
      | true => rw [reconcileShard_of_held (by rwa [replicasAt_before]), hbefore]
      | false =>
        have hsame : differs (sm.placement.get n) (nextAssignment sm n) = false := by
          rw [← Bool.not_eq_true]
          exact fun hd => h n ⟨⟨hn, hheld⟩, hd⟩
        rw [reconcileShard_of_not_held (by rwa [replicasAt_before]), get_before, ← nextAssignment,
          hsame, hbefore]
        rfl
  rw [reconcile, if_pos rfl, (finalizeScaleDown_placement _ _).1]
  exact congrArg (·.placement) (hwalk _ (le_refl _))

/-- **After the first tick only a change of leader is proposed.** -/
theorem not_proposes (h : Steady sm)
    (hsame : leaders (reconcile true (reconcile true sm)) = leaders (reconcile true sm)) :
    ¬ Proposes (reconcile true sm) s := by
  rintro ⟨hlive', hdiffers⟩
  have hlive : Live sm s := live_reconcile.mp hlive'
  have hreplicas := nextAssignment_steady h hlive
  have hleader : (nextAssignment (reconcile true sm) s).preferredLeader
      = (nextAssignment sm s).preferredLeader := by
    have hheads := congrArg List.head? (congrFun hsame s)
    rwa [leaders, leaders, Option.head?_toList, Option.head?_toList,
      leaderOf_reconcile_of_live hlive', leaderOf_reconcile_of_live hlive] at hheads
  have hpolicy : ∀ sm : StateMachine,
      (nextAssignment sm s).preferredRegion = (sm.placement.policies[s]?).bind (·.homeRegion) ∧
      (nextAssignment sm s).preferredCloudProvider
        = (sm.placement.policies[s]?).bind (·.preferredCloudProvider) := by
    intro sm
    rw [nextAssignment, Tick.nextAssignment, policy_before]
    exact ⟨rfl, rfl⟩
  rw [get_reconcile_of_live hlive] at hdiffers
  split at hdiffers
  · next hnone =>
    rw [differs, hreplicas, hnone.2] at hdiffers
    cases hdiffers
  · simp only [differs, decide_eq_true_eq, hreplicas, hleader, (hpolicy _).1, (hpolicy _).2,
      reconcile_policies, ne_eq, not_true_eq_false, or_self] at hdiffers

end

/-! ## Runs of ticks -/

theorem potential_ticks (K : Finset ShardId) (sm : StateMachine) (k : Nat) :
    potential K (ticks sm k) = potential K sm :=
  @ticks_eq_of_reconcile _ (potential K) (fun _ => potential_reconcile K) sm k

/-- **Preferred leaders settle**: after finitely many ticks no tick proposes an assignment, and the
map with its generation stays as it is. -/
theorem leaders_settle {sm : StateMachine} (h : Steady sm) :
    ∃ N, ∀ k, N ≤ k → (∀ s, ¬ Proposes (ticks sm k) s) ∧
      (ticks sm (k + 1)).placement = (ticks sm k).placement := by
  obtain ⟨K, hK⟩ := exists_covers sm
  have hwalk : ∀ k, 1 ≤ k →
      potential K sm (leaders (ticks sm (k + 1))) ≤ potential K sm (leaders (ticks sm k)) ∧
        (potential K sm (leaders (ticks sm (k + 1))) = potential K sm (leaders (ticks sm k)) →
          leaders (ticks sm (k + 1)) = leaders (ticks sm k)) := by
    intro k hk
    obtain ⟨j, rfl⟩ := Nat.exists_eq_add_of_le' hk
    have hstep := potential_walk (h.ticks j) (hK.ticks j)
    simp only [potential_reconcile, potential_ticks] at hstep
    exact hstep
  obtain ⟨N, hN, hconst⟩ := eventually_const (f := fun k => potential K sm (leaders (ticks sm k)))
    (fun k hk => (hwalk k hk).1)
  refine ⟨N, fun k hk => ?_⟩
  have hsame := (hwalk k (hN.trans hk)).2 (hconst k hk)
  obtain ⟨j, rfl⟩ := Nat.exists_eq_add_of_le' (hN.trans hk)
  have hquiet : ∀ s, ¬ Proposes (ticks sm (j + 1)) s := fun s => not_proposes (h.ticks j) hsame
  exact ⟨hquiet, placement_reconcile hquiet⟩

/-- The snapshots say whether a state is steady. -/
theorem steady_of_snapshots {sm : StateMachine} (hfew : (healthyNodes sm).length ≤ Tick.rfOf sm)
    (hdistinct : ∀ a ∈ sm.placement.snapshot, a.replicas.Nodup)
    (hsanitized : ∀ info ∈ sm.membership.snapshot, info.hostedShards.Nodup) : Steady sm where
  few := hfew
  distinct := by
    intro s a ha
    have hkey : a.shardId = s := shardId_of_get ha
    exact hdistinct a (Assignments.mem_snapshot.mpr (hkey ▸ ha))
  sanitized := by
    intro id info hinfo
    have hkey : info.nodeId = id := sm.membership.keyed id info hinfo
    exact hsanitized info (Membership.mem_snapshot.mpr (hkey ▸ hinfo))

/-- Two nodes for two replicas, and both shards led by the same one. -/
def oneLeads : StateMachine where
  membership := registryOf [("a", "gcp", 0), ("b", "aws", 0)]
  placement := ((Placement.new 2).assign ⟨0, ["a", "b"], some "a", none, none⟩).assign
    ⟨1, ["a", "b"], some "a", none, none⟩
  plan := ⟨2, 2⟩

/-- The first tick gives one of the two shards to the other node. -/
theorem leaders_settle_oneLeads :
    Proposes oneLeads 0 ∧
      ∃ N, ∀ k, N ≤ k → (∀ s, ¬ Proposes (ticks oneLeads k) s) ∧
        (ticks oneLeads (k + 1)).placement = (ticks oneLeads k).placement :=
  ⟨by decide +kernel, leaders_settle
    (steady_of_snapshots (by decide +kernel) (by decide +kernel) (by decide +kernel))⟩

end FiduciaBrain.Scheduler
