import FiduciaBrain.Reconfiguration.Safety
import FiduciaBrain.Scheduler.Suspect

/-!
# What the scheduler publishes can be enacted

`src/scheduler.rs` publishes a target and leaves its execution to the data plane, one replica at a
time. Here the two meet: a replica set that a tick publishes for a full shard is reached by complete
moves, each of them enabled when its turn comes, and no state on the way is below the quorum floor.
-/

namespace FiduciaBrain.Reconfiguration

open Infra

variable {α : Type} [DecidableEq α] {c : Params α} {s s' : State α}

/-! ## One move -/

/-- The stages up to the promotion. -/
def promoteActions (source target : α) : List (Action α) :=
  [.planMove source target, .addLearner, .catchUpLearner, .promoteLearner]

/-- The stages after it. The leader hands over to the new voter if it is the one to go. -/
def replaceActions (s : State α) (source target : α) : List (Action α) :=
  (if s.leader = source then [.transferLeader target] else []) ++ [.removeOldVoter]

/-- A complete move. -/
def moveActions (s : State α) (source target : α) : List (Action α) :=
  promoteActions source target ++ replaceActions s source target

/-- The state that the promotion leads to. -/
def promotedState (s : State α) (source target : α) : State α :=
  { s with
    voters := insert target s.voters
    learners := (insert target s.learners).erase target
    phase := .promoted
    moveFrom := source
    moveTo := target
    votersBeforeMove := s.voters
    knownAtPlan := s.known
    healthyAtPlan := s.healthy
    lastEvent := .promotedEvent }

theorem execute_promoteActions {source target : α}
    (he : (Action.planMove source target).Enabled c s) :
    execute c s (promoteActions source target) = some (promotedState s source target) := by
  obtain ⟨hphase, hcomplete, hrf, hsource, hknown, hfresh, hhealthy⟩ := he
  simp [promoteActions, promotedState, execute, runAll, fire, fireIf, Action.Enabled, Action.apply, hphase,
    hcomplete, hrf, hsource, hknown, hfresh, hhealthy]

/-- Where a complete move leads. -/
structure Moved (s : State α) (source target : α) (s' : State α) : Prop where
  stable : s'.phase = .stable
  voters : s'.voters = (insert target s.voters).erase source
  known : s'.known = s.known
  healthy : s'.healthy = s.healthy

theorem execute_replaceActions {source target : α} (hsource : source ∈ s.voters)
    (hne : target ≠ source) (hhealthy : target ∈ s.healthy) :
    ∃ s', execute c (promotedState s source target) (replaceActions s source target) = some s' ∧
      Moved s source target s' := by
  have hremove : ∀ leader, leader ≠ source → ∀ event, Action.removeOldVoter.Enabled c
      { promotedState s source target with leader := leader, lastEvent := event } :=
    fun leader hleader event =>
      ⟨rfl, Finset.mem_insert_of_mem hsource, Finset.mem_insert_self _ _, hhealthy, hleader⟩
  unfold replaceActions
  by_cases hleader : s.leader = source
  · have htransfer : (Action.transferLeader target).Enabled c (promotedState s source target) :=
      ⟨Finset.mem_insert_self _ _, hhealthy, fun h => hne (h.trans hleader)⟩
    rw [if_pos hleader]
    exact ⟨_, runAll_cons.mpr ⟨_, fire_eq_some.mpr ⟨htransfer, rfl⟩,
      runAll_cons.mpr ⟨_, fire_eq_some.mpr ⟨hremove target hne _, rfl⟩, rfl⟩⟩, rfl, rfl, rfl, rfl⟩
  · rw [if_neg hleader]
    exact ⟨_, runAll_cons.mpr ⟨_, fire_eq_some.mpr ⟨hremove s.leader hleader _, rfl⟩, rfl⟩,
      rfl, rfl, rfl, rfl⟩

theorem execute_moveActions {source target : α} (he : (Action.planMove source target).Enabled c s) :
    ∃ s', execute c s (moveActions s source target) = some s' ∧ Moved s source target s' := by
  obtain ⟨-, -, -, hsource, -, hfresh, hhealthy⟩ := id he
  have hne : target ≠ source := fun heq => hfresh (heq ▸ hsource)
  obtain ⟨s', hs', hmoved⟩ := execute_replaceActions hsource hne hhealthy
  exact ⟨s', runAll_append.mpr ⟨_, execute_promoteActions he, hs'⟩, hmoved⟩

/-! ## One move after the other -/

/-- Is a move planned here? -/
def Action.isPlan : Action α → Bool
  | planMove _ _ => true
  | _ => false

theorem countP_moveActions (s : State α) (source target : α) :
    (moveActions s source target).countP Action.isPlan = 1 := by
  unfold moveActions promoteActions replaceActions
  split <;> rfl

/-- The actions lead from `s` to a stable state with voters `target`, as many moves later as there
are new voters, and leave alone what is known of the nodes. -/
structure Enacts (c : Params α) (s : State α) (actions : List (Action α)) (target : Finset α)
    (s' : State α) : Prop where
  run : execute c s actions = some s'
  stable : s'.phase = .stable
  voters : s'.voters = target
  known : s'.known = s.known
  healthy : s'.healthy = s.healthy
  moves : actions.countP Action.isPlan = (target \ s.voters).card

/-- Any set of `rf` nodes can replace the voters, if the new ones are known and healthy. The
induction is on how many are new: each move brings one in for one that has to go. -/
theorem exists_enacts {target : Finset α} (hs : ReconfigurationSafety c s)
    (hstable : s.phase = .stable) (hcomplete : s.membershipComplete) (hrf : c.rf ≤ s.healthy.card)
    (hcard : target.card = c.rf) (hnew : target \ s.voters ⊆ s.known ∩ s.healthy) :
    ∃ actions s', Enacts c s actions target s' := by
  induction hn : (target \ s.voters).card generalizing s with
  | zero =>
    have hsub : target ⊆ s.voters := by
      rwa [Finset.card_eq_zero, Finset.sdiff_eq_empty_iff_subset] at hn
    have heq : target = s.voters :=
      Finset.eq_of_subset_of_card_le hsub ((hs.stable hstable).1.trans hcard.symm).le
    exact ⟨[], s, rfl, hstable, heq.symm, rfl, rfl, hn.symm⟩
  | succ n ih =>
    obtain ⟨x, hx⟩ := Finset.card_pos.mp (by omega : 0 < (target \ s.voters).card)
    have hold : 0 < (s.voters \ target).card := by
      rw [Finset.card_sdiff_comm ((hs.stable hstable).1.trans hcard.symm), hn]
      exact Nat.succ_pos n
    obtain ⟨y, hy⟩ := Finset.card_pos.mp hold
    obtain ⟨hxt, hxv⟩ := Finset.mem_sdiff.mp hx
    obtain ⟨hyv, hyt⟩ := Finset.mem_sdiff.mp hy
    obtain ⟨hxk, hxh⟩ := Finset.mem_inter.mp (hnew hx)
    have he : (Action.planMove y x).Enabled c s :=
      ⟨hstable, hcomplete, hrf, hyv, hxk, hxv, hxh⟩
    obtain ⟨t, ht, hmoved⟩ := execute_moveActions he
    have hleft : target \ t.voters = (target \ s.voters).erase x := by
      rw [hmoved.voters]
      ext z
      simp only [Finset.mem_sdiff, Finset.mem_erase, Finset.mem_insert]
      constructor
      · rintro ⟨hz, hnot⟩
        have hzy : z ≠ y := fun h => hyt (h ▸ hz)
        exact ⟨fun h => hnot ⟨hzy, .inl h⟩, hz, fun h => hnot ⟨hzy, .inr h⟩⟩
      · rintro ⟨hzx, hz, hzv⟩
        exact ⟨hz, fun h => h.2.elim hzx hzv⟩
    have hcount : (target \ t.voters).card = n := by
      rw [hleft, Finset.card_erase_of_mem hx, hn, Nat.add_sub_cancel]
    have hcomplete' : t.membershipComplete := by
      show t.voters ⊆ t.known
      rw [hmoved.voters, hmoved.known]
      exact (Finset.erase_subset _ _).trans (Finset.insert_subset hxk hcomplete)
    have hnew' : target \ t.voters ⊆ t.known ∩ t.healthy := by
      rw [hleft, hmoved.known, hmoved.healthy]
      exact (Finset.erase_subset _ _).trans hnew
    obtain ⟨actions, s', henacts⟩ := ih (hs.of_execute ht) hmoved.stable hcomplete'
      (by rwa [hmoved.healthy]) hnew' hcount
    exact ⟨moveActions s y x ++ actions, s',
      { run := runAll_append.mpr ⟨t, ht, henacts.run⟩
        stable := henacts.stable
        voters := henacts.voters
        known := henacts.known.trans hmoved.known
        healthy := henacts.healthy.trans hmoved.healthy
        moves := by
          rw [List.countP_append, countP_moveActions, henacts.moves, hcount, hn, Nat.add_comm] }⟩

/-! ## The replica sets that a tick publishes -/

open Scheduler

/-- The data plane has the brain's view: the same replication factor, known and healthy nodes. -/
structure Observes (sm : StateMachine) (c : Params NodeId) (plane : State NodeId) : Prop where
  rf : c.rf = Tick.rfOf sm
  known : plane.known = (sm.membership.snapshot.map (·.nodeId)).toFinset
  healthy : plane.healthy = (healthyNodes sm).toFinset

section

variable {sm : StateMachine} {shard : ShardId}

/-- A full shard that the tick does not hold gets `rf` replicas. -/
theorem length_nextAssignment_of_full (hfull : Tick.rfOf sm ≤ (currentReplicas sm shard).length)
    (hheld : (Tick.of sm).held (currentReplicas sm shard) = false) :
    (nextAssignment sm shard).replicas.length = Tick.rfOf sm := by
  rw [nextAssignment_eq_desired, Tick.length_desired]
  have hrf : (Tick.of sm).rf = Tick.rfOf sm := rfl
  have hcandidates :=
    (Tick.of sm).length_healthyIds_le (Tick.nodup_healthyIds sm) (currentReplicas sm shard)
  simp only [Tick.held, Bool.or_eq_false_iff, decide_eq_false_iff_not, not_and, hrf] at hheld
  have hfloor := hheld.2
  omega

/-- **What a tick publishes for a full shard can be enacted**, from whatever voters the data plane
has at the time: by complete moves, one for each new replica, and never below the quorum floor. -/
theorem published_replicas_enactable {c : Params NodeId} {plane : State NodeId} {a : ShardAssignment}
    (hobs : Observes sm c plane) (hplane : (system c).Reachable plane)
    (hstable : plane.phase = .stable) (hcomplete : plane.membershipComplete)
    (hget : sm.placement.get shard = some a) (hnodup : a.replicas.Nodup)
    (hfull : Tick.rfOf sm ≤ a.replicas.length) :
    ∃ a', (reconcile true sm).placement.get shard = some a' ∧
      (a' = a ∨ ∃ actions plane', Enacts c plane actions a'.replicas.toFinset plane' ∧
        ∀ n mid, execute c plane (actions.take n) = some mid → c.rf ≤ mid.voters.card) := by
  have hcurrent : currentReplicas sm shard = a.replicas := by
    rw [currentReplicas, hget]
    rfl
  rw [get_reconcile]
  by_cases hdecided : shard < sm.placement.shardCount ∧
      (Tick.of sm).held (currentReplicas sm shard) = false
  · rw [if_pos hdecided, if_neg (by simp [hget])]
    refine ⟨_, rfl, .inr ?_⟩
    have hsafe := safety_of_reachable hplane
    have hdistinct : (currentReplicas sm shard).Nodup := hcurrent.symm ▸ hnodup
    have hnext := nodup_nextAssignment hdistinct
    have hlen := length_nextAssignment_of_full (hcurrent.symm ▸ hfull) hdecided.2
    have hhealthy : (nextAssignment sm shard).replicas.toFinset ⊆ plane.healthy := by
      intro id hid
      rw [hobs.healthy, List.mem_toFinset]
      exact health_of_mem_nextAssignment (List.mem_toFinset.mp hid)
    have hcard : (nextAssignment sm shard).replicas.toFinset.card = c.rf := by
      rw [List.toFinset_card_of_nodup hnext, hlen, hobs.rf]
    have hknown : (nextAssignment sm shard).replicas.toFinset ⊆ plane.known := by
      intro id hid
      rw [hobs.known, List.mem_toFinset]
      exact (List.filter_sublist.map _).subset
        (health_of_mem_nextAssignment (List.mem_toFinset.mp hid))
    obtain ⟨actions, plane', henacts⟩ := exists_enacts hsafe hstable hcomplete
      (hcard ▸ Finset.card_le_card hhealthy) hcard
      (Finset.sdiff_subset.trans (Finset.subset_inter hknown hhealthy))
    exact ⟨actions, plane', henacts, fun n mid hmid => (hsafe.of_execute hmid).floor.1⟩
  · rw [if_neg hdecided, hget]
    exact ⟨a, rfl, .inl rfl⟩

/-- The silent node's shard, and a data plane that knows the four nodes. -/
def planeABC : State NodeId where
  known := {"a", "b", "c", "d"}
  healthy := {"a", "b", "c", "d"}
  voters := {"a", "b", "c"}
  learners := ∅
  leader := "a"
  phase := .stable
  moveFrom := ""
  moveTo := ""
  votersBeforeMove := {"a", "b", "c"}
  knownAtPlan := {"a", "b", "c", "d"}
  healthyAtPlan := {"a", "b", "c", "d"}
  lastEvent := .initEvent

theorem published_replicas_enactable_silent :
    let sm := silentA [("b", "aws", 39000), ("c", "hetzner", 39000), ("d", "gcp", 39000)]
    let plane := (Action.markUnhealthy "a").apply ⟨{"a", "b", "c", "d"}, 3, ""⟩ planeABC
    ∃ a', (reconcile true sm).placement.get 0 = some a' ∧
      (a' = ⟨0, ["a", "b", "c"], some "b", none, none⟩ ∨ ∃ actions plane',
        Enacts ⟨{"a", "b", "c", "d"}, 3, ""⟩ plane actions a'.replicas.toFinset plane' ∧
        ∀ n mid, execute ⟨{"a", "b", "c", "d"}, 3, ""⟩ plane (actions.take n) = some mid →
          3 ≤ mid.voters.card) :=
  published_replicas_enactable ⟨by decide +kernel, by decide +kernel, by decide +kernel⟩
    ⟨planeABC, ⟨{"a", "b", "c"}, "a", by decide, rfl, by decide, rfl⟩,
      .single ⟨.markUnhealthy "a", rfl⟩⟩
    rfl (by decide) (by decide +kernel) (by decide) (by decide +kernel)

end

end FiduciaBrain.Reconfiguration
