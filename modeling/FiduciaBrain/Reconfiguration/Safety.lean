import FiduciaBrain.Reconfiguration.Model

/-!
# The quorum survives a replacement

`reconfiguration_safety` of the file is inductive as it stands, for any node set and any replication
factor. Over it, what the order of the stages is for: only a caught-up learner becomes a voter, and
the voter sets before and after any step share a member of every two majorities.
-/

namespace FiduciaBrain.Reconfiguration

open Infra

variable {α : Type} [DecidableEq α]

section Predicates

variable (c : Params α) (s : State α)

/-- A node of the model, or `NO_NODE`. -/
def Params.IsSlot (x : α) : Prop := x = c.noNode ∨ x ∈ c.nodes

structure IdentifiersAreBounded : Prop where
  known : s.known ⊆ c.nodes
  healthy : s.healthy ⊆ c.nodes
  voters : s.voters ⊆ c.nodes
  learners : s.learners ⊆ c.nodes
  knownAtPlan : s.knownAtPlan ⊆ c.nodes
  healthyAtPlan : s.healthyAtPlan ⊆ c.nodes
  leader : s.leader ∈ c.nodes
  moveFrom : c.IsSlot s.moveFrom
  moveTo : c.IsSlot s.moveTo

def QuorumFloorIsNeverCrossed : Prop := c.rf ≤ s.voters.card ∧ s.voters.card ≤ c.rf + 1

def LeaderIsAlwaysAVoter : Prop := s.leader ∈ s.voters

def LearnersAreNotVoters : Prop := Disjoint s.learners s.voters

def StableShape : Prop :=
  s.phase = .stable →
    s.voters.card = c.rf ∧ s.learners = ∅ ∧ s.moveFrom = c.noNode ∧ s.moveTo = c.noNode

def PlannedShape : Prop :=
  s.phase = .planned →
    s.voters = s.votersBeforeMove ∧ s.voters.card = c.rf ∧ s.learners = ∅ ∧
      s.moveFrom ∈ s.voters ∧ s.moveTo ∉ s.voters ∧ s.moveFrom ≠ s.moveTo

def LearnerShape : Prop :=
  s.phase = .learnerAdded ∨ s.phase = .caughtUp →
    s.voters = s.votersBeforeMove ∧ s.voters.card = c.rf ∧ s.learners = {s.moveTo} ∧
      s.moveFrom ∈ s.voters ∧ s.moveTo ∉ s.voters

def PromotedShape : Prop :=
  s.phase = .promoted →
    s.voters = insert s.moveTo s.votersBeforeMove ∧ s.voters.card = c.rf + 1 ∧ s.learners = ∅ ∧
      s.moveFrom ∈ s.voters ∧ s.moveTo ∈ s.voters ∧ s.moveFrom ≠ s.moveTo

def EveryActivePlanStartedSafely : Prop :=
  s.phase ≠ .stable →
    s.votersBeforeMove.card = c.rf ∧ s.votersBeforeMove ⊆ s.knownAtPlan ∧
      c.rf ≤ s.healthyAtPlan.card ∧ s.moveTo ∈ s.knownAtPlan ∧ s.moveTo ∈ s.healthyAtPlan

/-- `reconfiguration_safety`. -/
structure ReconfigurationSafety : Prop where
  bounded : IdentifiersAreBounded c s
  floor : QuorumFloorIsNeverCrossed c s
  leader : LeaderIsAlwaysAVoter s
  learners : LearnersAreNotVoters s
  stable : StableShape c s
  planned : PlannedShape c s
  learner : LearnerShape c s
  promoted : PromotedShape c s
  started : EveryActivePlanStartedSafely c s

end Predicates

variable {c : Params α} {s s' : State α}

theorem safety_init (h : init c s) : ReconfigurationSafety c s := by
  obtain ⟨voters, leader, hsub, hcard, hleader, rfl⟩ := h
  exact
    { bounded :=
        ⟨Finset.Subset.refl _, Finset.Subset.refl _, hsub, Finset.empty_subset _,
          Finset.Subset.refl _, Finset.Subset.refl _, hsub hleader, .inl rfl, .inl rfl⟩
      floor := ⟨hcard.ge, hcard.le.trans (Nat.le_succ _)⟩
      leader := hleader
      learners := Finset.disjoint_empty_left _
      stable := fun _ => ⟨hcard, rfl, rfl, rfl⟩
      planned := nofun
      learner := by rintro (h | h) <;> cases h
      promoted := nofun
      started := fun h => absurd rfl h }

/-! ## What may change under an active move -/

/-- The parts of a state that the move itself is made of. -/
structure SameMove (s s' : State α) : Prop where
  voters : s'.voters = s.voters
  learners : s'.learners = s.learners
  phase : s'.phase = s.phase
  moveFrom : s'.moveFrom = s.moveFrom
  moveTo : s'.moveTo = s.moveTo
  votersBeforeMove : s'.votersBeforeMove = s.votersBeforeMove
  knownAtPlan : s'.knownAtPlan = s.knownAtPlan
  healthyAtPlan : s'.healthyAtPlan = s.healthyAtPlan

/-- Knowledge, health and leadership may change at any time. -/
theorem ReconfigurationSafety.of_sameMove (h : ReconfigurationSafety c s) (hm : SameMove s s')
    (hknown : s'.known ⊆ c.nodes) (hhealthy : s'.healthy ⊆ c.nodes) (hleader : s'.leader ∈ s.voters) :
    ReconfigurationSafety c s' := by
  obtain ⟨known, healthy, voters, learners, leader, phase, moveFrom, moveTo, before, knownAt,
    healthyAt, event⟩ := s'
  obtain ⟨rfl, rfl, rfl, rfl, rfl, rfl, rfl, rfl⟩ := hm
  exact
    { bounded :=
        { h.bounded with
          known := hknown, healthy := hhealthy, leader := h.bounded.voters hleader }
      floor := h.floor
      leader := hleader
      learners := h.learners
      stable := h.stable
      planned := h.planned
      learner := h.learner
      promoted := h.promoted
      started := h.started }

/-! ## The stages of a move -/

namespace ReconfigurationSafety

variable (h : ReconfigurationSafety c s)

include h

theorem planMove {source target : α} (he : (Action.planMove source target).Enabled c s) :
    ReconfigurationSafety c ((Action.planMove source target).apply c s) := by
  obtain ⟨hphase, hcomplete, hrf, hsource, hknown, hfresh, hhealthy⟩ := he
  obtain ⟨hcard, hlearners, -, -⟩ := h.stable hphase
  exact
    { bounded :=
        { h.bounded with
          knownAtPlan := h.bounded.known
          healthyAtPlan := h.bounded.healthy
          moveFrom := .inr (h.bounded.voters hsource)
          moveTo := .inr (h.bounded.known hknown) }
      floor := h.floor
      leader := h.leader
      learners := h.learners
      stable := nofun
      planned := fun _ =>
        ⟨rfl, hcard, hlearners, hsource, hfresh,
          fun heq : source = target => hfresh (heq ▸ hsource)⟩
      learner := by rintro (h | h) <;> cases h
      promoted := nofun
      started := fun _ => ⟨hcard, hcomplete, hrf, hknown, hhealthy⟩ }

theorem addLearner (he : Action.addLearner.Enabled c s) :
    ReconfigurationSafety c (Action.addLearner.apply c s) := by
  obtain ⟨hphase, hknown, -⟩ := he
  obtain ⟨hbefore, hcard, hlearners, hfrom, hto, -⟩ := h.planned hphase
  have hsingle : insert s.moveTo s.learners = {s.moveTo} := by
    rw [hlearners]
    rfl
  exact
    { bounded :=
        { h.bounded with
          learners :=
            Finset.insert_subset (h.bounded.known hknown) h.bounded.learners }
      floor := h.floor
      leader := h.leader
      learners := Finset.disjoint_insert_left.mpr ⟨hto, h.learners⟩
      stable := nofun
      planned := nofun
      learner := fun _ => ⟨hbefore, hcard, hsingle, hfrom, hto⟩
      promoted := nofun
      started := fun _ => h.started (by rw [hphase]; decide) }

theorem catchUpLearner (he : Action.catchUpLearner.Enabled c s) :
    ReconfigurationSafety c (Action.catchUpLearner.apply c s) := by
  obtain ⟨hphase, -, -⟩ := he
  exact
    { bounded := { h.bounded with }
      floor := h.floor
      leader := h.leader
      learners := h.learners
      stable := nofun
      planned := nofun
      learner := fun _ => h.learner (.inl hphase)
      promoted := nofun
      started := fun _ => h.started (by rw [hphase]; decide) }

theorem promoteLearner (he : Action.promoteLearner.Enabled c s) :
    ReconfigurationSafety c (Action.promoteLearner.apply c s) := by
  obtain ⟨hphase, hlearner, -⟩ := he
  obtain ⟨hbefore, hcard, hlearners, hfrom, hto⟩ := h.learner (.inr hphase)
  have hgrown : (insert s.moveTo s.voters).card = c.rf + 1 := by
    rw [Finset.card_insert_of_notMem hto, hcard]
  have hleft : s.learners.erase s.moveTo = ∅ := by
    rw [hlearners, Finset.erase_singleton]
  exact
    { bounded :=
        { h.bounded with
          voters := Finset.insert_subset (h.bounded.learners hlearner) h.bounded.voters
          learners := (Finset.erase_subset _ _).trans h.bounded.learners }
      floor := ⟨hgrown.ge.trans' (Nat.le_succ _), hgrown.le⟩
      leader := Finset.mem_insert_of_mem h.leader
      learners := by
        show Disjoint (s.learners.erase s.moveTo) (insert s.moveTo s.voters)
        rw [hleft]
        exact Finset.disjoint_empty_left _
      stable := nofun
      planned := nofun
      learner := by rintro (h | h) <;> cases h
      promoted := fun _ =>
        ⟨congrArg (insert s.moveTo) hbefore, hgrown, hleft, Finset.mem_insert_of_mem hfrom,
          Finset.mem_insert_self _ _, fun heq => hto (heq ▸ hfrom)⟩
      started := fun _ => h.started (by rw [hphase]; decide) }

/-- A state that ends the move: it has the voters of a stable state and a leader among them. -/
theorem endMove (event : Event) {voters : Finset α} (hsub : voters ⊆ c.nodes)
    (hcard : voters.card = c.rf) (hleader : s.leader ∈ voters) :
    ReconfigurationSafety c
      { s with
        voters := voters, learners := ∅, phase := .stable, moveFrom := c.noNode
        moveTo := c.noNode, lastEvent := event } where
  bounded :=
    { h.bounded with
      voters := hsub
      learners := Finset.empty_subset _
      moveFrom := .inl rfl
      moveTo := .inl rfl }
  floor := ⟨hcard.ge, hcard.le.trans (Nat.le_succ _)⟩
  leader := hleader
  learners := Finset.disjoint_empty_left _
  stable := fun _ => ⟨hcard, rfl, rfl, rfl⟩
  planned := nofun
  learner := by rintro (h | h) <;> cases h
  promoted := nofun
  started := fun h => absurd rfl h

theorem removeOldVoter (he : Action.removeOldVoter.Enabled c s) :
    ReconfigurationSafety c (Action.removeOldVoter.apply c s) := by
  obtain ⟨hphase, hfrom, -, -, hleader⟩ := he
  obtain ⟨-, hcard, hlearners, -⟩ := h.promoted hphase
  have hsub : s.voters.erase s.moveFrom ⊆ c.nodes :=
    (Finset.erase_subset _ _).trans h.bounded.voters
  have hleft : (s.voters.erase s.moveFrom).card = c.rf := by
    rw [Finset.card_erase_of_mem hfrom, hcard, Nat.add_sub_cancel]
  have hend := h.endMove .oldRemoved hsub hleft
    (Finset.mem_erase.mpr ⟨hleader, h.leader⟩)
  rwa [← hlearners] at hend

theorem rollbackPromoted (he : Action.rollbackPromoted.Enabled c s) :
    ReconfigurationSafety c (Action.rollbackPromoted.apply c s) := by
  obtain ⟨hphase, -, hto, hleader⟩ := he
  obtain ⟨-, hcard, -⟩ := h.promoted hphase
  have hsub : s.voters.erase s.moveTo ⊆ c.nodes :=
    (Finset.erase_subset _ _).trans h.bounded.voters
  have hleft : (s.voters.erase s.moveTo).card = c.rf := by
    rw [Finset.card_erase_of_mem hto, hcard, Nat.add_sub_cancel]
  exact h.endMove .promotedRolledBack hsub hleft (Finset.mem_erase.mpr ⟨hleader, h.leader⟩)

/-- Before the promotion the voters are still those that the move started with. -/
theorem unpromoted (he : Action.abortUnpromoted.Enabled c s) :
    s.voters = s.votersBeforeMove ∧ s.voters.card = c.rf := by
  rcases he with hphase | hphase | hphase
  · exact ⟨(h.planned hphase).1, (h.planned hphase).2.1⟩
  · exact ⟨(h.learner (.inl hphase)).1, (h.learner (.inl hphase)).2.1⟩
  · exact ⟨(h.learner (.inr hphase)).1, (h.learner (.inr hphase)).2.1⟩

theorem abortUnpromoted (he : Action.abortUnpromoted.Enabled c s) :
    ReconfigurationSafety c (Action.abortUnpromoted.apply c s) := by
  obtain ⟨hbefore, hcard⟩ := h.unpromoted he
  have hend := h.endMove .unpromotedAborted h.bounded.voters hcard h.leader
  rwa [hbefore] at hend

/-- **Every action keeps `reconfiguration_safety`.** -/
theorem of_fire {a : Action α} (hfire : fire c s a = some s') : ReconfigurationSafety c s' := by
  obtain ⟨he, rfl⟩ := fire_eq_some.mp hfire
  cases a with
  | loseMembership node =>
    exact h.of_sameMove ⟨rfl, rfl, rfl, rfl, rfl, rfl, rfl, rfl⟩
      ((Finset.erase_subset _ _).trans h.bounded.known) h.bounded.healthy h.leader
  | restoreMembership node =>
    exact h.of_sameMove ⟨rfl, rfl, rfl, rfl, rfl, rfl, rfl, rfl⟩
      (Finset.insert_subset he.2.1 h.bounded.known) h.bounded.healthy h.leader
  | markHealthy node =>
    exact h.of_sameMove ⟨rfl, rfl, rfl, rfl, rfl, rfl, rfl, rfl⟩ h.bounded.known
      (Finset.insert_subset he h.bounded.healthy) h.leader
  | markUnhealthy node =>
    exact h.of_sameMove ⟨rfl, rfl, rfl, rfl, rfl, rfl, rfl, rfl⟩ h.bounded.known
      ((Finset.erase_subset _ _).trans h.bounded.healthy) h.leader
  | holdIncompleteMembership | holdDegradedMembership | idle =>
    exact h.of_sameMove ⟨rfl, rfl, rfl, rfl, rfl, rfl, rfl, rfl⟩ h.bounded.known h.bounded.healthy
      h.leader
  | planMove source target => exact h.planMove he
  | addLearner => exact h.addLearner he
  | catchUpLearner => exact h.catchUpLearner he
  | promoteLearner => exact h.promoteLearner he
  | transferLeader candidate =>
    exact h.of_sameMove ⟨rfl, rfl, rfl, rfl, rfl, rfl, rfl, rfl⟩ h.bounded.known h.bounded.healthy
      he.1
  | removeOldVoter => exact h.removeOldVoter he
  | abortUnpromoted => exact h.abortUnpromoted he
  | rollbackPromoted => exact h.rollbackPromoted he

theorem of_execute {as : List (Action α)} (hrun : execute c s as = some s') :
    ReconfigurationSafety c s' :=
  runAll_preserves (fun _ _ _ hs => hs.of_fire) hrun h

/-- The voters change by one node at most, and a node that is new among them was a learner. -/
theorem voters_fire {a : Action α} (hfire : fire c s a = some s') :
    Overlap s.voters s'.voters ∧ s'.voters \ s.voters ⊆ s.learners := by
  obtain ⟨he, rfl⟩ := fire_eq_some.mp hfire
  have hsame : Overlap s.voters s.voters ∧ s.voters \ s.voters ⊆ s.learners :=
    ⟨.refl _, by rw [Finset.sdiff_self]; exact Finset.empty_subset _⟩
  have hfewer : ∀ x, Overlap s.voters (s.voters.erase x) ∧
      s.voters.erase x \ s.voters ⊆ s.learners := by
    refine fun x => ⟨.erase _ _, ?_⟩
    rw [Finset.sdiff_eq_empty_iff_subset.mpr (Finset.erase_subset _ _)]
    exact Finset.empty_subset _
  cases a with
  | promoteLearner =>
    refine ⟨.insert _ _, fun x hx => ?_⟩
    obtain ⟨hx, hnot⟩ := Finset.mem_sdiff.mp hx
    rcases Finset.mem_insert.mp hx with rfl | hx
    · exact he.2.1
    · exact absurd hx hnot
  | removeOldVoter => exact hfewer _
  | rollbackPromoted => exact hfewer _
  | abortUnpromoted =>
    rw [show (Action.abortUnpromoted.apply c s).voters = s.voters from (h.unpromoted he).1.symm]
    exact hsame
  | loseMembership | restoreMembership | markHealthy | markUnhealthy | holdIncompleteMembership
  | holdDegradedMembership | planMove | addLearner | catchUpLearner | transferLeader | idle =>
    exact hsame

end ReconfigurationSafety

/-! ## Whole runs -/

theorem safety_of_reachable (h : (system c).Reachable s) : ReconfigurationSafety c s :=
  h.invariant (fun _ => safety_init) fun _ _ _ hs ⟨_, hfire⟩ => hs.of_fire hfire

/-- **No replacement puts the quorum at risk**: in every reachable state `reconfiguration_safety`
holds, and whatever happens next, every majority of the voters meets every majority of the voters
before it, and who has become a voter was a learner. -/
theorem quorum_survives_reconfiguration (h : (system c).Reachable s) :
    ReconfigurationSafety c s ∧
      ∀ s', (system c).step s s' →
        Overlap s.voters s'.voters ∧ s'.voters \ s.voters ⊆ s.learners :=
  ⟨safety_of_reachable h, fun _ ⟨_, hfire⟩ => (safety_of_reachable h).voters_fire hfire⟩

/-- The constants of the file. -/
def fourNodes : Params Nat := ⟨{1, 2, 3, 4}, 3, 0⟩

/-- `init` of the file. -/
def initialABC : State Nat where
  known := {1, 2, 3, 4}
  healthy := {1, 2, 3, 4}
  voters := {1, 2, 3}
  learners := ∅
  leader := 1
  phase := .stable
  moveFrom := 0
  moveTo := 0
  votersBeforeMove := {1, 2, 3}
  knownAtPlan := {1, 2, 3, 4}
  healthyAtPlan := {1, 2, 3, 4}
  lastEvent := .initEvent

theorem init_initialABC : init fourNodes initialABC :=
  ⟨{1, 2, 3}, 1, by decide, rfl, by decide, rfl⟩

/-- 4 has been promoted in the place of 1. -/
def promotedABCD : State Nat :=
  { initialABC with
    voters := {4, 1, 2, 3}
    phase := .promoted
    moveFrom := 1
    moveTo := 4
    lastEvent := .promotedEvent }

theorem execute_promotedABCD :
    execute fourNodes initialABC [.planMove 1 4, .addLearner, .catchUpLearner, .promoteLearner]
      = some promotedABCD :=
  rfl

theorem quorum_survives_reconfiguration_promoted :
    ReconfigurationSafety fourNodes promotedABCD ∧
      ∀ s', (system fourNodes).step promotedABCD s' →
        Overlap promotedABCD.voters s'.voters ∧
          s'.voters \ promotedABCD.voters ⊆ promotedABCD.learners :=
  quorum_survives_reconfiguration
    ⟨initialABC, init_initialABC, steps_of_execute execute_promotedABCD⟩

end FiduciaBrain.Reconfiguration
