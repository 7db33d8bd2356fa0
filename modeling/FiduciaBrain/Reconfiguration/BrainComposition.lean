import FiduciaBrain.Reconfiguration.Safety

/-!
# One placement generation over the staged replacement

`formal/brain_composition.qnt`: the brain asks for BCD in the place of ABC, the data plane moves D in
for A, and the target may fail once on the way. `simulation` says that the model is a run of the
staged replacement of `formal/brain_reconfiguration.qnt`, so that what holds of every replacement
holds here; `ranking` says that it cannot go on for ever.
-/

namespace FiduciaBrain.Reconfiguration.BrainComposition

open Infra

inductive Phase
  | stableABC
  | planIssued
  | learnerAdded
  | learnerCaughtUp
  | learnerPromoted
  | leaderTransferred
  | stableBCD
  deriving DecidableEq, Repr

def abc : Finset Nat := {1, 2, 3}

def bcd : Finset Nat := {2, 3, 4}

def abcd : Finset Nat := {1, 2, 3, 4}

def noGeneration : Nat := 0

structure State where
  phase : Phase
  desiredBcd : Bool
  voters : Finset Nat
  learners : Finset Nat
  leader : Nat
  generation : Nat
  activeGeneration : Nat
  failureAvailable : Bool
  sawMoveStarted : Bool
  sawActiveReconcileHold : Bool
  sawPrePromotionRollback : Bool
  sawPostPromotionRollback : Bool
  sawRetry : Bool
  sawPromotion : Bool
  sawLeaderTransfer : Bool
  sawConvergence : Bool
  sawIdempotentStableReplay : Bool

def initial : State where
  phase := .stableABC
  desiredBcd := false
  voters := abc
  learners := ∅
  leader := 1
  generation := 1
  activeGeneration := noGeneration
  failureAvailable := true
  sawMoveStarted := false
  sawActiveReconcileHold := false
  sawPrePromotionRollback := false
  sawPostPromotionRollback := false
  sawRetry := false
  sawPromotion := false
  sawLeaderTransfer := false
  sawConvergence := false
  sawIdempotentStableReplay := false

inductive Action
  | requestBcd
  | retryBcd
  | addLearnerD
  | catchUpLearnerD
  | failBeforePromotion
  | promoteLearnerD
  | failAfterPromotion
  | transferLeaderToB
  | removeOldVoterA
  | reconcileActiveHold
  | replayStable
  | idle
  deriving DecidableEq, Repr

namespace Action

/-- The guard of an action. -/
def Enabled (s : State) : Action → Prop
  | requestBcd => s.phase = .stableABC ∧ s.desiredBcd = false
  | retryBcd => s.phase = .stableABC ∧ s.desiredBcd = true ∧ s.activeGeneration = noGeneration
  | addLearnerD => s.phase = .planIssued
  | catchUpLearnerD => s.phase = .learnerAdded ∧ s.learners = {4}
  | failBeforePromotion =>
    s.failureAvailable = true ∧ (s.phase = .learnerAdded ∨ s.phase = .learnerCaughtUp)
  | promoteLearnerD => s.phase = .learnerCaughtUp ∧ s.learners = {4}
  | failAfterPromotion => s.phase = .learnerPromoted ∧ s.failureAvailable = true ∧ s.leader = 1
  | transferLeaderToB => s.phase = .learnerPromoted ∧ s.voters = abcd ∧ s.leader = 1
  | removeOldVoterA => s.phase = .leaderTransferred ∧ s.voters = abcd ∧ s.leader = 2
  | reconcileActiveHold => s.activeGeneration ≠ noGeneration
  | replayStable => s.phase = .stableBCD
  | idle => True

instance (s : State) (a : Action) : Decidable (a.Enabled s) := by
  cases a <;> dsimp only [Enabled] <;> infer_instance

/-- What an enabled action does. -/
def apply (s : State) : Action → State
  | requestBcd =>
    { s with
      phase := .planIssued
      desiredBcd := true
      generation := s.generation + 1
      activeGeneration := s.generation + 1
      sawMoveStarted := true }
  | retryBcd =>
    { s with
      phase := .planIssued
      generation := s.generation + 1
      activeGeneration := s.generation + 1
      sawRetry := true }
  | addLearnerD => { s with phase := .learnerAdded, learners := {4} }
  | catchUpLearnerD => { s with phase := .learnerCaughtUp }
  | failBeforePromotion =>
    { s with
      phase := .stableABC
      learners := ∅
      activeGeneration := noGeneration
      failureAvailable := false
      sawPrePromotionRollback := true }
  | promoteLearnerD =>
    { s with phase := .learnerPromoted, voters := abcd, learners := ∅, sawPromotion := true }
  | failAfterPromotion =>
    { s with
      phase := .stableABC
      voters := abc
      activeGeneration := noGeneration
      failureAvailable := false
      sawPostPromotionRollback := true }
  | transferLeaderToB =>
    { s with phase := .leaderTransferred, leader := 2, sawLeaderTransfer := true }
  | removeOldVoterA =>
    { s with
      phase := .stableBCD
      voters := bcd
      activeGeneration := noGeneration
      sawConvergence := true }
  | reconcileActiveHold => { s with sawActiveReconcileHold := true }
  | replayStable => { s with sawIdempotentStableReplay := true }
  | idle => s

/-- Does the action move the replacement on, or back? The others stutter. -/
def isProgress : Action → Bool
  | reconcileActiveHold | replayStable | idle => false
  | _ => true

end Action

/-- An action, if its guard holds. -/
def fire : State → Action → Option State := fireIf (fun s a => a.Enabled s) Action.apply

/-- The transition system of the file. -/
def system : TransitionSystem State := guarded fire (· = initial)

variable {s s' : State} {a : Action}

theorem fire_eq_some : fire s a = some s' ↔ a.Enabled s ∧ s' = a.apply s := fireIf_eq_some

/-! ## Safety -/

section Predicates

variable (s : State)

structure IdentitiesAreBounded : Prop where
  voters : s.voters ⊆ abcd
  learners : s.learners ⊆ abcd
  disjoint : ∀ node ∈ s.learners, node ∉ s.voters
  atMostOne : s.learners.card ≤ 1

def OneGenerationIsActive : Prop :=
  s.activeGeneration = noGeneration ∨ s.activeGeneration = s.generation

def GenerationIsBounded : Prop := 1 ≤ s.generation ∧ s.generation ≤ 3

def RequestIsMonotonic : Prop :=
  s.desiredBcd = true ∨ (s.phase = .stableABC ∧ s.generation = 1 ∧ s.failureAvailable = true)

def RollbackConsumesFaultBudget : Prop :=
  s.sawPrePromotionRollback = true ∨ s.sawPostPromotionRollback = true → s.failureAvailable = false

def OldVoterIsRemovedOnlyAfterTransfer : Prop :=
  1 ∈ s.voters ∨ (s.phase = .stableBCD ∧ s.leader = 2)

/-- What a phase says about the rest: voters, learners, leader, and whether a generation is
active. -/
def PhaseShapeIsConsistent : Prop :=
  match s.phase with
  | .stableABC =>
    s.voters = abc ∧ s.learners = ∅ ∧ s.leader = 1 ∧ s.activeGeneration = noGeneration
  | .planIssued =>
    s.voters = abc ∧ s.learners = ∅ ∧ s.leader = 1 ∧ s.activeGeneration = s.generation ∧
      s.desiredBcd = true
  | .learnerAdded | .learnerCaughtUp =>
    s.voters = abc ∧ s.learners = {4} ∧ s.leader = 1 ∧ s.activeGeneration = s.generation ∧
      s.desiredBcd = true
  | .learnerPromoted =>
    s.voters = abcd ∧ s.learners = ∅ ∧ s.leader = 1 ∧ s.activeGeneration = s.generation ∧
      s.desiredBcd = true
  | .leaderTransferred =>
    s.voters = abcd ∧ s.learners = ∅ ∧ s.leader = 2 ∧ s.activeGeneration = s.generation ∧
      s.desiredBcd = true
  | .stableBCD =>
    s.voters = bcd ∧ s.learners = ∅ ∧ s.leader = 2 ∧ s.activeGeneration = noGeneration ∧
      s.desiredBcd = true

/-- `composition_safety`. -/
structure CompositionSafety : Prop where
  bounded : IdentitiesAreBounded s
  floor : 3 ≤ s.voters.card
  leader : s.leader ∈ s.voters
  shape : PhaseShapeIsConsistent s
  oneActive : OneGenerationIsActive s
  generation : GenerationIsBounded s
  request : RequestIsMonotonic s
  rollback : RollbackConsumesFaultBudget s
  removed : OldVoterIsRemovedOnlyAfterTransfer s

/-- How many generations there have been: one for the request, one more for the failure. -/
def GenerationCounts : Prop :=
  match s.phase with
  | .stableABC =>
    s.generation = (if s.desiredBcd then 2 else 1) ∧ s.failureAvailable = !s.desiredBcd
  | _ => s.generation = if s.failureAvailable then 2 else 3

/-- What a step preserves. -/
structure Inv : Prop where
  shape : PhaseShapeIsConsistent s
  counts : GenerationCounts s
  rollback : RollbackConsumesFaultBudget s

end Predicates

theorem Inv.fire (h : Inv s) (hfire : fire s a = some s') : Inv s' := by
  obtain ⟨he, rfl⟩ := fire_eq_some.mp hfire
  obtain ⟨phase, desired, voters, learners, leader, generation, active, available, s1, s2, s3, s4, s5,
    s6, s7, s8, s9⟩ := s
  obtain ⟨hshape, hcounts, hrollback⟩ := h
  simp only [PhaseShapeIsConsistent, GenerationCounts, RollbackConsumesFaultBudget] at *
  constructor
  all_goals
    simp only [PhaseShapeIsConsistent, GenerationCounts, RollbackConsumesFaultBudget]
    cases a <;> simp only [Action.Enabled, Action.apply] at he ⊢ <;> grind

theorem inv_initial : Inv initial := ⟨⟨rfl, rfl, rfl, rfl⟩, ⟨rfl, rfl⟩, fun h => by simp [initial] at h⟩

theorem inv_of_reachable (h : system.Reachable s) : Inv s :=
  h.invariant (fun _ h0 => h0 ▸ inv_initial) fun _ _ _ hs ⟨_, hfire⟩ => hs.fire hfire

/-- The voters, learners and leader that a phase has. -/
theorem Inv.layout (h : Inv s) :
    ∃ voters learners leader,
      (s.voters = voters ∧ s.learners = learners ∧ s.leader = leader) ∧
      voters ⊆ abcd ∧ learners ⊆ abcd ∧ (∀ node ∈ learners, node ∉ voters) ∧ learners.card ≤ 1 ∧
      3 ≤ voters.card ∧ leader ∈ voters := by
  have hshape := h.shape
  unfold PhaseShapeIsConsistent at hshape
  split at hshape
  · exact ⟨abc, ∅, 1, ⟨hshape.1, hshape.2.1, hshape.2.2.1⟩, by decide⟩
  · exact ⟨abc, ∅, 1, ⟨hshape.1, hshape.2.1, hshape.2.2.1⟩, by decide⟩
  · exact ⟨abc, {4}, 1, ⟨hshape.1, hshape.2.1, hshape.2.2.1⟩, by decide⟩
  · exact ⟨abc, {4}, 1, ⟨hshape.1, hshape.2.1, hshape.2.2.1⟩, by decide⟩
  · exact ⟨abcd, ∅, 1, ⟨hshape.1, hshape.2.1, hshape.2.2.1⟩, by decide⟩
  · exact ⟨abcd, ∅, 2, ⟨hshape.1, hshape.2.1, hshape.2.2.1⟩, by decide⟩
  · exact ⟨bcd, ∅, 2, ⟨hshape.1, hshape.2.1, hshape.2.2.1⟩, by decide⟩

theorem Inv.safety (h : Inv s) : CompositionSafety s := by
  obtain ⟨v, l, leader, ⟨rfl, rfl, rfl⟩, hv, hl, hdisj, hone, hfloor, hleader⟩ := h.layout
  have hshape := h.shape
  have hcounts := h.counts
  unfold PhaseShapeIsConsistent at hshape
  unfold GenerationCounts at hcounts
  refine ⟨⟨hv, hl, hdisj, hone⟩, hfloor, hleader, h.shape, ?_, ?_, ?_, h.rollback, ?_⟩
  · unfold OneGenerationIsActive
    grind
  · unfold GenerationIsBounded
    grind
  · unfold RequestIsMonotonic
    grind
  · have habc : 1 ∈ abc := by decide
    have habcd : 1 ∈ abcd := by decide
    unfold OldVoterIsRemovedOnlyAfterTransfer
    grind

/-! ## The staged replacement behind it -/

/-- The phase of the data plane. -/
def Phase.plane : Phase → Reconfiguration.Phase
  | .stableABC | .stableBCD => .stable
  | .planIssued => .planned
  | .learnerAdded => .learnerAdded
  | .learnerCaughtUp => .caughtUp
  | .learnerPromoted | .leaderTransferred => .promoted

/-- The data plane that a state of the model stands for: every node known and healthy, and 4 on its
way in for 1 while a generation is active. -/
structure Tracks (s : State) (r : Reconfiguration.State Nat) : Prop where
  inv : Inv s
  known : r.known = fourNodes.nodes
  healthy : r.healthy = fourNodes.nodes
  voters : r.voters = s.voters
  learners : r.learners = s.learners
  leader : r.leader = s.leader
  phase : r.phase = s.phase.plane
  moveFrom : r.phase ≠ .stable → r.moveFrom = 1
  moveTo : r.phase ≠ .stable → r.moveTo = 4
  votersBeforeMove : r.phase ≠ .stable → r.votersBeforeMove = abc

/-- The action of the data plane behind an action of the model. -/
def Action.plane : Action → Reconfiguration.Action Nat
  | requestBcd | retryBcd => .planMove 1 4
  | addLearnerD => .addLearner
  | catchUpLearnerD => .catchUpLearner
  | failBeforePromotion => .abortUnpromoted
  | promoteLearnerD => .promoteLearner
  | failAfterPromotion => .rollbackPromoted
  | transferLeaderToB => .transferLeader 2
  | removeOldVoterA => .removeOldVoter
  | reconcileActiveHold | replayStable | idle => .idle

/-- The data plane can follow every action. -/
theorem Tracks.enabled {r : Reconfiguration.State Nat} (h : Tracks s r) (he : a.Enabled s) :
    a.plane.Enabled fourNodes r := by
  obtain ⟨⟨hshape, -, -⟩, hknown, hhealthy, hvoters, hlearners, hleader, hphase, hfrom, hto, -⟩ := h
  unfold PhaseShapeIsConsistent at hshape
  have hplan : s.phase = .stableABC → (Reconfiguration.Action.planMove 1 4).Enabled fourNodes r := by
    intro hp
    rw [hp] at hshape hphase
    obtain ⟨habc, -⟩ := hshape
    simp only [Reconfiguration.Action.Enabled, Reconfiguration.State.membershipComplete, hknown,
      hhealthy, hvoters, habc, hphase]
    decide
  cases a with
  | requestBcd => exact hplan he.1
  | retryBcd => exact hplan he.1
  | addLearnerD =>
    rw [show s.phase = .planIssued from he] at hphase
    refine ⟨hphase, ?_, ?_⟩
    · rw [hto (by rw [hphase]; decide), hknown]
      decide
    · rw [hto (by rw [hphase]; decide), hhealthy]
      decide
  | catchUpLearnerD | promoteLearnerD =>
    obtain ⟨hp, hfour⟩ := he
    rw [hp] at hphase
    refine ⟨hphase, ?_, ?_⟩
    · rw [hto (by rw [hphase]; decide), hlearners, hfour]
      decide
    · rw [hto (by rw [hphase]; decide), hhealthy]
      decide
  | failBeforePromotion =>
    rcases he.2 with hp | hp <;> rw [hp] at hphase
    · exact .inr (.inl hphase)
    · exact .inr (.inr hphase)
  | failAfterPromotion =>
    obtain ⟨hp, -, hl⟩ := he
    rw [hp] at hshape hphase
    have hactive : r.phase ≠ .stable := by rw [hphase]; decide
    refine ⟨hphase, ?_, ?_, ?_⟩
    · rw [hfrom hactive, hvoters, hshape.1]
      decide
    · rw [hto hactive, hvoters, hshape.1]
      decide
    · rw [hto hactive, hleader, hl]
      decide
  | transferLeaderToB =>
    obtain ⟨-, hv, hl⟩ := he
    refine ⟨?_, ?_, ?_⟩
    · rw [hvoters, hv]
      decide
    · rw [hhealthy]
      decide
    · rw [hleader, hl]
      decide
  | removeOldVoterA =>
    obtain ⟨hp, hv, hl⟩ := he
    rw [hp] at hphase
    have hactive : r.phase ≠ .stable := by rw [hphase]; decide
    refine ⟨hphase, ?_, ?_, ?_, ?_⟩
    · rw [hfrom hactive, hvoters, hv]
      decide
    · rw [hto hactive, hvoters, hv]
      decide
    · rw [hto hactive, hhealthy]
      decide
    · rw [hfrom hactive, hleader, hl]
      decide
  | reconcileActiveHold | replayStable | idle => exact trivial

theorem Tracks.fire {r : Reconfiguration.State Nat} (h : Tracks s r) (hfire : fire s a = some s') :
    ∃ r', Reconfiguration.fire fourNodes r a.plane = some r' ∧ Tracks s' r' := by
  have hinv := h.inv.fire hfire
  obtain ⟨he, rfl⟩ := fire_eq_some.mp hfire
  refine ⟨_, Reconfiguration.fire_eq_some.mpr ⟨h.enabled he, rfl⟩, ?_⟩
  obtain ⟨⟨hshape, -, -⟩, hknown, hhealthy, hvoters, hlearners, hleader, hphase, hfrom, hto,
    hbefore⟩ := h
  unfold PhaseShapeIsConsistent at hshape
  cases a with
  | requestBcd | retryBcd =>
    rw [he.1] at hshape
    exact ⟨hinv, hknown, hhealthy, hvoters, hlearners, hleader, rfl, fun _ => rfl, fun _ => rfl,
      fun _ => hvoters.trans hshape.1⟩
  | addLearnerD =>
    rw [show s.phase = .planIssued from he] at hshape hphase
    have hactive : r.phase ≠ .stable := by rw [hphase]; decide
    have hfour : insert r.moveTo r.learners = {4} := by
      rw [hto hactive, hlearners, hshape.2.1]
      rfl
    exact ⟨hinv, hknown, hhealthy, hvoters, hfour, hleader, rfl, fun _ => hfrom hactive,
      fun _ => hto hactive, fun _ => hbefore hactive⟩
  | catchUpLearnerD =>
    rw [he.1] at hphase
    have hactive : r.phase ≠ .stable := by rw [hphase]; decide
    exact ⟨hinv, hknown, hhealthy, hvoters, hlearners, hleader, rfl, fun _ => hfrom hactive,
      fun _ => hto hactive, fun _ => hbefore hactive⟩
  | promoteLearnerD =>
    obtain ⟨hp, hlearner⟩ := he
    rw [hp] at hshape hphase
    have hactive : r.phase ≠ .stable := by rw [hphase]; decide
    have hgrown : insert r.moveTo r.voters = abcd := by
      rw [hto hactive, hvoters, hshape.1]
      decide
    have hleft : r.learners.erase r.moveTo = ∅ := by
      rw [hto hactive, hlearners, hlearner]
      decide
    exact ⟨hinv, hknown, hhealthy, hgrown, hleft, hleader, rfl, fun _ => hfrom hactive,
      fun _ => hto hactive, fun _ => hbefore hactive⟩
  | failBeforePromotion =>
    have hactive : r.phase ≠ .stable := by
      rcases he.2 with hp | hp <;> rw [hphase, hp] <;> decide
    have habc : s.voters = abc := by
      rcases he.2 with hp | hp <;> rw [hp] at hshape <;> exact hshape.1
    exact ⟨hinv, hknown, hhealthy, (hbefore hactive).trans habc.symm, rfl, hleader, rfl,
      fun hne => absurd rfl hne, fun hne => absurd rfl hne, fun hne => absurd rfl hne⟩
  | failAfterPromotion =>
    rw [he.1] at hshape hphase
    have hactive : r.phase ≠ .stable := by rw [hphase]; decide
    have hback : r.voters.erase r.moveTo = abc := by
      rw [hto hactive, hvoters, hshape.1]
      decide
    exact ⟨hinv, hknown, hhealthy, hback, hshape.2.1.symm, hleader, rfl,
      fun hne => absurd rfl hne, fun hne => absurd rfl hne, fun hne => absurd rfl hne⟩
  | transferLeaderToB =>
    rw [he.1] at hphase
    exact ⟨hinv, hknown, hhealthy, hvoters, hlearners, rfl, hphase, hfrom, hto, hbefore⟩
  | removeOldVoterA =>
    obtain ⟨hp, hv, -⟩ := he
    rw [hp] at hphase
    have hactive : r.phase ≠ .stable := by rw [hphase]; decide
    have hremoved : r.voters.erase r.moveFrom = bcd := by
      rw [hfrom hactive, hvoters, hv]
      decide
    exact ⟨hinv, hknown, hhealthy, hremoved, hlearners, hleader, rfl,
      fun hne => absurd rfl hne, fun hne => absurd rfl hne, fun hne => absurd rfl hne⟩
  | reconcileActiveHold | replayStable | idle =>
    exact ⟨hinv, hknown, hhealthy, hvoters, hlearners, hleader, hphase, hfrom, hto, hbefore⟩

/-- **The composition model refines the staged replacement**, action by action. -/
def simulation : Simulation system (Reconfiguration.system fourNodes) where
  rel := Tracks
  init := by
    rintro s rfl
    exact ⟨initialABC, init_initialABC, inv_initial, rfl, rfl, rfl, rfl, rfl, rfl,
      fun h => absurd rfl h, fun h => absurd rfl h, fun h => absurd rfl h⟩
  step := by
    rintro s s' r - h ⟨a, hfire⟩
    obtain ⟨r', hr', h'⟩ := h.fire hfire
    have hstep : (Reconfiguration.system fourNodes).step r r' := ⟨_, hr'⟩
    exact ⟨r', .single hstep, h'⟩

/-! ## No run goes on for ever -/

/-- The actions left when nothing fails any more. -/
def Phase.distance : Phase → Nat
  | .stableABC => 6
  | .planIssued => 5
  | .learnerAdded => 4
  | .learnerCaughtUp => 3
  | .learnerPromoted => 2
  | .leaderTransferred => 1
  | .stableBCD => 0

/-- A failure takes the replacement back to the start, at most five actions further from its
end. -/
def ranking : Ranking fire Action.isProgress where
  inv := Inv
  rank s := s.phase.distance + if s.failureAvailable then 5 else 0
  keeps := fun _ _ _ h => h.fire
  falls := by
    intro s a s' _ hfire
    obtain ⟨he, rfl⟩ := fire_eq_some.mp hfire
    cases a <;> simp only [Action.Enabled, Action.apply, Action.isProgress] at he ⊢ <;>
      grind [Phase.distance]

/-- Short of BCD the replacement can move on. -/
theorem Inv.exists_progress (h : Inv s) (hs : s.phase ≠ .stableBCD) :
    ∃ a : Action, a.isProgress = true ∧ a.Enabled s := by
  have hshape := h.shape
  unfold PhaseShapeIsConsistent at hshape
  cases hp : s.phase with
  | stableABC =>
    rw [hp] at hshape
    cases hd : s.desiredBcd with
    | false => exact ⟨.requestBcd, rfl, hp, hd⟩
    | true => exact ⟨.retryBcd, rfl, hp, hd, hshape.2.2.2⟩
  | planIssued => exact ⟨.addLearnerD, rfl, hp⟩
  | learnerAdded =>
    rw [hp] at hshape
    exact ⟨.catchUpLearnerD, rfl, hp, hshape.2.1⟩
  | learnerCaughtUp =>
    rw [hp] at hshape
    exact ⟨.promoteLearnerD, rfl, hp, hshape.2.1⟩
  | learnerPromoted =>
    rw [hp] at hshape
    exact ⟨.transferLeaderToB, rfl, hp, hshape.1, hshape.2.2.1⟩
  | leaderTransferred =>
    rw [hp] at hshape
    exact ⟨.removeOldVoterA, rfl, hp, hshape.1, hshape.2.2.1⟩
  | stableBCD => exact absurd hp hs

theorem stutters_of_stableBCD (hs : s.phase = .stableBCD) (ha : a.isProgress = true) :
    ¬ a.Enabled s := by
  cases a <;> simp only [Action.Enabled, Action.isProgress, hs] at ha ⊢ <;> grind

/-! ## Whole runs -/

/-- **The composition is safe because every replacement is**: a reachable state satisfies
`composition_safety` and stands for a reachable state of the staged replacement, and whatever
happens next, the majorities of the voters before and after meet. -/
theorem composition_safe (h : system.Reachable s) :
    CompositionSafety s ∧
      (∃ r, (Reconfiguration.system fourNodes).Reachable r ∧ Tracks s r) ∧
      ∀ s', system.step s s' → Overlap s.voters s'.voters := by
  obtain ⟨r, hr, htracks⟩ := simulation.reachable h
  refine ⟨(inv_of_reachable h).safety, ⟨r, hr, htracks⟩, ?_⟩
  rintro s' ⟨a, hfire⟩
  obtain ⟨r', hr', htracks'⟩ := htracks.fire hfire
  rw [← htracks.voters, ← htracks'.voters]
  exact ((safety_of_reachable hr).voters_fire hr').1

/-- A failure after the promotion, and `D` is promoted again. -/
def retriedRun : List Action :=
  [.requestBcd, .addLearnerD, .catchUpLearnerD, .promoteLearnerD, .failAfterPromotion, .retryBcd,
    .addLearnerD, .catchUpLearnerD, .promoteLearnerD]

theorem composition_safe_retried :
    ∃ s, runAll fire initial retriedRun = some s ∧ s.voters = abcd ∧ s.sawPromotion = true ∧
      CompositionSafety s ∧ (∃ r, (Reconfiguration.system fourNodes).Reachable r ∧ Tracks s r) ∧
      ∀ s', system.step s s' → Overlap s.voters s'.voters := by
  have hrun : runAll fire initial retriedRun = some _ := rfl
  exact ⟨_, hrun, rfl, rfl, composition_safe ⟨initial, rfl, steps_of_runAll _ hrun⟩⟩

/-- **A run ends in BCD**: whatever fails and however the brain stutters, eleven actions are all
that the replacement ever takes, and there is a next one exactly until BCD is stable. -/
theorem composition_terminates {actions : List Action} (h : runAll fire initial actions = some s) :
    actions.countP Action.isProgress ≤ 11 ∧
      (s.phase = .stableBCD ↔ ∀ a, a.isProgress = true → fire s a = none) := by
  have hinv : Inv s := inv_of_reachable ⟨initial, rfl, steps_of_runAll _ h⟩
  have hcount := ranking.countP_add_rank_le inv_initial h
  refine ⟨(Nat.le_add_right _ _).trans hcount, ?_⟩
  constructor
  · intro hs a ha
    exact if_neg (stutters_of_stableBCD hs ha)
  · intro hstuck
    by_contra hs
    obtain ⟨a, ha, he⟩ := hinv.exists_progress hs
    have hnone := hstuck a ha
    rw [fire_eq_some.mpr ⟨he, rfl⟩] at hnone
    cases hnone

/-- With a failure after the promotion, and a hold on the way. -/
theorem composition_terminates_eleven :
    ∃ s, [Action.requestBcd, .addLearnerD, .catchUpLearnerD, .promoteLearnerD, .failAfterPromotion,
        .retryBcd, .reconcileActiveHold, .addLearnerD, .catchUpLearnerD, .promoteLearnerD,
        .transferLeaderToB, .removeOldVoterA].countP Action.isProgress ≤ 11 ∧
      (s.phase = .stableBCD ↔ ∀ a, a.isProgress = true → fire s a = none) :=
  ⟨_, composition_terminates rfl⟩

end FiduciaBrain.Reconfiguration.BrainComposition
