import FiduciaBrain.SchedulerReplay.Machine

/-!
# The shapes of the model's states

A reachable state of the model is, up to its accounting, one of a few shapes: how far the story of
node 1 has got, whether node 4 has joined, and where the placement came from. `exists_next` says
what each action does to the shape, `scheduler_safe` what follows.
-/

namespace FiduciaBrain.SchedulerReplay

open Infra

variable {s s' : State} {a : Action}

/-- How far the story of node 1 has got. -/
inductive Fate
  | healthy
  | lost
  | dead
  | draining
  | evacuated
  | forgotten
  deriving DecidableEq, Repr

namespace Fate

def known : Fate → Bool
  | lost | forgotten => false
  | _ => true

def hosts : Fate → Bool
  | healthy | dead | draining => true
  | _ => false

def drains : Fate → Bool
  | draining | evacuated => true
  | _ => false

end Fate

/-- Where the placement came from. -/
inductive Origin
  | initial
  | snapshot
  | cold
  | adopted
  deriving DecidableEq, Repr

namespace Origin

/-- Node 2 has been reported as the leader since the cold start. -/
def restarted : Origin → Bool
  | cold | adopted => true
  | _ => false

def placement : Origin → Finset Nat
  | initial | adopted => abc
  | snapshot => bcd
  | cold => ∅

def preferredLeader : Origin → Nat
  | initial => 1
  | snapshot | adopted => 2
  | cold => noNode

def generation : Origin → Nat
  | initial => 1
  | snapshot | cold => 2
  | adopted => 3

end Origin

/-- What a reachable state is, up to its accounting. `joined` is about node 4. -/
structure Shape where
  role : Role
  fate : Fate
  joined : Bool
  origin : Origin
  deriving DecidableEq, Repr

namespace Shape

def known (f : Fate) (joined : Bool) : Finset Nat :=
  (if f.known then {1} else ∅) ∪ {2, 3} ∪ (if joined then {4} else ∅)

def healthy (f : Fate) (joined : Bool) : Finset Nat :=
  (if f = .healthy then {1} else ∅) ∪ {2, 3} ∪ (if joined then {4} else ∅)

def draining (f : Fate) : Finset Nat := if f.drains then {1} else ∅

def hosted (f : Fate) : Finset Nat := (if f.hosts then {1} else ∅) ∪ {2, 3}

def observedLeader (f : Fate) (o : Origin) : Nat :=
  if o.restarted then 2 else if f = .healthy then 1 else noNode

def forgotten (f : Fate) : Finset Nat := if f = .forgotten then {1} else ∅

variable (sh : Shape)

/-- Node 1 is lost only while it is the leader that is observed, and forgotten only for node 4. -/
structure Possible : Prop where
  lost : sh.fate = .lost → sh.origin.restarted = false
  forgotten : sh.fate = .forgotten → sh.origin = .snapshot ∧ sh.joined = true

/-- The state is of the shape. -/
structure Fits (s : State) : Prop where
  possible : sh.Possible
  role : s.role = sh.role
  known : s.known = known sh.fate sh.joined
  healthy : s.healthy = healthy sh.fate sh.joined
  draining : s.draining = draining sh.fate
  hosted : s.hosted = hosted sh.fate
  observedLeader : s.observedLeader = observedLeader sh.fate sh.origin
  placement : s.placement = sh.origin.placement
  preferredLeader : s.preferredLeader = sh.origin.preferredLeader
  generation : s.generation = sh.origin.generation
  forgotten : s.forgotten = forgotten sh.fate

end Shape

/-- What an action does to the shape. -/
inductive Next : Shape → Action → Shape → Prop
  | becomeFollower (f j o) : Next ⟨.leader, f, j, o⟩ .becomeFollower ⟨.follower, f, j, o⟩
  | becomeLeader (f j o) : Next ⟨.follower, f, j, o⟩ .becomeLeader ⟨.leader, f, j, o⟩
  | lose (r j o) : o.restarted = false →
      Next ⟨r, .healthy, j, o⟩ .loseAFromSoftMembership ⟨r, .lost, j, o⟩
  | heartbeat (r j o) : o.restarted = false → Next ⟨r, .lost, j, o⟩ .heartbeatA ⟨r, .healthy, j, o⟩
  | join (r f o) : Next ⟨r, f, false, o⟩ .addD ⟨r, f, true, o⟩
  | die (r j o) : Next ⟨r, .healthy, j, o⟩ .markADead ⟨r, .dead, j, o⟩
  | drain (r j o) : Next ⟨r, .healthy, j, o⟩ .beginDrainA ⟨r, .draining, j, o⟩
  | evacuate (r j o) : Next ⟨r, .draining, j, o⟩ .evacuateA ⟨r, .evacuated, j, o⟩
  | prepare : Next ⟨.leader, .healthy, false, .initial⟩ .prepareColdStart
      ⟨.leader, .healthy, false, .cold⟩
  | restore (f j) : f ≠ .forgotten →
      Next ⟨.leader, f, j, .initial⟩ .restoreSnapshotBcd ⟨.leader, f, j, .snapshot⟩
  | followerHold (f j o) : Next ⟨.follower, f, j, o⟩ .reconcileFollowerHold ⟨.follower, f, j, o⟩
  | unheardOfA (j) : Next ⟨.leader, .lost, j, .initial⟩ .reconcileIncompleteHold
      ⟨.leader, .lost, j, .initial⟩
  | unheardOfD (f) : Next ⟨.leader, f, false, .snapshot⟩ .reconcileIncompleteHold
      ⟨.leader, f, false, .snapshot⟩
  | degradedHold (o) : o = .initial ∨ o = .adopted →
      Next ⟨.leader, .evacuated, false, o⟩ .reconcileDegradedHold ⟨.leader, .evacuated, false, o⟩
  | rejected (j o) : o = .initial ∨ o = .adopted →
      Next ⟨.leader, .evacuated, j, o⟩ .attemptForgetARejected ⟨.leader, .evacuated, j, o⟩
  | adopt : Next ⟨.leader, .healthy, false, .cold⟩ .reconcileColdAdopt
      ⟨.leader, .healthy, false, .adopted⟩
  | replace : Next ⟨.leader, .dead, true, .initial⟩ .reconcileReplaceDeadA
      ⟨.leader, .dead, true, .snapshot⟩
  | replaceAndForget : Next ⟨.leader, .evacuated, true, .initial⟩ .reconcileReplaceAndForgetDrainedA
      ⟨.leader, .forgotten, true, .snapshot⟩
  | forget : Next ⟨.leader, .evacuated, true, .snapshot⟩ .reconcileForgetDrainedAAfterPlacement
      ⟨.leader, .forgotten, true, .snapshot⟩
  | settled (j o) : o = .initial ∨ o = .adopted →
      Next ⟨.leader, .healthy, j, o⟩ .reconcileIdempotent ⟨.leader, .healthy, j, o⟩
  | settledWithoutA (f) : f ≠ .evacuated →
      Next ⟨.leader, f, true, .snapshot⟩ .reconcileIdempotent ⟨.leader, f, true, .snapshot⟩
  | idle (sh) : Next sh .idle sh

namespace Shape

variable {f : Fate} {j : Bool} {o : Origin}

theorem known_eq_nodes : known f j = nodes ↔ f.known = true ∧ j = true := by
  cases f <;> cases j <;> decide

theorem healthy_eq_abc : healthy f j = abc ↔ f = .healthy ∧ j = false := by
  cases f <;> cases j <;> decide

theorem healthy_eq_bcd : healthy f j = bcd ↔ f ≠ .healthy ∧ j = true := by
  cases f <;> cases j <;> decide

theorem healthy_eq_bc : healthy f j = {2, 3} ↔ f ≠ .healthy ∧ j = false := by
  cases f <;> cases j <;> decide

theorem one_mem_known : 1 ∈ known f j ↔ f.known = true := by
  cases f <;> cases j <;> decide

theorem four_mem_known : 4 ∈ known f j ↔ j = true := by
  cases f <;> cases j <;> decide

theorem one_mem_healthy : 1 ∈ healthy f j ↔ f = .healthy := by
  cases f <;> cases j <;> decide

theorem card_draining : (draining f).card = 0 ↔ f.drains = false := by
  cases f <;> decide

theorem one_mem_draining : 1 ∈ draining f ↔ f.drains = true := by
  cases f <;> decide

theorem one_mem_hosted : 1 ∈ hosted f ↔ f.hosts = true := by
  cases f <;> decide

theorem one_mem_forgotten : 1 ∈ forgotten f ↔ f = .forgotten := by
  cases f <;> decide

theorem card_forgotten : (forgotten f).card = 0 ↔ f ≠ .forgotten := by
  cases f <;> decide

theorem observedLeader_eq_one : observedLeader f o = 1 ↔ o.restarted = false ∧ f = .healthy := by
  cases f <;> cases o <;> decide

theorem observedLeader_eq_none :
    observedLeader f o = noNode ↔ o.restarted = false ∧ f ≠ .healthy := by
  cases f <;> cases o <;> decide

theorem placement_eq_abc : o.placement = abc ↔ o = .initial ∨ o = .adopted := by
  cases o <;> decide

theorem placement_eq_bcd : o.placement = bcd ↔ o = .snapshot := by
  cases o <;> decide

theorem card_placement : o.placement.card = 0 ↔ o = .cold := by
  cases o <;> decide

theorem one_mem_placement : 1 ∈ o.placement ↔ o = .initial ∨ o = .adopted := by
  cases o <;> decide

theorem placement_subset_known : o.placement ⊆ known f j ↔
    o = .cold ∨ (o = .initial ∨ o = .adopted) ∧ f.known = true ∨ o = .snapshot ∧ j = true := by
  cases f <;> cases j <;> cases o <;> decide

theorem placement_subset_healthy : o.placement ⊆ healthy f j ↔
    o = .cold ∨ (o = .initial ∨ o = .adopted) ∧ f = .healthy ∨ o = .snapshot ∧ j = true := by
  cases f <;> cases j <;> cases o <;> decide

theorem generation_eq_one : o.generation = 1 ↔ o = .initial := by
  cases o <;> decide

theorem known_sdiff : known .healthy j \ {1} = known .lost j := by
  cases j <;> decide

theorem known_union : known .lost j ∪ {1} = known .healthy j := by
  cases j <;> decide

theorem known_join : known f false ∪ {4} = known f true := by
  cases f <;> decide

theorem healthy_sdiff (hf : f ≠ .healthy) : healthy .healthy j \ {1} = healthy f j := by
  cases f <;> first | exact absurd rfl hf | (cases j <;> decide)

theorem healthy_union : healthy .lost j ∪ {1} = healthy .healthy j := by
  cases j <;> decide

theorem healthy_join : healthy f false ∪ {4} = healthy f true := by
  cases f <;> decide

theorem observedLeader_of_ne (hf : f ≠ .healthy) :
    observedLeader f o
      = if observedLeader .healthy o = 1 then noNode else observedLeader .healthy o := by
  cases f <;> first | exact absurd rfl hf | (cases o <;> decide)

theorem fits_initial : Fits ⟨.leader, .healthy, false, .initial⟩ initial where
  possible := ⟨nofun, nofun⟩
  role := rfl
  known := by decide
  healthy := by decide
  draining := by decide
  hosted := by decide
  observedLeader := rfl
  placement := rfl
  preferredLeader := rfl
  generation := rfl
  forgotten := by decide

end Shape

open Shape

theorem leaderWithoutA_of_fits {sh : Shape} (h : sh.Fits s) :
    s.leaderWithoutA = if Shape.observedLeader sh.fate sh.origin = 1 then noNode
      else Shape.observedLeader sh.fate sh.origin := by
  rw [State.leaderWithoutA, h.observedLeader]

theorem eq_evacuated {f : Fate} (hdrain : 1 ∈ draining f) (hhost : 1 ∉ hosted f) :
    f = .evacuated := by
  cases f <;> first | rfl | exact absurd hdrain (by decide) | exact absurd (by decide) hhost

theorem eq_initial {f : Fate} {o : Origin} (hplacement : o.placement = abc)
    (hleader : Shape.observedLeader f o = noNode) : o = .initial :=
  (placement_eq_abc.mp hplacement).resolve_right fun ho => by
    rw [ho] at hleader
    exact absurd (observedLeader_eq_none.mp hleader).1 (by decide)

/-- **An action keeps to the shapes.** -/
theorem exists_next {sh : Shape} (h : sh.Fits s) (hfire : fire s a = some s') :
    ∃ sh', Next sh a sh' ∧ sh'.Fits s' := by
  obtain ⟨he, rfl⟩ := fire_eq_some.mp hfire
  obtain ⟨r, f, j, o⟩ := sh
  simp only [Action.Enabled, h.role, h.known, h.healthy, h.draining, h.hosted, h.observedLeader,
    h.placement, h.generation, h.forgotten, h.preferredLeader] at he
  cases a with
  | becomeFollower =>
    obtain rfl : r = .leader := he
    exact ⟨_, .becomeFollower f j o,
      { h with possible := ⟨h.possible.1, h.possible.2⟩, role := rfl }⟩
  | becomeLeader =>
    obtain rfl : r = .follower := he
    exact ⟨_, .becomeLeader f j o,
      { h with possible := ⟨h.possible.1, h.possible.2⟩, role := rfl }⟩
  | loseAFromSoftMembership =>
    obtain ⟨ho, rfl⟩ := observedLeader_eq_one.mp he.2.2
    exact ⟨_, .lose r j o ho, { h with
      possible := ⟨fun _ => ho, nofun⟩
      known := (congrArg (· \ {1}) h.known).trans known_sdiff
      healthy := (congrArg (· \ {1}) h.healthy).trans (healthy_sdiff (by simp))
      draining := congrArg (· \ {1}) h.draining
      hosted := (congrArg (· \ {1}) h.hosted).trans
        (by decide : hosted .healthy \ {1} = hosted .lost)
      observedLeader := (observedLeader_eq_none.mpr ⟨ho, by simp⟩).symm
      forgotten := h.forgotten }⟩
  | heartbeatA =>
    obtain ⟨hforgotten, hknown⟩ := he
    obtain rfl : f = .lost := by
      rw [one_mem_forgotten] at hforgotten
      rw [one_mem_known] at hknown
      cases f <;> simp_all [Fate.known]
    have ho : o.restarted = false := h.possible.lost rfl
    exact ⟨_, .heartbeat r j o ho, { h with
      possible := ⟨nofun, nofun⟩
      known := (congrArg (· ∪ {1}) h.known).trans known_union
      healthy := (congrArg (· ∪ {1}) h.healthy).trans healthy_union
      draining := h.draining
      hosted := (congrArg (· ∪ {1}) h.hosted).trans
        (by decide : hosted .lost ∪ {1} = hosted .healthy)
      observedLeader := (observedLeader_eq_one.mpr ⟨ho, rfl⟩).symm
      forgotten := h.forgotten }⟩
  | addD =>
    obtain rfl : j = false := by simpa [four_mem_known] using he
    exact ⟨_, .join r f o, { h with
      possible := ⟨h.possible.1, fun hf => ⟨(h.possible.2 hf).1, rfl⟩⟩
      known := (congrArg (· ∪ {4}) h.known).trans known_join
      healthy := (congrArg (· ∪ {4}) h.healthy).trans healthy_join }⟩
  | markADead =>
    obtain rfl := one_mem_healthy.mp he.2.1
    exact ⟨_, .die r j o, { h with
      possible := ⟨nofun, nofun⟩
      known := h.known
      healthy := (congrArg (· \ {1}) h.healthy).trans (healthy_sdiff (by simp))
      draining := h.draining
      hosted := h.hosted
      observedLeader := (leaderWithoutA_of_fits h).trans (observedLeader_of_ne (by simp)).symm
      forgotten := h.forgotten }⟩
  | beginDrainA =>
    obtain rfl := one_mem_healthy.mp he.2.1
    exact ⟨_, .drain r j o, { h with
      possible := ⟨nofun, nofun⟩
      known := h.known
      healthy := (congrArg (· \ {1}) h.healthy).trans (healthy_sdiff (by simp))
      draining := congrArg (· ∪ {1}) h.draining
      hosted := h.hosted
      observedLeader := (leaderWithoutA_of_fits h).trans (observedLeader_of_ne (by simp)).symm
      forgotten := h.forgotten }⟩
  | evacuateA =>
    obtain ⟨hdrain, hhost⟩ := he
    obtain rfl : f = .draining := by
      rw [one_mem_draining] at hdrain
      rw [one_mem_hosted] at hhost
      cases f <;> simp_all [Fate.drains, Fate.hosts]
    exact ⟨_, .evacuate r j o, { h with
      possible := ⟨nofun, nofun⟩
      known := h.known
      healthy := h.healthy
      draining := h.draining
      hosted := (congrArg (· \ {1}) h.hosted).trans
        (by decide : hosted .draining \ {1} = hosted .evacuated)
      observedLeader := (leaderWithoutA_of_fits h).trans (by cases o <;> rfl)
      forgotten := h.forgotten }⟩
  | prepareColdStart =>
    obtain ⟨hrole, hgen, -, hhealthy, -⟩ := he
    obtain ⟨rfl, rfl⟩ := healthy_eq_abc.mp hhealthy
    obtain rfl : r = .leader := hrole
    obtain rfl := generation_eq_one.mp hgen
    exact ⟨_, .prepare, { h with
      possible := ⟨nofun, nofun⟩
      observedLeader := rfl
      placement := rfl
      hosted := (by decide : abc = hosted .healthy)
      preferredLeader := rfl
      generation := congrArg (· + 1) h.generation }⟩
  | restoreSnapshotBcd =>
    obtain ⟨hrole, hgen, -, hforgotten⟩ := he
    obtain rfl : r = .leader := hrole
    obtain rfl := generation_eq_one.mp hgen
    have hf := card_forgotten.mp hforgotten
    exact ⟨_, .restore f j hf, { h with
      possible := ⟨fun _ => rfl, fun h => absurd h hf⟩
      placement := rfl
      preferredLeader := rfl
      generation := congrArg (· + 1) h.generation }⟩
  | reconcileFollowerHold =>
    obtain rfl : r = .follower := he
    exact ⟨_, .followerHold f j o, { h with }⟩
  | reconcileIncompleteHold =>
    obtain ⟨hrole, hcard, hsub⟩ := he
    obtain rfl : r = .leader := hrole
    have hcold : o ≠ .cold := fun ho => absurd (card_placement.mpr ho) (Nat.ne_of_gt hcard)
    rw [placement_subset_known] at hsub
    cases o with
    | cold => exact absurd rfl hcold
    | snapshot =>
      obtain rfl : j = false := by simpa using hsub
      exact ⟨_, .unheardOfD f, { h with }⟩
    | initial =>
      obtain rfl : f = .lost := by
        have hf : f ≠ .forgotten := fun hf => nomatch (h.possible.forgotten hf).1
        cases f <;> simp_all [Fate.known]
      exact ⟨_, .unheardOfA j, { h with }⟩
    | adopted =>
      have hlost : f ≠ .lost := fun hf => nomatch h.possible.lost hf
      have hf : f ≠ .forgotten := fun hf => nomatch (h.possible.forgotten hf).1
      cases f <;> simp_all [Fate.known]
  | reconcileDegradedHold =>
    obtain ⟨hrole, hplacement, -, hhealthy, hdrain, hhost⟩ := he
    obtain rfl : r = .leader := hrole
    obtain ⟨-, rfl⟩ := healthy_eq_bc.mp hhealthy
    obtain rfl := eq_evacuated hdrain hhost
    exact ⟨_, .degradedHold o (placement_eq_abc.mp hplacement), { h with }⟩
  | attemptForgetARejected =>
    obtain ⟨hrole, -, hdrain, hhost, hplacement⟩ := he
    obtain rfl : r = .leader := hrole
    obtain rfl := eq_evacuated hdrain hhost
    exact ⟨_, .rejected j o (one_mem_placement.mp hplacement), { h with }⟩
  | reconcileColdAdopt =>
    obtain ⟨hrole, hplacement, -, hhealthy, -⟩ := he
    obtain rfl : r = .leader := hrole
    obtain ⟨rfl, rfl⟩ := healthy_eq_abc.mp hhealthy
    obtain rfl := card_placement.mp hplacement
    exact ⟨_, .adopt, { h with
      possible := ⟨nofun, nofun⟩
      placement := rfl
      preferredLeader := rfl
      generation := congrArg (· + 1) h.generation }⟩
  | reconcileReplaceDeadA =>
    obtain ⟨hrole, hknown, hhealthy, hdrain, hplacement, hleader⟩ := he
    obtain rfl : r = .leader := hrole
    obtain ⟨hf, rfl⟩ := known_eq_nodes.mp hknown
    obtain rfl : f = .dead := by
      have hne := (healthy_eq_bcd.mp hhealthy).1
      rw [card_draining] at hdrain
      cases f <;> simp_all [Fate.known, Fate.drains]
    obtain rfl := eq_initial hplacement hleader
    exact ⟨_, .replace, { h with
      possible := ⟨nofun, nofun⟩
      placement := rfl
      preferredLeader := rfl
      observedLeader := h.observedLeader
      generation := congrArg (· + 1) h.generation }⟩
  | reconcileReplaceAndForgetDrainedA =>
    obtain ⟨hrole, hknown, -, hdrain, hhost, hplacement, hleader⟩ := he
    obtain rfl : r = .leader := hrole
    obtain ⟨-, rfl⟩ := known_eq_nodes.mp hknown
    obtain rfl := eq_evacuated (by rw [hdrain]; decide) hhost
    obtain rfl := eq_initial hplacement hleader
    exact ⟨_, .replaceAndForget, { h with
      possible := ⟨nofun, fun _ => ⟨rfl, rfl⟩⟩
      known := (by decide : bcd = known .forgotten true)
      healthy := h.healthy
      draining := (by decide : ∅ = draining .forgotten)
      hosted := h.hosted
      observedLeader := h.observedLeader
      placement := rfl
      preferredLeader := rfl
      generation := congrArg (· + 1) h.generation
      forgotten := congrArg (· ∪ {1}) h.forgotten }⟩
  | reconcileForgetDrainedAAfterPlacement =>
    obtain ⟨hrole, hknown, -, hdrain, hhost, hplacement, -⟩ := he
    obtain rfl : r = .leader := hrole
    obtain ⟨-, rfl⟩ := known_eq_nodes.mp hknown
    obtain rfl := eq_evacuated (by rw [hdrain]; decide) hhost
    obtain rfl := placement_eq_bcd.mp hplacement
    exact ⟨_, .forget, { h with
      possible := ⟨nofun, fun _ => ⟨rfl, rfl⟩⟩
      known := (by decide : bcd = known .forgotten true)
      healthy := h.healthy
      draining := (by decide : ∅ = draining .forgotten)
      hosted := h.hosted
      observedLeader := h.observedLeader
      forgotten := congrArg (· ∪ {1}) h.forgotten }⟩
  | reconcileIdempotent =>
    obtain ⟨hrole, -, hsub, hpending, hplacement⟩ := he
    obtain rfl : r = .leader := hrole
    rw [placement_subset_healthy] at hsub
    cases o with
    | cold => rcases hplacement with ⟨ho, -⟩ | ⟨ho, -⟩ | ⟨ho, -⟩ | ⟨ho, -⟩ <;>
        exact absurd ho (by decide)
    | initial =>
      obtain rfl : f = .healthy := by simpa using hsub
      exact ⟨_, .settled j _ (.inl rfl), { h with }⟩
    | adopted =>
      obtain rfl : f = .healthy := by simpa using hsub
      exact ⟨_, .settled j _ (.inr rfl), { h with }⟩
    | snapshot =>
      obtain rfl : j = true := by simpa using hsub
      have hf : f ≠ .evacuated := by
        rintro rfl
        exact hpending (by decide)
      exact ⟨_, .settledWithoutA f hf, { h with }⟩
  | idle => exact ⟨_, .idle _, h⟩

/-! ## Accounting -/

namespace Event

def writesPlacement (e : Event) : Bool :=
  e ∈ [coldStartPrepared, snapshotRestored, coldAdopted, deadReplaced, drainReplacedAndForgotten]

def forgets (e : Event) : Bool := e ∈ [drainReplacedAndForgotten, drainForgottenAfterPlacement]

/-- What the last event says about the shape behind it. -/
def Justified (sh : Shape) : Event → Prop
  | followerHeld => sh.role = .follower
  | incompleteHeld => sh.origin ≠ .cold ∧ ¬ sh.origin.placement ⊆ known sh.fate sh.joined
  | degradedHeld => sh.origin.placement = abc ∧ sh.fate = .evacuated ∧ sh.joined = false
  | forgetRejected => 1 ∈ sh.origin.placement ∧ sh.fate = .evacuated
  | coldStartPrepared => sh.role = .leader
  | snapshotRestored => sh.role = .leader ∧ sh.origin = .snapshot
  | coldAdopted => sh.role = .leader ∧ sh.origin = .adopted
  | deadReplaced =>
    sh.role = .leader ∧ sh.fate = .dead ∧ sh.joined = true ∧ sh.origin = .snapshot
  | drainReplacedAndForgotten | drainForgottenAfterPlacement =>
    sh.role = .leader ∧ sh.fate = .forgotten ∧ sh.joined = true ∧ sh.origin = .snapshot
  | _ => True

end Event

/-- The accounting of a state of the shape. -/
structure Accounts (sh : Shape) (s : State) : Prop where
  fits : sh.Fits s
  delta : s.lastGenerationDelta = if s.lastPlacementWrite then 1 else 0
  placementWrite : s.lastPlacementWrite = s.lastEvent.writesPlacement
  forgetWrite : s.lastForgetWrite = s.lastEvent.forgets
  justified : s.lastEvent.Justified sh

theorem Accounts.fire {sh : Shape} (h : Accounts sh s) (hfire : fire s a = some s') :
    ∃ sh', Next sh a sh' ∧ Accounts sh' s' := by
  obtain ⟨sh', hnext, hfits⟩ := exists_next h.fits hfire
  obtain ⟨-, rfl⟩ := fire_eq_some.mp hfire
  refine ⟨sh', hnext, ?_⟩
  cases hnext with
  | idle => exact h
  | becomeFollower | becomeLeader | lose | heartbeat | join | die | drain | evacuate =>
    exact ⟨hfits, rfl, rfl, rfl, trivial⟩
  | prepare | followerHold => exact ⟨hfits, rfl, rfl, rfl, rfl⟩
  | restore | adopt => exact ⟨hfits, rfl, rfl, rfl, rfl, rfl⟩
  | unheardOfA j => exact ⟨hfits, rfl, rfl, rfl, nofun, by cases j <;> decide⟩
  | unheardOfD f => exact ⟨hfits, rfl, rfl, rfl, nofun, by cases f <;> decide⟩
  | degradedHold o ho => exact ⟨hfits, rfl, rfl, rfl, placement_eq_abc.mpr ho, rfl, rfl⟩
  | rejected j o ho => exact ⟨hfits, rfl, rfl, rfl, one_mem_placement.mpr ho, rfl⟩
  | replace | replaceAndForget | forget => exact ⟨hfits, rfl, rfl, rfl, rfl, rfl, rfl, rfl⟩
  | settled | settledWithoutA => exact ⟨hfits, rfl, rfl, rfl, trivial⟩

theorem accounts_initial : Accounts ⟨.leader, .healthy, false, .initial⟩ initial :=
  ⟨fits_initial, rfl, rfl, rfl, trivial⟩

theorem accounts_of_reachable (h : system.Reachable s) : ∃ sh, Accounts sh s := by
  refine h.invariant (P := fun s => ∃ sh, Accounts sh s) ?_ ?_
  · rintro _ rfl
    exact ⟨_, accounts_initial⟩
  · rintro s t _ ⟨sh, hs⟩ ⟨a, hfire⟩
    obtain ⟨sh', -, ht⟩ := hs.fire hfire
    exact ⟨sh', ht⟩

/-! ## Safety -/

section Safety

variable {sh : Shape}

theorem identifiersAreBounded_of_fits (h : sh.Fits s) : IdentifiersAreBounded s := by
  obtain ⟨r, f, j, o⟩ := sh
  constructor <;>
    simp only [h.known, h.healthy, h.draining, h.hosted, h.placement, h.forgotten,
      h.observedLeader, h.preferredLeader]
  case known | healthy | healthyKnown | drainingKnown | hostedKnown | healthyOrDraining
      | forgottenUnknown => cases f <;> cases j <;> decide
  case draining | hosted | forgotten => cases f <;> decide
  case placement | preferredLeader => cases o <;> decide
  case observedLeader => cases f <;> cases o <;> decide

theorem placementShape_of_fits (h : sh.Fits s) : PlacementShape s := by
  obtain ⟨r, f, j, o⟩ := sh
  constructor <;> simp only [h.placement, h.preferredLeader, h.forgotten]
  case size | leader => cases o <;> decide
  case forgotten =>
    by_cases hf : f = .forgotten
    · obtain rfl : o = .snapshot := (h.possible.forgotten hf).1
      rw [hf]
      decide
    · rw [Shape.forgotten, if_neg hf, Finset.empty_inter, Finset.card_empty]

theorem observedLeaderIsEligible_of_fits (h : sh.Fits s) : ObservedLeaderIsEligible s := by
  obtain ⟨r, f, j, o⟩ := sh
  simp only [ObservedLeaderIsEligible, h.known, h.healthy, h.hosted, h.observedLeader]
  cases f <;> cases j <;> cases o <;> decide

theorem generation_bounds_of_fits (h : sh.Fits s) : 1 ≤ s.generation ∧ s.generation ≤ 3 := by
  rw [h.generation]
  cases sh.origin <;> decide

end Safety

/-- What the last event says about the writes. -/
theorem Accounts.writes {sh : Shape} (h : Accounts sh s) :
    HoldOrRejectionHasNoWrite s ∧ DurableWritesAreLeaderOnly s := by
  have hj := h.justified
  rw [HoldOrRejectionHasNoWrite, DurableWritesAreLeaderOnly, h.delta, h.placementWrite,
    h.forgetWrite, h.fits.role]
  cases he : s.lastEvent <;> rw [he] at hj <;>
    simp_all [Event.writesPlacement, Event.forgets, Event.Justified]

/-- **The model is safe.** -/
theorem scheduler_safe (h : system.Reachable s) : SchedulerSafety s := by
  obtain ⟨sh, ha⟩ := accounts_of_reachable h
  have hf := ha.fits
  have hj := ha.justified
  have hgen := generation_bounds_of_fits hf
  exact
    { bounded := identifiersAreBounded_of_fits hf
      placement := placementShape_of_fits hf
      observedLeader := observedLeaderIsEligible_of_fits hf
      transition := ⟨by rw [ha.delta]; split <;> simp, hgen.1, hgen.2.trans (by decide)⟩
      hold := ha.writes.1
      placementWrite := by
        rw [PlacementWriteAccounting, ha.placementWrite, Event.writesPlacement, decide_eq_true_iff]
      generation := ha.delta
      forget := by rw [ForgetAccounting, ha.forgetWrite, Event.forgets, decide_eq_true_iff]
      leaderOnly := ha.writes.2
      followerHold := fun he => by
        rw [he] at hj
        exact hf.role.trans hj
      incompleteHold := fun he => by
        rw [he] at hj
        rw [hf.placement, hf.known]
        exact ⟨Nat.pos_of_ne_zero fun hc => hj.1 (card_placement.mp hc), hj.2⟩
      degradedHold := fun he => by
        rw [he] at hj
        obtain ⟨ho, hfate, hjoined⟩ := hj
        rw [hf.placement, hf.healthy, hf.draining, hf.known, hf.hosted, hfate, hjoined]
        exact ⟨ho, by decide⟩
      rejectedForget := fun he => by
        rw [he] at hj
        obtain ⟨ho, hfate⟩ := hj
        rw [hf.placement, hf.draining, hf.known, hf.forgotten, hfate]
        exact ⟨one_mem_known.mpr rfl, by decide, ho, by decide⟩
      coldAdoption := fun he => by
        rw [he] at hj
        rw [hf.placement, hf.preferredLeader, hf.generation, hj.2]
        decide
      deadReplacement := fun he => by
        rw [he] at hj
        obtain ⟨-, hfate, hjoined, ho⟩ := hj
        rw [hf.known, hf.healthy, hf.placement, hf.preferredLeader, hf.forgotten, hfate, hjoined,
          ho]
        decide
      drainFinalization := fun he => by
        have hfinal : sh.fate = .forgotten ∧ sh.joined = true ∧ sh.origin = .snapshot := by
          simp only [List.mem_cons, List.not_mem_nil, or_false] at he
          rcases he with he | he <;> rw [he] at hj <;> exact hj.2
        obtain ⟨hfate, hjoined, ho⟩ := hfinal
        rw [hf.known, hf.healthy, hf.placement, hf.preferredLeader, hf.draining, hf.forgotten,
          hfate, hjoined, ho]
        decide
      snapshot := fun he => by
        rw [he] at hj
        rw [hf.placement, hf.preferredLeader, ha.delta, ha.placementWrite, he, hj.2]
        decide }

/-- A drained node is forgotten once the placement has left it. -/
theorem scheduler_safe_drained :
    ∃ s, runAll fire initial [.addD, .beginDrainA, .evacuateA, .reconcileReplaceAndForgetDrainedA]
        = some s ∧ SchedulerSafety s ∧ 1 ∈ s.forgotten := by
  have hevent : (runAll fire initial [.addD, .beginDrainA, .evacuateA,
      .reconcileReplaceAndForgetDrainedA]).map (·.lastEvent) = some .drainReplacedAndForgotten := by
    decide +kernel
  obtain ⟨s, hs, he⟩ := Option.map_eq_some_iff.mp hevent
  have hsafe : SchedulerSafety s := scheduler_safe
    ((TransitionSystem.Reachable.of_init rfl).steps (steps_of_runAll _ hs))
  have hfinal := hsafe.drainFinalization (by rw [he]; decide)
  exact ⟨s, hs, hsafe, hfinal.2.2.2.2.2⟩

end FiduciaBrain.SchedulerReplay
