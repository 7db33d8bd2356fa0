import FiduciaBrain.Group.Isolated
import FiduciaBrain.Raft.Lockstep

/-!
# A silent leader that nobody replaces

With one election timeout for all and nothing to draw, a leader that falls silent is never replaced:
its followers poll forever, deny each other every poll, and turn every proposal away, pointing to a
leader (`lockstep_never_reelects`). A restart would help (`majority_recovers`).
-/

namespace FiduciaBrain.Group

open Infra Raft

variable (G : Group) (Q : Finset NodeId)

/-- One of `Q` ticks, is asked to propose, or hears another of `Q`. -/
inductive StepAmong : State → State → Prop
  | tick (s : State) (n : NodeId) : n ∈ Q → StepAmong s (s.act n .tick [])
  | propose (s : State) (n : NodeId) (c : Command) : n ∈ Q → StepAmong s (s.act n (.propose c) [])
  | deliver (s : State) (p : Packet) : p ∈ s.net → p.src ∈ Q → p.dst ∈ Q →
      StepAmong s (s.act p.dst (.step p.src p.msg) p.folded)

/-- A run of `Q` alone, without a restart. -/
def Among : State → State → Prop := Relation.ReflTransGen (StepAmong Q)

/-- All of `Q` are loyal in term `t`, and say nothing to each other that could change it. -/
structure Deadlocked (t : Nat) (s : State) : Prop where
  loyal : ∀ q ∈ Q, Loyal t (s.node q).engine.stance
  harmless : ∀ p ∈ s.net, p.src ∈ Q → p.dst ∈ Q → Harmless t p.msg

variable {G Q} {s s' : State} {t : Nat}

theorem deadlocked_act (hr : G.system.Reachable s) (hQ : ∀ q ∈ Q, q ∈ G.members)
    (h : Deadlocked Q t s) {n : NodeId} (hn : n ∈ Q) {i : Input} {carried : List LogEntry}
    (hi : ∀ p msg, i = .step p msg → Harmless t msg) (hc : ∀ k data, i ≠ .compact k data) :
    Deadlocked Q t (s.act n i carried) := by
  obtain ⟨hloyal, hout⟩ := stays_run (h.loyal n hn) hi hc
  refine ⟨fun q hq => ?_, fun p hp hsrc hdst => ?_⟩
  · rcases eq_or_ne q n with rfl | hne
    · rw [State.act_node_self]
      exact hloyal
    · rw [State.act_node_of_ne hne]
      exact h.loyal q hq
  · rcases List.mem_append.mp hp with hp | hp
    · exact h.harmless p hp hsrc hdst
    · obtain ⟨m, hm, rfl⟩ := List.mem_map.mp hp
      rcases hout m hm with hold | hnew
      · rw [(drained_of_reachable hr).out n (hQ n hn)] at hold
        cases hold
      · exact hnew

theorem StepAmong.step (hQ : ∀ q ∈ Q, q ∈ G.members) (h : StepAmong Q s s') : Step G s s' := by
  cases h with
  | tick n hn => exact .tick s n (hQ n hn)
  | propose n c hn => exact .propose s n c (hQ n hn)
  | deliver p hp _ hdst => exact .deliver s p hp (hQ _ hdst)

/-- However long the run. -/
theorem deadlocked_among (hr : G.system.Reachable s) (hQ : ∀ q ∈ Q, q ∈ G.members)
    (h : Deadlocked Q t s) (hrun : Among Q s s') : Deadlocked Q t s' := by
  suffices hboth : G.system.Reachable s' ∧ Deadlocked Q t s' from hboth.2
  induction hrun with
  | refl => exact ⟨hr, h⟩
  | tail _ hstep ih =>
    obtain ⟨hru, hu⟩ := ih
    refine ⟨hru.step (hstep.step hQ), ?_⟩
    cases hstep with
    | tick n hn => exact deadlocked_act hru hQ hu hn nofun nofun
    | propose n c hn => exact deadlocked_act hru hQ hu hn nofun nofun
    | deliver p hp hsrc hdst =>
      refine deadlocked_act hru hQ hu hdst (fun src msg heq => ?_) nofun
      cases heq
      exact hu.harmless p hp hsrc hdst

theorem engine_armed (hr : G.system.Reachable s) {n : NodeId} (hn : n ∈ G.members) :
    (s.node n).engine.Armed := by
  refine (engine_reachable hr hn).invariant (P := Armed) ?_ fun r r' _ h hstep => ?_
  · rintro r ⟨seed, p, _, rfl⟩
    exact Armed.resetElectionTimer _
  · cases hstep with
    | call i _ => exact h.run i
    | ready => exact h.of_stance rfl

/--
**In lockstep nobody replaces a silent leader.** Let all of `Q` have valid timing with equal bounds
on the election timeout, be of one term, and have a leader on record, with nothing of a later term
and no granted pre-vote on its way between them. Then however long they tick, hear each other and
are asked to propose, none of them runs for the office, the term stays, and every proposal is
refused with the name of a leader.
-/
theorem lockstep_never_reelects (hr : G.system.Reachable s) (hG : 2 ≤ G.members.length)
    (hQ : ∀ q ∈ Q, q ∈ G.members) (hlock : ∀ q ∈ Q, (G.cfg q).Lockstep)
    (hloyal : ∀ q ∈ Q, (s.node q).engine.currentTerm = t ∧ (s.node q).engine.leaderId ≠ none ∧
      ((s.node q).engine.role = .follower ∨ (s.node q).engine.role = .preCandidate))
    (hquiet : ∀ p ∈ s.net, p.src ∈ Q → p.dst ∈ Q → Harmless t p.msg) (hrun : Among Q s s') :
    ∀ q ∈ Q, (s'.node q).engine.currentTerm = t ∧ (s'.node q).engine.leaderId ≠ none ∧
      ((s'.node q).engine.role = .follower ∨ (s'.node q).engine.role = .preCandidate) ∧
      ∀ c, (s'.node q).engine.propose c =
        (.error (s'.node q).engine.leaderId, (s'.node q).engine) := by
  have hstart : Deadlocked Q t s := by
    refine ⟨fun q hq => ?_, hquiet⟩
    obtain ⟨hterm, hleader, hrole⟩ := hloyal q hq
    have hlockq : (s.node q).engine.cfg.Lockstep := by
      rw [engine_cfg hr q]
      exact hlock q hq
    have hnot : (s.node q).engine.role ≠ .leader := by
      rcases hrole with h | h <;> simp [h]
    obtain ⟨hdraw, helapsed⟩ := engine_armed hr (hQ q hq) hnot
    have htimeout := hlockq.draws hdraw
    refine ⟨hlockq, ?_, hterm, hleader, hrole, htimeout, htimeout ▸ helapsed⟩
    show (s.node q).engine.peers ≠ []
    rw [(engine_peers hr (hQ q hq)).2]
    exact peers_ne_nil (hQ q hq) hG
  intro q hq
  have h := (deadlocked_among hr hQ hstart hrun).loyal q hq
  exact ⟨h.term, h.leader, h.role, fun c => if_pos h.not_leader⟩

/-- Members `a`, `b` and `c` with one election timeout. -/
def drill : Group where
  members := ["a", "b", "c"]
  nodup := by decide
  peers n := ["a", "b", "c"].erase n
  peers_perm := fun _ _ => List.Perm.refl _
  cfg _ := { heartbeatTicks := 1, electionMinTicks := 2, electionMaxTicks := 2 }

def drillStart : State where
  node := drill.freshNode fun _ => 7
  net := []

/-- `a` is elected, and `b` and `c` have heard its first append. -/
def drillLed : State := (drillStart.plays drill [.tick "a", .tick "a", .deliver 0, .deliver 2,
  .deliver 3, .deliver 5, .deliver 6, .deliver 7]).getD drillStart

theorem reachable_drillLed : drill.system.Reachable drillLed := by
  have h : (drillStart.plays drill [.tick "a", .tick "a", .deliver 0, .deliver 2,
      .deliver 3, .deliver 5, .deliver 6, .deliver 7]).isSome = true := by decide +kernel
  obtain ⟨t, ht⟩ := Option.isSome_iff_exists.mp h
  rw [drillLed, ht]
  exact TransitionSystem.Reachable.steps (.of_init ⟨_, rfl⟩) (steps_plays ht)

/-- `b` has waited in vain and polls. -/
def drillPolled : State := (drillLed.act "b" .tick []).act "b" .tick []

/-- It is still led by `a`, like `c`. -/
theorem lockstep_never_reelects_drill : (drillPolled.node "b").engine.role = .preCandidate ∧
    ∀ q ∈ ({"b", "c"} : Finset NodeId), (drillPolled.node q).engine.currentTerm = 1 ∧
      (drillPolled.node q).engine.leaderId ≠ none ∧
      ((drillPolled.node q).engine.role = .follower ∨
        (drillPolled.node q).engine.role = .preCandidate) ∧
      ∀ c, (drillPolled.node q).engine.propose c =
        (.error (drillPolled.node q).engine.leaderId, (drillPolled.node q).engine) :=
  ⟨by decide +kernel, lockstep_never_reelects reachable_drillLed (by decide) (by decide)
    (by decide) (by decide +kernel) (by decide +kernel)
    (.tail (.single (.tick _ "b" (by decide))) (.tick _ "b" (by decide)))⟩

end FiduciaBrain.Group
