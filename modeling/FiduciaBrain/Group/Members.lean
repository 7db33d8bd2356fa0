import FiduciaBrain.Group.Simulation
import FiduciaBrain.Raft.Clock

/-!
# One member at a time

What a step of the group is for a single member's engine (`Step.engine`), and what follows: each
member's engine is one that calls, drains and restarts alone can reach (`engine_reachable`), so an
invariant of one engine holds of every member of every reachable group.
-/

namespace FiduciaBrain.Group

open Infra TermLog Raft

variable {G : Group}

/-- For member `n` a step is nothing, a call, or a crash. -/
theorem Step.engine {s s' : State} (hs : Step G s s') (n : NodeId) :
    s'.node n = s.node n ∨
      (∃ i carried, (s.node n).engine.Admissible i ∧ s'.node n = (s.node n).act i carried) ∨
      ∃ seed, s'.node n = (s.node n).restart seed := by
  have call : ∀ m i carried, (s.node m).engine.Admissible i →
      (s.act m i carried).node n = s.node n ∨
        (∃ j carried', (s.node n).engine.Admissible j ∧
          (s.act m i carried).node n = (s.node n).act j carried') ∨
        ∃ seed, (s.act m i carried).node n = (s.node n).restart seed := by
    intro m i carried ha
    rcases eq_or_ne n m with rfl | hne
    · exact Or.inr (Or.inl ⟨i, carried, ha, State.act_node_self ..⟩)
    · exact Or.inl (State.act_node_of_ne hne i carried)
  cases hs with
  | tick m _ => exact call m .tick [] trivial
  | propose m c _ => exact call m (.propose c) [] trivial
  | compact m index snapshot _ hle => exact call m (.compact index snapshot) [] hle
  | deliver p _ _ => exact call p.dst (.step p.src p.msg) p.folded trivial
  | crash m seed _ =>
    rcases eq_or_ne n m with rfl | hne
    · exact Or.inr (Or.inr ⟨seed, State.restart_node_self ..⟩)
    · exact Or.inl (State.restart_node_of_ne hne seed)

variable (G)

/-- Member `n`'s engine on its own, rebuilt from any valid durable state. -/
def engineOf (n : NodeId) : TransitionSystem Raft where
  init r := ∃ seed p, Persisted.Valid p ∧ r = Raft.new n (G.peers n) (G.cfg n) seed p
  step := EngineStep

variable {G}

theorem default_valid : Persisted.default.Valid :=
  ⟨fun h => absurd rfl h, Iff.rfl, ⟨fun h => absurd rfl h, fun h => absurd h (Nat.lt_irrefl 0)⟩,
    Nat.le_refl _, Nat.le_refl _, trivial, Nat.le_refl _⟩

theorem engine_wellFormed {s : State} (hr : G.system.Reachable s) {n : NodeId}
    (hn : n ∈ G.members) : (s.node n).engine.WellFormed := by
  obtain ⟨a, _, hsa⟩ := simulation.reachable hr
  exact (hsa.node n hn).wellFormed

theorem engine_durable {s : State} (hr : G.system.Reachable s) {n : NodeId}
    (hn : n ∈ G.members) : (s.node n).durable = (s.node n).engine.persistedSnapshot := by
  obtain ⟨a, _, hsa⟩ := simulation.reachable hr
  exact (hsa.node n hn).durable

theorem engine_peers {s : State} (hr : G.system.Reachable s) {n : NodeId}
    (hn : n ∈ G.members) : (s.node n).engine.id = n ∧ (s.node n).engine.peers = G.peers n := by
  obtain ⟨a, _, hsa⟩ := simulation.reachable hr
  exact ⟨(hsa.node n hn).mirrors.id, (hsa.node n hn).mirrors.peers⟩

theorem engine_cfg {s : State} (hr : G.system.Reachable s) (n : NodeId) :
    (s.node n).engine.cfg = G.cfg n := by
  refine hr.invariant (P := fun s => (s.node n).engine.cfg = G.cfg n) ?_ fun s t _ h hst => ?_
  · rintro s ⟨seed, rfl⟩
    rfl
  · rcases hst.engine n with heq | ⟨i, carried, _, heq⟩ | ⟨seed, heq⟩
    · rw [heq]
      exact h
    · rw [heq]
      exact (cfg_run _ i).trans h
    · rw [heq]
      exact h

/-- **A member of a reachable group is reachable on its own.** -/
theorem engine_reachable {s : State} (hr : G.system.Reachable s) {n : NodeId}
    (hn : n ∈ G.members) : (G.engineOf n).Reachable (s.node n).engine := by
  refine hr.invariant (P := fun s => (G.engineOf n).Reachable (s.node n).engine) ?_
    fun s t hrs h hst => ?_
  · rintro s ⟨seed, rfl⟩
    exact .of_init ⟨seed n, _, default_valid, rfl⟩
  · rcases hst.engine n with heq | ⟨i, carried, ha, heq⟩ | ⟨seed, heq⟩
    · rw [heq]
      exact h
    · rw [heq]
      exact (h.step (.call _ i ha)).step (.ready _)
    · rw [heq]
      obtain ⟨hid, hpeers⟩ := engine_peers hrs hn
      refine .of_init ⟨seed, (s.node n).durable, ?_, ?_⟩
      · rw [engine_durable hrs hn]
        exact (engine_wellFormed hrs hn).valid
      · show Raft.new _ _ _ _ _ = _
        rw [hid, hpeers, engine_cfg hrs n]

end FiduciaBrain.Group
