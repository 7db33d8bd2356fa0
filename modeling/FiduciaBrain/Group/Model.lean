import FiduciaBrain.Raft.Run

/-!
# A group of members

Engines that talk over a network. One action is what the driver does under its locks: a call to
one engine, `ready`, the durable write, and only then the messages. The network keeps every message
ever sent and may deliver any of them, any number of times, in any order, or never. A member can
crash at any moment and is rebuilt from its durable state.

Two components record history and feed back into nothing: `folded`, the entries a member's snapshot
stands for, which travels with the snapshot, and `handed`, everything a member has ever handed out.
-/

namespace FiduciaBrain

open Infra

/-- A fixed membership: distinct ids, every member's peers the others, timing of its own. -/
structure Group where
  members : List NodeId
  nodup : members.Nodup
  peers : NodeId → List NodeId
  peers_perm : ∀ n ∈ members, (peers n).Perm (members.erase n)
  cfg : NodeId → RaftConfig

/-- A member. -/
structure Node where
  engine : Raft
  durable : Persisted
  folded : List LogEntry
  handed : List (Nat × Command)

/-- A message in the network. `folded` is the history behind the snapshot it carries. -/
structure Packet where
  src : NodeId
  dst : NodeId
  msg : RaftMessage
  folded : List LogEntry

namespace Node

/-- The entries the snapshot stands for and the live ones. -/
def history (node : Node) : List LogEntry := node.folded ++ node.engine.log

/-- What the snapshot stands for after a call: more of the own log, or what came with the leader's
snapshot. -/
def foldedAfter (node : Node) (i : Raft.Input) (carried : List LogEntry) : List LogEntry :=
  if (node.engine.run i).baseIndex = node.engine.baseIndex then node.folded
  else
    match i with
    | .compact index _ => node.history.take index
    | _ => carried

/-- One call, drained and made durable. -/
def act (node : Node) (i : Raft.Input) (carried : List LogEntry) : Node :=
  let r := node.engine.run i
  { engine := r.ready.2
    durable := r.ready.1.persist.getD node.durable
    folded := node.foldedAfter i carried
    handed := node.handed ++ r.ready.1.committed }

/-- The messages a call releases. -/
def sent (node : Node) (i : Raft.Input) (carried : List LogEntry) : List Packet :=
  (node.engine.run i).ready.1.messages.map fun m =>
    { src := node.engine.id
      dst := m.recipient
      msg := m.msg
      folded := match m.msg with
        | .installSnapshot req => (node.foldedAfter i carried).take req.lastIncludedIndex
        | _ => [] }

/-- Rebuild the engine from the durable state. -/
def restart (node : Node) (seed : UInt64) : Node :=
  { node with
    engine := Raft.new node.engine.id node.engine.peers node.engine.cfg seed node.durable }

end Node

namespace Group

/-- The members and the network. -/
structure State where
  node : NodeId → Node
  net : List Packet

/-- One call at member `n`. -/
def State.act (s : State) (n : NodeId) (i : Raft.Input) (carried : List LogEntry) : State where
  node := Function.update s.node n ((s.node n).act i carried)
  net := s.net ++ (s.node n).sent i carried

def State.restart (s : State) (n : NodeId) (seed : UInt64) : State :=
  { s with node := Function.update s.node n ((s.node n).restart seed) }

@[simp] theorem State.act_node_self (s : State) (n : NodeId) (i : Raft.Input)
    (carried : List LogEntry) : (s.act n i carried).node n = (s.node n).act i carried :=
  Function.update_self ..

theorem State.act_node_of_ne {s : State} {n m : NodeId} (h : m ≠ n) (i : Raft.Input)
    (carried : List LogEntry) : (s.act n i carried).node m = s.node m := Function.update_of_ne h ..

@[simp] theorem State.restart_node_self (s : State) (n : NodeId) (seed : UInt64) :
    (s.restart n seed).node n = (s.node n).restart seed := Function.update_self ..

theorem State.restart_node_of_ne {s : State} {n m : NodeId} (h : m ≠ n) (seed : UInt64) :
    (s.restart n seed).node m = s.node m := Function.update_of_ne h ..

variable (G : Group)

inductive Step : State → State → Prop
  | tick (s : State) (n : NodeId) : n ∈ G.members → Step s (s.act n .tick [])
  | propose (s : State) (n : NodeId) (c : Command) : n ∈ G.members →
      Step s (s.act n (.propose c) [])
  | compact (s : State) (n : NodeId) (index : Nat) (snapshot : Bytes) : n ∈ G.members →
      index ≤ (s.node n).engine.lastApplied → Step s (s.act n (.compact index snapshot) [])
  | deliver (s : State) (p : Packet) : p ∈ s.net → p.dst ∈ G.members →
      Step s (s.act p.dst (.step p.src p.msg) p.folded)
  | crash (s : State) (n : NodeId) (seed : UInt64) : n ∈ G.members → Step s (s.restart n seed)

/-- A fresh member. -/
def freshNode (seed : NodeId → UInt64) (n : NodeId) : Node where
  engine := Raft.new n (G.peers n) (G.cfg n) (seed n) Persisted.default
  durable := Persisted.default
  folded := []
  handed := []

/-- The group, started with nothing durable anywhere. -/
def system : TransitionSystem State where
  init s := ∃ seed, s = { node := G.freshNode seed, net := [] }
  step := Step G

/-! ## Schedules -/

/-- An action by name; a delivery names the place of its message in the network. -/
inductive Event
  | tick (n : NodeId)
  | propose (n : NodeId) (c : Command)
  | deliver (k : Nat)
  | crash (n : NodeId) (seed : UInt64)

/-- The state after an event, if it can happen. -/
def State.play (s : State) : Event → Option State
  | .tick n => if n ∈ G.members then some (s.act n .tick []) else none
  | .propose n c => if n ∈ G.members then some (s.act n (.propose c) []) else none
  | .deliver k => do
    let p ← s.net[k]?
    if p.dst ∈ G.members then some (s.act p.dst (.step p.src p.msg) p.folded) else none
  | .crash n seed => if n ∈ G.members then some (s.restart n seed) else none

/-- The state after a schedule. -/
def State.plays (s : State) (schedule : List Event) : Option State :=
  schedule.foldlM (State.play G) s

variable {G}

theorem step_play {s s' : State} {e : Event} (h : s.play G e = some s') : Step G s s' := by
  cases e with
  | tick n =>
    simp only [State.play, Option.ite_none_right_eq_some, Option.some.injEq] at h
    exact h.2 ▸ .tick s n h.1
  | propose n c =>
    simp only [State.play, Option.ite_none_right_eq_some, Option.some.injEq] at h
    exact h.2 ▸ .propose s n c h.1
  | deliver k =>
    simp only [State.play, Option.bind_eq_bind, Option.bind_eq_some_iff,
      Option.ite_none_right_eq_some, Option.some.injEq] at h
    obtain ⟨p, hp, hdst, rfl⟩ := h
    exact .deliver s p (List.mem_of_getElem? hp) hdst
  | crash n seed =>
    simp only [State.play, Option.ite_none_right_eq_some, Option.some.injEq] at h
    exact h.2 ▸ .crash s n seed h.1

/-- A schedule that can happen is a run. -/
theorem steps_plays {s s' : State} {schedule : List Event} (h : s.plays G schedule = some s') :
    G.system.Steps s s' := by
  induction schedule generalizing s with
  | nil =>
    cases Option.some.inj h
    exact .refl _
  | cons e rest ih =>
    obtain ⟨t, ht, hrest⟩ := Option.bind_eq_some_iff.mp h
    exact (TransitionSystem.Steps.single (step_play ht)).trans (ih hrest)

/-! ## A group of two -/

/-- Members `a` and `b`; `a` stands at its first tick. -/
def pair : Group where
  members := ["a", "b"]
  nodup := by decide
  peers n := if n = "a" then ["b"] else ["a"]
  peers_perm := by decide
  cfg n := if n = "a" then { heartbeatTicks := 1, electionMinTicks := 1, electionMaxTicks := 1 }
    else { heartbeatTicks := 1, electionMinTicks := 9, electionMaxTicks := 9 }

def pairStart : State where
  node := pair.freshNode fun _ => 7
  net := []

theorem reachable_pairStart : pair.system.Reachable pairStart := .of_init ⟨_, rfl⟩

/-- A state after a schedule, `s` itself if the schedule cannot happen. -/
def State.after (s : State) (schedule : List Event) : State :=
  (s.plays pair schedule).getD s

theorem steps_after {s : State} {schedule : List Event}
    (h : (s.plays pair schedule).isSome = true) : pair.system.Steps s (s.after schedule) := by
  obtain ⟨t, ht⟩ := Option.isSome_iff_exists.mp h
  rw [State.after, ht]
  exact steps_plays ht

def forgetNode9 : Command := .forgetNode "node-9"

/-- Pre-vote, vote, the first append and its acknowledgement. -/
def pairElected : State := pairStart.after
  [.tick "a", .deliver 0, .deliver 1, .deliver 2, .deliver 3, .deliver 4, .deliver 5]

def pairProposed : State := pairElected.after [.propose "a" forgetNode9]

/-- The append of the proposal, its acknowledgement, and the append that tells `b`. -/
def pairDone : State := pairProposed.after [.deliver 7, .deliver 8, .deliver 9]

theorem reachable_pairElected : pair.system.Reachable pairElected :=
  reachable_pairStart.steps (steps_after (by decide +kernel))

theorem reachable_pairProposed : pair.system.Reachable pairProposed :=
  reachable_pairElected.steps (steps_after (by decide +kernel))

theorem steps_pairDone : pair.system.Steps pairProposed pairDone :=
  steps_after (by decide +kernel)

theorem pairProposed_eq : pairProposed = pairElected.act "a" (.propose forgetNode9) [] := rfl

end Group

end FiduciaBrain
