import FiduciaBrain.Group.Isolated

/-!
# Runs among some of the members

What a part of the group can do without the rest: its members tick, crash and hear each other, and
nobody else does anything (`Within`). `Acted` is what such a step says of the state after it: what
the member's engine computed, and that its messages are in the network, where they stay.
-/

namespace FiduciaBrain.Group

open Infra Raft

variable (G : Group) (Q : Finset NodeId)

/-- A tick, a crash, or a delivery from one member of `Q` to another. -/
inductive StepWithin : State → State → Prop
  | tick (s : State) (n : NodeId) : n ∈ Q → StepWithin s (s.act n .tick [])
  | deliver (s : State) (p : Packet) : p ∈ s.net → p.src ∈ Q → p.dst ∈ Q →
      StepWithin s (s.act p.dst (.step p.src p.msg) p.folded)
  | crash (s : State) (n : NodeId) (seed : UInt64) : n ∈ Q → StepWithin s (s.restart n seed)

/-- A run among the members of `Q`. Nobody proposes anything. -/
def Within : State → State → Prop := Relation.ReflTransGen (StepWithin Q)

/-- A message on its way. -/
def State.InNet (s : State) (src dst : NodeId) (msg : RaftMessage) : Prop :=
  ∃ folded, { src := src, dst := dst, msg := msg, folded := folded } ∈ s.net

variable {G Q}

theorem State.InNet.mono {s s' : State} (h : s.net ⊆ s'.net) {src dst : NodeId} {msg : RaftMessage} :
    s.InNet src dst msg → s'.InNet src dst msg := fun ⟨folded, hp⟩ => ⟨folded, h hp⟩

namespace Within

variable {s t u : State}

theorem refl (s : State) : Within Q s s := Relation.ReflTransGen.refl

theorem trans (h : Within Q s t) (h' : Within Q t u) : Within Q s u :=
  Relation.ReflTransGen.trans h h'

theorem single (h : StepWithin Q s t) : Within Q s t := Relation.ReflTransGen.single h

theorem steps (hQ : ∀ q ∈ Q, q ∈ G.members) (h : Within Q s t) : G.system.Steps s t := by
  induction h with
  | refl => exact TransitionSystem.Steps.refl _
  | tail _ hstep ih =>
    refine ih.tail ?_
    cases hstep with
    | tick n hn => exact .tick _ n (hQ n hn)
    | deliver p hp _ hdst => exact .deliver _ p hp (hQ _ hdst)
    | crash n seed hn => exact .crash _ n seed (hQ n hn)

theorem reachable (hQ : ∀ q ∈ Q, q ∈ G.members) (hr : G.system.Reachable s) (h : Within Q s t) :
    G.system.Reachable t := hr.steps (h.steps hQ)

/-- The network forgets nothing. -/
theorem net (h : Within Q s t) : s.net ⊆ t.net := by
  induction h with
  | refl => exact List.Subset.refl _
  | tail _ hstep ih =>
    refine List.Subset.trans ih ?_
    cases hstep with
    | tick n _ => exact List.subset_append_left _ _
    | deliver p _ _ _ => exact List.subset_append_left _ _
    | crash n seed _ => exact List.Subset.refl _

/-- Nothing happens at the others. -/
theorem node (h : Within Q s t) {m : NodeId} (hm : m ∉ Q) : t.node m = s.node m := by
  induction h with
  | refl => rfl
  | tail _ hstep ih =>
    have hne : ∀ n ∈ Q, m ≠ n := fun n hn h => hm (h ▸ hn)
    refine Eq.trans ?_ ih
    cases hstep with
    | tick n hn => exact State.act_node_of_ne (hne n hn) _ _
    | deliver p _ _ hdst => exact State.act_node_of_ne (hne _ hdst) _ _
    | crash n seed hn => exact State.restart_node_of_ne (hne n hn) _

/-- What is done for one member after the other is done for all of them. -/
theorem each (hQ : ∀ q ∈ Q, q ∈ G.members) {A : Finset NodeId} {I : Finset NodeId → State → Prop}
    (hstep : ∀ V v s, v ∈ A → v ∉ V → G.system.Reachable s → I V s →
      ∃ t, Within Q s t ∧ I (insert v V) t)
    (hr : G.system.Reachable s) (h : I ∅ s) : ∃ t, Within Q s t ∧ I A t := by
  have key : ∀ V ⊆ A, ∃ t, Within Q s t ∧ I V t := by
    intro V
    induction V using Finset.induction_on with
    | empty => exact fun _ => ⟨s, .refl s, h⟩
    | insert v V hv ih =>
      intro hsub
      obtain ⟨hvA, hVA⟩ := Finset.insert_subset_iff.mp hsub
      obtain ⟨t, hst, ht⟩ := ih hVA
      obtain ⟨u, htu, hu⟩ := hstep V v t hvA hv (hst.reachable hQ hr) ht
      exact ⟨u, hst.trans htu, hu⟩
  exact key A (Finset.Subset.refl A)

end Within

/-! ## One call -/

/-- Member `n`'s engine came to `r` in a call, was drained, and its messages are on their way. -/
structure Acted (s : State) (n : NodeId) (r : Raft) (s' : State) : Prop where
  engine : (s'.node n).engine = r.ready.2
  others : ∀ m, m ≠ n → s'.node m = s.node m
  net : s.net ⊆ s'.net
  sent : ∀ m ∈ r.out, s'.InNet n m.recipient m.msg

theorem acted_act {s : State} {n : NodeId} {i : Input} {carried : List LogEntry}
    (hid : (s.node n).engine.id = n) : Acted s n ((s.node n).engine.run i) (s.act n i carried) where
  engine := by
    rw [State.act_node_self]
    rfl
  others := fun _ hm => State.act_node_of_ne hm i carried
  net := List.subset_append_left _ _
  sent := by
    intro m hm
    suffices h : ∀ src, (s.node n).engine.id = src →
        (s.act n i carried).InNet src m.recipient m.msg from h n hid
    rintro _ rfl
    exact ⟨_, List.mem_append_right _ (List.mem_map_of_mem hm)⟩

section

variable {s : State} (hQ : ∀ q ∈ Q, q ∈ G.members) (hr : G.system.Reachable s)

include hQ hr

theorem exists_tick {n : NodeId} (hn : n ∈ Q) :
    ∃ s', Within Q s s' ∧ Acted s n (s.node n).engine.tick s' :=
  ⟨_, .single (.tick s n hn), acted_act (i := .tick) (engine_peers hr (hQ n hn)).1⟩

/-- A message between two members of `Q` can be delivered, and is handled if it names its sender. -/
theorem exists_deliver {src dst : NodeId} {msg : RaftMessage} (hmsg : s.InNet src dst msg)
    (hsrc : src ∈ Q) (hdst : dst ∈ Q) (hne : src ≠ dst)
    (hname : bodyIdentityMatches src msg = true) :
    ∃ s', Within Q s s' ∧ Acted s dst ((s.node dst).engine.handle src msg) s' := by
  obtain ⟨folded, hp⟩ := hmsg
  obtain ⟨hid, hpeers⟩ := engine_peers hr (hQ dst hdst)
  have hpeer : src ∈ (s.node dst).engine.peers := by
    rw [hpeers]
    exact (G.mem_peers (hQ dst hdst)).mpr ⟨hne, hQ src hsrc⟩
  have hact : Acted s dst ((s.node dst).engine.run (.step src msg))
      (s.act dst (.step src msg) folded) := acted_act hid
  have hrun : (s.node dst).engine.run (.step src msg) = (s.node dst).engine.handle src msg := by
    show (s.node dst).engine.step src msg = _
    rcases (s.node dst).engine.step_cases src msg with ⟨_, _, h⟩ | ⟨h, _⟩
    · exact h
    · exact absurd ⟨hpeer, hname⟩ h
  rw [hrun] at hact
  exact ⟨_, .single (.deliver s _ hp hsrc hdst), hact⟩

end

end FiduciaBrain.Group
