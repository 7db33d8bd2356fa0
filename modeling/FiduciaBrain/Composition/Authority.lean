import FiduciaBrain.Composition.Node
import FiduciaBrain.Composition.Publisher
import FiduciaBrain.Infra.Transition
import Mathlib.Logic.Function.Basic

/-!
# Write authority over whole runs

Publishers and nodes under any order of calls. A deposed publisher stays and may go on; every
snapshot and every fence ever handed out stays available for delivery. `committed` and `reached`
record the outcome of the Raft boundary: which snapshot became which generation, and how far.

A node accepts writes by term and generation alone, and it may activate a generation before that
generation commits. `admitted_writes_committed`: as long as no node is active in a generation with
shards that the committed snapshot of that generation does not give it, only the committed
placement admits writes. `deposed_placement_admits_write` is a run where one is.
-/

namespace FiduciaBrain.Composition

open Infra

/-! ## Runs -/

structure State where
  publishers : List BrainPublisher
  node : NodeId → NodeReplica
  snapshots : List PlacementSnapshot
  fences : List WriteFence
  reached : Generation
  committed : Generation → Option PlacementSnapshot

/-- Publishers, snapshots and fences are named by their place in the order they appeared in. -/
inductive Action
  /-- A new leader, created in `term` with the generation reached so far and moved to `newTerm`. -/
  | failOver (term newTerm : Term)
  | stepDown (publisher : Nat) (observedTerm : Term)
  | publish (publisher : Nat) (assignments : Std.ExtTreeMap ShardId (List NodeId))
  | commit (publisher snapshot : Nat)
  | authorize (publisher : Nat) (generation : Generation)
  | observe (node : NodeId) (term : Term)
  | stage (node : NodeId) (snapshot : Nat)
  | acknowledge (node : NodeId) (generation : Generation) (shard : ShardId)
  | activate (node : NodeId) (generation : Generation)
  | install (node : NodeId) (fence : Nat)
  | restart (node : NodeId)

namespace State

def start : State where
  publishers := []
  node := NodeReplica.new
  snapshots := []
  fences := []
  reached := 0
  committed := fun _ => none

def setPublisher (s : State) (k : Nat) (p : BrainPublisher) : State :=
  { s with publishers := s.publishers.set k p }

def setNode (s : State) (n : NodeId) (r : NodeReplica) : State :=
  { s with node := Function.update s.node n r }

/-- Publisher `p` has committed `snapshot`. Committing its committed generation again changes
nothing. -/
def recordCommit (s : State) (p : BrainPublisher) (snapshot : PlacementSnapshot) : State :=
  if snapshot.generation = p.committedGeneration then s
  else { s with
    reached := max s.reached snapshot.generation
    committed := Function.update s.committed snapshot.generation (some snapshot) }

/-- The state after an action that succeeds. A generation is committed at most once. -/
def act (s : State) : Action → Option State
  | .failOver term newTerm => do
    let p ← (BrainPublisher.new .follower term s.reached).toOption
    let p ← (p.becomeLeader newTerm).toOption
    some { s with publishers := s.publishers ++ [p] }
  | .stepDown k observedTerm => do
    let p ← s.publishers[k]?
    let p ← (p.stepDown observedTerm).toOption
    some (s.setPublisher k p)
  | .publish k assignments => do
    let p ← s.publishers[k]?
    let (snapshot, p) ← (p.publishNext assignments).toOption
    some { s.setPublisher k p with snapshots := s.snapshots ++ [snapshot] }
  | .commit k i => do
    let p ← s.publishers[k]?
    let snapshot ← s.snapshots[i]?
    let p' ← (p.commit snapshot).toOption
    if snapshot.generation = p.committedGeneration ∨ s.committed snapshot.generation = none then
      some ((s.recordCommit p snapshot).setPublisher k p')
    else none
  | .authorize k generation => do
    let p ← s.publishers[k]?
    let fence ← (p.writeFence generation).toOption
    some { s with fences := s.fences ++ [fence] }
  | .observe n term => do
    let r ← ((s.node n).observeTerm term).toOption
    some (s.setNode n r)
  | .stage n i => do
    let snapshot ← s.snapshots[i]?
    some (s.setNode n ((s.node n).stage snapshot).1)
  | .acknowledge n generation shard => do
    let (_, r) ← ((s.node n).acknowledgeShard generation shard).toOption
    some (s.setNode n r)
  | .activate n generation => do
    let r ← ((s.node n).activate generation).toOption
    some (s.setNode n r)
  | .install n i => do
    let fence ← s.fences[i]?
    let r ← ((s.node n).installWriteFence fence).toOption
    some (s.setNode n r)
  | .restart n => some (s.setNode n (s.node n).restart)

end State

/-- Runs whose steps meet `Guard`. -/
def system (Guard : State → Action → Prop) : TransitionSystem State where
  init s := s = .start
  step s s' := ∃ a, Guard s a ∧ s.act a = some s'

/-- What the activation of a generation and its commit must agree on, whichever comes first: the
node replicates no shard that the committed snapshot does not give it. -/
def Matching (s : State) : Action → Prop
  | .activate n generation => ∀ staged snapshot, (s.node n).staged = some staged →
      s.committed generation = some snapshot → staged.assignedShards ⊆ snapshot.shardsFor n
  | .commit _ i => ∀ snapshot, s.snapshots[i]? = some snapshot →
      s.committed snapshot.generation = none → ∀ n active, (s.node n).active = some active →
      active.generation = snapshot.generation → active.assignedShards ⊆ snapshot.shardsFor n
  | _ => True

/-! ## What each call does -/

namespace NodeReplica

variable {r r' : NodeReplica}

/-- Calls that leave the active placement alone and grant nothing. -/
structure Keeps (r r' : NodeReplica) : Prop where
  nodeId : r'.nodeId = r.nodeId
  active : r'.active = r.active
  writeFence : r'.writeFence = none ∨ r'.writeFence = r.writeFence

theorem Keeps.refl (r : NodeReplica) : Keeps r r := ⟨rfl, rfl, Or.inr rfl⟩

theorem keeps_observeTerm {term : Term} (h : r.observeTerm term = .ok r') : Keeps r r' := by
  unfold observeTerm at h
  split at h
  · cases h
  split at h
  · cases h
  split at h
  · cases h
    exact ⟨rfl, rfl, Or.inl rfl⟩
  · cases h
    exact .refl r

theorem keeps_stage (snapshot : PlacementSnapshot) : Keeps r (r.stage snapshot).1 := by
  unfold stage
  split
  · exact .refl r
  · split
    · exact .refl r
    · next g hg =>
      have hk := keeps_observeTerm hg
      simp only
      split
      · exact hk
      · split
        · exact hk
        · exact ⟨hk.nodeId, hk.active, Or.inl rfl⟩

theorem keeps_acknowledgeShard {generation : Generation} {shard : ShardId} {outcome : AckOutcome}
    (h : r.acknowledgeShard generation shard = .ok (outcome, r')) : Keeps r r' := by
  obtain ⟨staged, _, _, _, _, heq⟩ := acknowledgeShard_ok h
  cases heq
  exact ⟨rfl, rfl, Or.inr rfl⟩

theorem keeps_restart : Keeps r r.restart := ⟨rfl, rfl, Or.inl rfl⟩

end NodeReplica

namespace BrainPublisher

variable {p p' : BrainPublisher}

theorem becomeLeader_ok {term : Term} (h : p.becomeLeader term = .ok p') :
    p'.committedGeneration = p.committedGeneration := by
  unfold becomeLeader at h
  split at h
  · cases h
  · cases h
    rfl

theorem stepDown_ok {term : Term} (h : p.stepDown term = .ok p') :
    p'.committedGeneration = p.committedGeneration := by
  unfold stepDown at h
  split at h
  · cases h
  · cases h
    rfl

theorem commit_ok {snapshot : PlacementSnapshot} (h : p.commit snapshot = .ok p') :
    p'.committedGeneration = snapshot.generation := by
  obtain ⟨_, _, ⟨hgen, rfl⟩ | ⟨_, _, rfl⟩⟩ := commit_cases h
  · exact hgen.symm
  · rfl

theorem writeFence_ok {generation : Generation} {fence : WriteFence}
    (h : p.writeFence generation = .ok fence) :
    fence.generation = p.committedGeneration ∧ p.committedGeneration ≠ 0 := by
  unfold writeFence at h
  split at h
  · cases h
  split at h
  · cases h
  · next hne =>
    cases h
    simp only [not_or, ne_eq, Decidable.not_not] at hne
    exact ⟨hne.1, hne.1 ▸ hne.2⟩

end BrainPublisher

/-! ## The invariant -/

/-- The generation has been committed. -/
def State.Settled (s : State) (generation : Generation) : Prop :=
  ∃ snapshot, s.committed generation = some snapshot

structure Sound (s : State) : Prop where
  nodeId : ∀ n, (s.node n).nodeId = n
  reached : s.reached = 0 ∨ s.Settled s.reached
  publisher : ∀ p ∈ s.publishers, p.committedGeneration = 0 ∨ s.Settled p.committedGeneration
  fence : ∀ f ∈ s.fences, s.Settled f.generation
  held : ∀ n f, (s.node n).writeFence = some f → f ∈ s.fences
  /-- Active shards of a committed generation are the node's by the committed snapshot. -/
  matching : ∀ n active snapshot, (s.node n).active = some active →
    s.committed active.generation = some snapshot → active.assignedShards ⊆ snapshot.shardsFor n

namespace Sound

variable {s : State}

theorem start : Sound .start where
  nodeId := fun _ => rfl
  reached := Or.inl rfl
  publisher := fun _ hp => nomatch hp
  fence := fun _ hf => nomatch hf
  held := fun _ _ hf => nomatch hf
  matching := fun _ _ _ ha => nomatch ha

/-- A publisher that changes keeps a committed generation. -/
theorem setPublisher (h : Sound s) (k : Nat) {p : BrainPublisher}
    (hp : p.committedGeneration = 0 ∨ s.Settled p.committedGeneration) :
    Sound (s.setPublisher k p) :=
  { h with
    publisher := by
      intro q hq
      rcases List.mem_or_eq_of_mem_set hq with hq | rfl
      · exact h.publisher q hq
      · exact hp }

/-- A node that changes, given what its fence and its active placement are now. -/
theorem setNode (h : Sound s) {n : NodeId} {r : NodeReplica} (hid : r.nodeId = n)
    (hf : ∀ f, r.writeFence = some f → f ∈ s.fences)
    (ha : ∀ active snapshot, r.active = some active →
      s.committed active.generation = some snapshot →
      active.assignedShards ⊆ snapshot.shardsFor n) : Sound (s.setNode n r) := by
  have hnode : ∀ m, (s.setNode n r).node m = if m = n then r else s.node m := fun m =>
    Function.update_apply ..
  exact { h with
    nodeId := by
      intro m
      rw [hnode]
      split
      · next heq => rw [hid, heq]
      · exact h.nodeId m
    held := by
      intro m f hm
      rw [hnode] at hm
      split at hm
      · exact hf f hm
      · exact h.held m f hm
    matching := by
      intro m active snapshot hm hc
      rw [hnode] at hm
      split at hm
      · next heq => exact heq ▸ ha active snapshot hm hc
      · exact h.matching m active snapshot hm hc }

theorem keeps (h : Sound s) {n : NodeId} {r : NodeReplica} (hk : (s.node n).Keeps r) :
    Sound (s.setNode n r) := by
  refine h.setNode (hk.nodeId.trans (h.nodeId n)) (fun f hf => ?_) fun active snapshot ha hc => ?_
  · rcases hk.writeFence with hn | hn
    · rw [hn] at hf
      cases hf
    · exact h.held n f (hn ▸ hf)
  · exact h.matching n active snapshot (hk.active ▸ ha) hc

/-- A generation that was open is committed. -/
theorem recordCommit (h : Sound s) {p : BrainPublisher} {snapshot : PlacementSnapshot}
    (hopen : snapshot.generation = p.committedGeneration ∨
      s.committed snapshot.generation = none)
    (hpub : p ∈ s.publishers)
    (hactive : s.committed snapshot.generation = none → ∀ n active, (s.node n).active = some active →
      active.generation = snapshot.generation → active.assignedShards ⊆ snapshot.shardsFor n) :
    Sound (s.recordCommit p snapshot) ∧
      (snapshot.generation = 0 ∨ (s.recordCommit p snapshot).Settled snapshot.generation) := by
  unfold State.recordCommit
  split
  · next heq => exact ⟨h, heq ▸ h.publisher p hpub⟩
  next hne =>
  have hnone := hopen.resolve_left hne
  have hget : ∀ g, Function.update s.committed snapshot.generation (some snapshot) g =
      if g = snapshot.generation then some snapshot else s.committed g := fun g =>
    Function.update_apply ..
  have hmono : ∀ g, s.Settled g → ∃ x,
      Function.update s.committed snapshot.generation (some snapshot) g = some x := by
    rintro g ⟨x, hx⟩
    rw [hget]
    split
    · exact ⟨snapshot, rfl⟩
    · exact ⟨x, hx⟩
  have hself : ∃ x, Function.update s.committed snapshot.generation (some snapshot)
      snapshot.generation = some x := ⟨snapshot, Function.update_self ..⟩
  refine ⟨{ h with
    reached := ?_
    publisher := fun q hq => (h.publisher q hq).imp_right (hmono _)
    fence := fun f hf => hmono _ (h.fence f hf)
    matching := ?_ }, Or.inr hself⟩
  · rcases Nat.le_total s.reached snapshot.generation with hle | hle
    · simp only [Nat.max_eq_right hle]
      exact Or.inr hself
    · simp only [Nat.max_eq_left hle]
      exact h.reached.imp_right (hmono _)
  · intro n active x ha hc
    replace hc := (hget active.generation).symm.trans hc
    split at hc
    · next hg =>
      cases hc
      exact hactive hnone n active ha hg
    · exact h.matching n active x ha hc

end Sound

theorem ok_of_toOption {ε α : Type*} {x : Except ε α} {a : α}
    (h : x.toOption = some a) : x = .ok a := by
  cases x with
  | error e => cases h
  | ok b => exact congrArg Except.ok (Option.some.inj h)

/-- **A step whose activation or commit matches keeps the invariant.** -/
theorem Sound.act {s s' : State} {a : Action} (h : Sound s) (hm : Matching s a)
    (hs : s.act a = some s') : Sound s' := by
  cases a with
  | failOver term newTerm =>
    simp only [State.act, Option.bind_eq_bind, Option.bind_eq_some_iff, Option.some.injEq] at hs
    obtain ⟨p, hp, q, hq, rfl⟩ := hs
    have hgen : q.committedGeneration = s.reached :=
      (BrainPublisher.becomeLeader_ok (ok_of_toOption hq)).trans
        (BrainPublisher.new_ok (ok_of_toOption hp)).2.1
    refine { h with publisher := fun x hx => ?_ }
    rcases List.mem_append.mp hx with hx | hx
    · exact h.publisher x hx
    · rw [List.mem_singleton.mp hx, hgen]
      exact h.reached
  | stepDown k term =>
    simp only [State.act, Option.bind_eq_bind, Option.bind_eq_some_iff, Option.some.injEq] at hs
    obtain ⟨p, hp, q, hq, rfl⟩ := hs
    refine h.setPublisher k ?_
    rw [BrainPublisher.stepDown_ok (ok_of_toOption hq)]
    exact h.publisher p (List.mem_of_getElem? hp)
  | publish k assignments =>
    simp only [State.act, Option.bind_eq_bind, Option.bind_eq_some_iff, Option.some.injEq] at hs
    obtain ⟨p, hp, ⟨snapshot, q⟩, hq, rfl⟩ := hs
    obtain ⟨_, _, hmade⟩ := BrainPublisher.publishNext_made (ok_of_toOption hq)
    have hset := h.setPublisher k (p := q) (by
      rw [hmade]
      exact h.publisher p (List.mem_of_getElem? hp))
    exact { hset with }
  | commit k i =>
    simp only [State.act, Option.bind_eq_bind, Option.bind_eq_some_iff,
      Option.ite_none_right_eq_some, Option.some.injEq] at hs
    obtain ⟨p, hp, snapshot, hsnap, q, hq, hopen, rfl⟩ := hs
    obtain ⟨hrec, hset⟩ := h.recordCommit hopen (List.mem_of_getElem? hp)
      (fun hnone => hm snapshot hsnap hnone)
    refine hrec.setPublisher k ?_
    rw [BrainPublisher.commit_ok (ok_of_toOption hq)]
    exact hset
  | authorize k generation =>
    simp only [State.act, Option.bind_eq_bind, Option.bind_eq_some_iff, Option.some.injEq] at hs
    obtain ⟨p, hp, f, hf, rfl⟩ := hs
    obtain ⟨hgen, hpos⟩ := BrainPublisher.writeFence_ok (ok_of_toOption hf)
    have hset := (h.publisher p (List.mem_of_getElem? hp)).resolve_left hpos
    refine { h with
      fence := fun x hx => ?_
      held := fun n x hx => List.mem_append_left _ (h.held n x hx) }
    rcases List.mem_append.mp hx with hx | hx
    · exact h.fence x hx
    · rw [List.mem_singleton.mp hx, hgen]
      exact hset
  | observe n term =>
    simp only [State.act, Option.bind_eq_bind, Option.bind_eq_some_iff, Option.some.injEq] at hs
    obtain ⟨r, hr, rfl⟩ := hs
    exact h.keeps (NodeReplica.keeps_observeTerm (ok_of_toOption hr))
  | stage n i =>
    simp only [State.act, Option.bind_eq_bind, Option.bind_eq_some_iff, Option.some.injEq] at hs
    obtain ⟨snapshot, _, rfl⟩ := hs
    exact h.keeps (NodeReplica.keeps_stage snapshot)
  | acknowledge n generation shard =>
    simp only [State.act, Option.bind_eq_bind, Option.bind_eq_some_iff, Option.some.injEq] at hs
    obtain ⟨⟨_, r⟩, hr, rfl⟩ := hs
    exact h.keeps (NodeReplica.keeps_acknowledgeShard (ok_of_toOption hr))
  | activate n generation =>
    simp only [State.act, Option.bind_eq_bind, Option.bind_eq_some_iff, Option.some.injEq] at hs
    obtain ⟨r, hr, rfl⟩ := hs
    obtain ⟨staged, hst, rfl, _, rfl⟩ := NodeReplica.activate_ready (ok_of_toOption hr)
    refine h.setNode (h.nodeId n) (fun _ hf => nomatch hf) fun active snapshot ha hc => ?_
    cases ha
    exact hm staged snapshot hst hc
  | install n i =>
    simp only [State.act, Option.bind_eq_bind, Option.bind_eq_some_iff, Option.some.injEq] at hs
    obtain ⟨f, hf, r, hr, rfl⟩ := hs
    obtain ⟨_, _, rfl⟩ := NodeReplica.installWriteFence_held (ok_of_toOption hr)
    refine h.setNode (h.nodeId n) (fun x hx => ?_) (h.matching n)
    cases hx
    exact List.mem_of_getElem? hf
  | restart n =>
    cases hs
    exact h.keeps NodeReplica.keeps_restart

theorem sound_of_reachable {s : State} (hr : (system Matching).Reachable s) : Sound s := by
  refine hr.invariant (fun t ht => ?_) fun s t _ h hs => ?_
  · cases ht
    exact .start
  · obtain ⟨a, hm, ha⟩ := hs
    exact h.act hm ha

/-- **Only the committed placement admits writes**, in every run in which no node is active in a
committed generation with shards that the committed snapshot does not give it. -/
theorem admitted_writes_committed {s : State} (hr : (system Matching).Reachable s) {n : NodeId}
    {fence : WriteFence} {shard : ShardId} (h : (s.node n).acceptsWrite fence shard = true) :
    ∃ snapshot replicas, s.committed fence.generation = some snapshot ∧
      snapshot.replicas shard = some replicas ∧ n ∈ replicas := by
  have hsound := sound_of_reachable hr
  simp only [NodeReplica.acceptsWrite, Option.any_eq_true, decide_eq_true_eq, Bool.decide_and,
    Bool.and_eq_true] at h
  obtain ⟨hheld, active, hactive, hgen, hshard⟩ := h
  obtain ⟨snapshot, hc⟩ := hsound.fence fence (hsound.held n fence hheld)
  have hmem := hsound.matching n active snapshot hactive (hgen ▸ hc) hshard
  obtain ⟨replicas, hr, hn⟩ := PlacementSnapshot.mem_shardsFor.mp hmem
  exact ⟨snapshot, replicas, hc, hr, hn⟩

/-! ## Two runs -/

/-- A schedule whose actions succeed, each in a state where it meets `Guard`. -/
def Plays (Guard : State → Action → Prop) : State → List Action → State → Prop
  | s, [], t => s = t
  | s, a :: rest, t => Guard s a ∧ ∃ u, s.act a = some u ∧ Plays Guard u rest t

theorem reachable_of_plays {Guard : State → Action → Prop} {s t : State}
    (hs : (system Guard).Reachable s) (actions : List Action) (h : Plays Guard s actions t) :
    (system Guard).Reachable t := by
  induction actions generalizing s with
  | nil => exact h ▸ hs
  | cons a rest ih =>
    obtain ⟨hg, u, hu, hrest⟩ := h
    exact ih (hs.step ⟨a, hg, hu⟩) hrest

/-- The state after a schedule, `s` itself if one of its actions fails. -/
def State.after (s : State) (actions : List Action) : State := (actions.foldlM State.act s).getD s

/-- Shard 7 on node `n`. -/
def shard7 (n : NodeId) : Std.ExtTreeMap ShardId (List NodeId) :=
  (∅ : Std.ExtTreeMap ShardId (List NodeId)).insert 7 [n]

/-- Publish, commit, then roll out to node 1. -/
def rollout : List Action :=
  [.failOver 1 2, .publish 0 (shard7 1), .commit 0 0, .authorize 0 1, .stage 1 0,
    .acknowledge 1 1 7, .activate 1 1, .install 1 0]

theorem admitted_writes_committed_rollout :
    ((State.start.after rollout).node 1).acceptsWrite { term := 2, generation := 1 } 7 = true ∧
    ∃ snapshot replicas, (State.start.after rollout).committed 1 = some snapshot ∧
      snapshot.replicas 7 = some replicas ∧ 1 ∈ replicas := by
  have haccepts : ((State.start.after rollout).node 1).acceptsWrite
      { term := 2, generation := 1 } 7 = true := by decide +kernel
  refine ⟨haccepts, admitted_writes_committed (reachable_of_plays (.of_init rfl) rollout ?_) haccepts⟩
  refine ⟨trivial, _, rfl, trivial, _, rfl, ?_, _, rfl, trivial, _, rfl, trivial, _, rfl,
    trivial, _, rfl, ?_, _, rfl, trivial, _, rfl, rfl⟩
  · -- no node is active yet
    intro _ _ _ _ _ h
    cases h
  · intro staged snapshot hs hc
    cases hs
    cases hc
    decide +kernel

/-- Node 1 activates generation 1 of the first leader, who is deposed before it commits; the next
leader publishes and commits another generation 1. -/
def deposed : List Action :=
  [.failOver 1 2, .publish 0 (shard7 1), .stage 1 0, .acknowledge 1 1 7, .activate 1 1,
    .failOver 2 3, .publish 1 (shard7 2), .commit 1 1, .authorize 1 1, .observe 1 3, .install 1 0]

/-- **A placement that never committed admits writes.** The committed generation 1 gives shard 7 to
node 2 alone. -/
theorem deposed_placement_admits_write :
    (system fun _ _ => True).Reachable (State.start.after deposed) ∧
    ((State.start.after deposed).node 1).acceptsWrite { term := 3, generation := 1 } 7 = true ∧
    (((State.start.after deposed).committed 1).bind fun snapshot => snapshot.replicas 7) =
      some {2} := by
  refine ⟨reachable_of_plays (.of_init rfl) deposed ?_, by decide +kernel, by decide +kernel⟩
  exact ⟨trivial, _, rfl, trivial, _, rfl, trivial, _, rfl, trivial, _, rfl, trivial, _, rfl,
    trivial, _, rfl, trivial, _, rfl, trivial, _, rfl, trivial, _, rfl, trivial, _, rfl, trivial,
    _, rfl, rfl⟩

end FiduciaBrain.Composition
