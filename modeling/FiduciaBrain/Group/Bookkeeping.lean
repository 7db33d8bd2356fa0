import FiduciaBrain.Raft.Bookkeeping
import FiduciaBrain.Group.Members

/-!
# Leaders of the group and their tables

`orderly` is the group without the deliveries that rewind a peer below what it acknowledged. In its
runs every leader's tables are ordered and grow with the leadership (`bookkeeping_ordered`). In the
group as it is a refusal that comes twice is enough to lose the order
(`bookkeeping_disordered_pair`).
-/

namespace FiduciaBrain

namespace Raft

variable {r r' : Raft} {i : Input}

/-! ## A leadership that is over -/

/-- Term `t` has gone by, or goes by without this member as its leader. -/
def Spent (t : Nat) (r : Raft) : Prop :=
  t < r.currentTerm ∨ r.currentTerm = t ∧ (r.role = .follower ∨ r.role = .preCandidate)

theorem Spent.of_core {t : Nat} {c : Core} (hc : r'.core = c)
    (h : t < c.currentTerm ∨ c.currentTerm = t ∧ (c.role = .follower ∨ c.role = .preCandidate)) :
    Spent t r' := by
  subst hc
  exact h

theorem Spent.follow {t : Nat} (h : Spent t r) {u : Nat} (hc : r'.core = r.core.follow u) :
    Spent t r' := by
  rcases Nat.lt_or_ge r.currentTerm u with hlt | hle
  · refine .of_core (hc.trans (Core.follow_of_lt hlt)) (Or.inl ?_)
    rcases h with h | ⟨h, _⟩
    · exact h.trans hlt
    · exact h ▸ hlt
  · exact .of_core (hc.trans (Core.follow_of_le hle))
      (h.imp_right fun h => ⟨h.1, Or.inl rfl⟩)

theorem Move.spent {t : Nat} (h : Spent t r) (hm : Move i r r') : Spent t r' := by
  -- roles other than the two quiet ones are left for a term that has gone by
  have past : r.role ≠ .follower → r.role ≠ .preCandidate → t < r.currentTerm := fun h1 h2 =>
    h.elim (fun hlt => hlt) fun h => absurd h.2 (not_or.mpr ⟨h1, h2⟩)
  have same : ∀ {c : Core}, r'.core = c → c.currentTerm = r.currentTerm → c.role = r.role →
      Spent t r' := fun hc hterm hrole => .of_core hc (by rw [hterm, hrole]; exact h)
  cases hm with
  | quiet hc _ => exact same hc rfl rfl
  | follow u hc _ => exact h.follow hc
  | poll _ heq =>
    subst heq
    exact .of_core (core_poll r) (h.imp_right fun h => ⟨h.1, Or.inr rfl⟩)
  | stand _ heq =>
    refine .of_core (heq ▸ core_stand r) (Or.inl ?_)
    rcases h with h | ⟨h, _⟩
    · exact h.trans (Nat.lt_succ_self _)
    · exact h ▸ Nat.lt_succ_self _
  | tally _ _ _ _ _ heq => exact same (congrArg core heq) rfl rfl
  | lead hrole _ heq =>
    exact .of_core (heq ▸ core_becomeLeader r) (Or.inl (past (by simp [hrole]) (by simp [hrole])))
  | grant _ _ _ _ _ _ _ _ hc _ => exact same hc rfl rfl
  | append l req g _ hrole hterm _ _ _ htook hc _ =>
    obtain ⟨d, hcore⟩ := core_took htook
      (min req.leaderCommit (req.prevLogIndex + req.entries.length))
    exact same (hc.trans hcore) rfl rfl
  | covered _ _ _ _ _ _ _ hc _ => exact same hc rfl rfl
  | install l req _ hrole _ _ _ _ hc _ => exact same hc rfl rfl
  | matched _ _ _ _ _ _ hc _ => exact same hc rfl rfl
  | advance _ _ _ _ _ _ heq => exact same (congrArg core heq) rfl rfl
  | push _ _ _ heq => exact same (congrArg core heq) rfl rfl
  | compact index snapshot _ hbase hcommit heq =>
    rw [Raft.compact, if_neg (by omega)] at heq
    exact same (congrArg core heq) rfl rfl

/-- Where a member that leads term `t` in `r` can be later: still leading, with nothing forgotten,
or past it. -/
def Tenure (t : Nat) (r r' : Raft) : Prop :=
  (r'.role = .leader ∧ r'.currentTerm = t ∧ Grown r r') ∨ Spent t r'

theorem Tenure.run {t : Nat} {s : Raft} (h : s.WellFormed) (ha : s.Admissible i)
    (hten : Tenure t r s) : Tenure t r (s.run i) := by
  rcases hten with ⟨hl, hterm, hgrown⟩ | hspent
  · rcases stayed_or_follows h hl i with hst | hrole
    · have hl' := hst.role.trans hl
      exact Or.inl ⟨hl', hst.term.trans hterm, hgrown.trans (grown_run h hl hl')⟩
    · have hle := (progress_run h ha).term_le
      rw [hterm] at hle
      rcases Nat.lt_or_eq_of_le hle with hlt | heq
      · exact Or.inr (Or.inl hlt)
      · exact Or.inr (Or.inr ⟨heq.symm, Or.inl hrole⟩)
  · exact Or.inr (run_preserves h ha hspent fun _ _ _ hs hm => hm.spent hs).2

theorem Tenure.restart {t : Nat} {s : Raft} (hten : Tenure t r s) (id : NodeId)
    (peers : List NodeId) (cfg : RaftConfig) (seed : UInt64) :
    Tenure t r (Raft.new id peers cfg seed s.persistedSnapshot) := by
  rcases hten with ⟨_, hterm, _⟩ | hlt | ⟨hterm, _⟩
  · exact Or.inr (Or.inr ⟨hterm, Or.inl rfl⟩)
  · exact Or.inr (Or.inl hlt)
  · exact Or.inr (Or.inr ⟨hterm, Or.inl rfl⟩)

end Raft

namespace Group

open Infra TermLog Raft

variable {G : Group}

/-! ## Orderly runs -/

section Orderly

variable (G)

/-- The steps of the group but for the deliveries that are not `Orderly` where they arrive. -/
inductive OrderlyStep : State → State → Prop
  | tick (s : State) (n : NodeId) : n ∈ G.members → OrderlyStep s (s.act n .tick [])
  | propose (s : State) (n : NodeId) (c : Command) : n ∈ G.members →
      OrderlyStep s (s.act n (.propose c) [])
  | compact (s : State) (n : NodeId) (index : Nat) (snapshot : Bytes) : n ∈ G.members →
      index ≤ (s.node n).engine.lastApplied → OrderlyStep s (s.act n (.compact index snapshot) [])
  | deliver (s : State) (p : Packet) : p ∈ s.net → p.dst ∈ G.members →
      (s.node p.dst).engine.Orderly (.step p.src p.msg) →
      OrderlyStep s (s.act p.dst (.step p.src p.msg) p.folded)
  | crash (s : State) (n : NodeId) (seed : UInt64) : n ∈ G.members →
      OrderlyStep s (s.restart n seed)

/-- No log has reached the last index a `u64` can name. -/
def Below (s : State) : Prop := ∀ n ∈ G.members, (s.node n).engine.lastIndex < u64Max

/-- The group in orderly runs below the ceiling. -/
def orderly : TransitionSystem State where
  init := G.system.init
  step s t := G.OrderlyStep s t ∧ G.Below t

variable {G}

theorem OrderlyStep.step {s t : State} (h : G.OrderlyStep s t) : G.system.step s t := by
  cases h with
  | tick n hn => exact .tick s n hn
  | propose n c hn => exact .propose s n c hn
  | compact n index snapshot hn hle => exact .compact s n index snapshot hn hle
  | deliver p hp hdst _ => exact .deliver s p hp hdst
  | crash n seed hn => exact .crash s n seed hn

theorem steps_of_orderly {s t : State} (h : G.orderly.Steps s t) : G.system.Steps s t := by
  induction h with
  | refl => exact .refl _
  | tail _ hst ih => exact ih.tail hst.1.step

theorem reachable_of_orderly {s : State} (h : G.orderly.Reachable s) : G.system.Reachable s := by
  obtain ⟨s₀, h0, hs⟩ := h
  exact ⟨s₀, h0, steps_of_orderly hs⟩

/-- For member `n` an orderly step is nothing, an orderly call, or a crash. -/
theorem OrderlyStep.engine {s t : State} (h : G.OrderlyStep s t) (n : NodeId) :
    t.node n = s.node n ∨
      (∃ i carried, (s.node n).engine.Admissible i ∧ (s.node n).engine.Orderly i ∧
        t.node n = (s.node n).act i carried) ∨
      ∃ seed, t.node n = (s.node n).restart seed := by
  have call : ∀ m i carried, (s.node m).engine.Admissible i → (s.node m).engine.Orderly i →
      (s.act m i carried).node n = s.node n ∨
        (∃ j carried', (s.node n).engine.Admissible j ∧ (s.node n).engine.Orderly j ∧
          (s.act m i carried).node n = (s.node n).act j carried') ∨
        ∃ seed, (s.act m i carried).node n = (s.node n).restart seed := by
    intro m i carried ha ho
    rcases eq_or_ne n m with rfl | hne
    · exact Or.inr (Or.inl ⟨i, carried, ha, ho, State.act_node_self ..⟩)
    · exact Or.inl (State.act_node_of_ne hne i carried)
  cases h with
  | tick m _ => exact call m .tick [] trivial trivial
  | propose m c _ => exact call m (.propose c) [] trivial trivial
  | compact m index snapshot _ hle => exact call m (.compact index snapshot) [] hle trivial
  | deliver p _ _ ho => exact call p.dst (.step p.src p.msg) p.folded trivial ho
  | crash m seed _ =>
    rcases eq_or_ne n m with rfl | hne
    · exact Or.inr (Or.inr ⟨seed, State.restart_node_self ..⟩)
    · exact Or.inl (State.restart_node_of_ne hne seed)

/-! ## Orderly schedules -/

variable (G) in
/-- The state after an event, if it is an orderly step below the ceiling. -/
def State.playOrderly (s : State) (e : Event) : Option State :=
  match s.play G e with
  | none => none
  | some t =>
    if ∀ n ∈ G.members, (t.node n).engine.lastIndex < u64Max then
      match e with
      | .deliver k => match s.net[k]? with
        | some p => if (s.node p.dst).engine.Orderly (.step p.src p.msg) then some t else none
        | none => none
      | _ => some t
    else none

theorem step_playOrderly {s t : State} {e : Event} (h : s.playOrderly G e = some t) :
    G.orderly.step s t := by
  unfold State.playOrderly at h
  cases hplay : s.play G e with
  | none =>
    rw [hplay] at h
    cases h
  | some u =>
    rw [hplay] at h
    simp only [Option.ite_none_right_eq_some] at h
    obtain ⟨hbelow, h⟩ := h
    cases e with
    | tick n =>
      cases h
      simp only [State.play, Option.ite_none_right_eq_some, Option.some.injEq] at hplay
      exact ⟨hplay.2 ▸ .tick s n hplay.1, hbelow⟩
    | propose n c =>
      cases h
      simp only [State.play, Option.ite_none_right_eq_some, Option.some.injEq] at hplay
      exact ⟨hplay.2 ▸ .propose s n c hplay.1, hbelow⟩
    | deliver k =>
      simp only [State.play, Option.bind_eq_bind, Option.bind_eq_some_iff,
        Option.ite_none_right_eq_some, Option.some.injEq] at hplay
      obtain ⟨p, hp, hdst, rfl⟩ := hplay
      simp only [hp, Option.ite_none_right_eq_some, Option.some.injEq] at h
      obtain ⟨horderly, rfl⟩ := h
      exact ⟨.deliver s p (List.mem_of_getElem? hp) hdst horderly, hbelow⟩
    | crash n seed =>
      cases h
      simp only [State.play, Option.ite_none_right_eq_some, Option.some.injEq] at hplay
      exact ⟨hplay.2 ▸ .crash s n seed hplay.1, hbelow⟩

theorem orderly_steps {s t : State} {schedule : List Event}
    (h : schedule.foldlM (State.playOrderly G) s = some t) : G.orderly.Steps s t := by
  induction schedule generalizing s with
  | nil =>
    cases Option.some.inj h
    exact .refl _
  | cons e rest ih =>
    obtain ⟨u, hu, hrest⟩ := Option.bind_eq_some_iff.mp h
    exact (TransitionSystem.Steps.single (step_playOrderly hu)).trans (ih hrest)

/-- A state after an orderly schedule of the two, `s` itself if the schedule is none. -/
def State.afterOrderly (s : State) (schedule : List Event) : State :=
  (schedule.foldlM (State.playOrderly pair) s).getD s

theorem steps_afterOrderly {s : State} {schedule : List Event}
    (h : (schedule.foldlM (State.playOrderly pair) s).isSome = true) :
    pair.orderly.Steps s (s.afterOrderly schedule) := by
  obtain ⟨t, ht⟩ := Option.isSome_iff_exists.mp h
  rw [State.afterOrderly, ht]
  exact orderly_steps ht

/-! ## The tables in orderly runs -/

theorem ordered_of_reachable {s : State} (hr : G.orderly.Reachable s) {n : NodeId}
    (hn : n ∈ G.members) : (s.node n).engine.Books ∧ (s.node n).engine.Ordered := by
  refine hr.invariant (P := fun s => (s.node n).engine.Books ∧ (s.node n).engine.Ordered) ?_
    fun s t hrs h hst => ?_
  · rintro s ⟨seed, rfl⟩
    exact ⟨books_new .., fun hl => absurd ((role_new ..).symm.trans hl) (by simp)⟩
  · have hw := engine_wellFormed (reachable_of_orderly hrs) hn
    have hbelow := hst.2 n hn
    rcases hst.1.engine n with heq | ⟨i, carried, _, ho, heq⟩ | ⟨seed, heq⟩
    · rw [heq]
      exact h
    · rw [heq] at hbelow ⊢
      exact ⟨(h.1.run hw i).ready, h.2.run hw h.1 ho hbelow⟩
    · rw [heq]
      exact ⟨books_new .., fun hl => absurd ((role_new ..).symm.trans hl) (by simp)⟩

/-- **A leadership once over is over for its term**, and until then the tables grow. -/
theorem tenure_of_steps {s s' : State} (hr : G.system.Reachable s) (hs : G.system.Steps s s')
    {n : NodeId} (hn : n ∈ G.members) (hl : (s.node n).engine.role = .leader) :
    Tenure (s.node n).engine.currentTerm (s.node n).engine (s'.node n).engine := by
  refine hs.preserves (P := fun t => Tenure (s.node n).engine.currentTerm (s.node n).engine
    (t.node n).engine) (fun t u hrt ht htu => ?_) hr (Or.inl ⟨hl, rfl, .refl _⟩)
  have hw := engine_wellFormed hrt hn
  rcases htu.engine n with heq | ⟨i, carried, ha, heq⟩ | ⟨seed, heq⟩
  · rw [heq]
    exact ht
  · rw [heq]
    exact ht.run hw ha
  · rw [heq]
    show Tenure _ _ (Raft.new _ _ _ _ _)
    rw [engine_durable hrt hn]
    exact ht.restart _ _ _ seed

/--
**In orderly runs the tables are ordered and grow.** Every peer of a leader has a match below its
next index, and the next index stays within one of the log's end. As long as the leadership lasts,
no match gets smaller.
-/
theorem bookkeeping_ordered {s s' : State} (hr : G.orderly.Reachable s)
    (hs : G.orderly.Steps s s') {n : NodeId} (hn : n ∈ G.members)
    (hl' : (s'.node n).engine.role = .leader) :
    (∀ p ∈ G.peers n, ∃ m x, (s'.node n).engine.matchIndex p = some m ∧
      (s'.node n).engine.nextIndex p = some x ∧ m < x ∧ x ≤ (s'.node n).engine.lastIndex + 1) ∧
    ((s.node n).engine.role = .leader →
      (s'.node n).engine.currentTerm = (s.node n).engine.currentTerm →
      ∀ p ∈ G.peers n, ∃ m m', (s.node n).engine.matchIndex p = some m ∧
        (s'.node n).engine.matchIndex p = some m' ∧ m ≤ m') := by
  have hr' := hr.steps hs
  have hpeers := (engine_peers (reachable_of_orderly hr) hn).2
  have hpeers' := (engine_peers (reachable_of_orderly hr') hn).2
  obtain ⟨hb, ho⟩ := ordered_of_reachable hr' hn
  constructor
  · intro p hp
    rw [← hpeers'] at hp
    obtain ⟨m, x, hm, hx, _, _, hle⟩ := hb.tables hl' p hp
    exact ⟨m, x, hm, hx, ho hl' p hp m x hm hx, hle⟩
  · intro hl hterm p hp
    rw [← hpeers] at hp
    obtain ⟨m, _, hm, _⟩ := (ordered_of_reachable hr hn).1.tables hl p hp
    rcases tenure_of_steps (reachable_of_orderly hr) (steps_of_orderly hs) hn hl with
      ⟨_, _, hgrown⟩ | hspent
    · obtain ⟨m', hm', hle⟩ := hgrown p m hm
      exact ⟨m, m', hm, hm', hle⟩
    · rcases hspent with hlt | ⟨_, hrole | hrole⟩
      · omega
      · exact absurd (hrole.symm.trans hl') (by simp)
      · exact absurd (hrole.symm.trans hl') (by simp)

end Orderly

/-- `a` leads and sends its no-op. -/
def pairLed : State :=
  pairStart.afterOrderly [.tick "a", .deliver 0, .deliver 1, .deliver 2, .deliver 3]

theorem reachable_pairLed : pair.orderly.Reachable pairLed :=
  ⟨pairStart, ⟨_, rfl⟩, steps_afterOrderly (by decide +kernel)⟩

theorem bookkeeping_ordered_pair :
    (∀ p ∈ pair.peers "a", ∃ m x,
      ((pairLed.afterOrderly [.deliver 4, .deliver 5]).node "a").engine.matchIndex p = some m ∧
      ((pairLed.afterOrderly [.deliver 4, .deliver 5]).node "a").engine.nextIndex p = some x ∧
      m < x ∧
      x ≤ ((pairLed.afterOrderly [.deliver 4, .deliver 5]).node "a").engine.lastIndex + 1) ∧
    ((pairLed.node "a").engine.role = .leader →
      ((pairLed.afterOrderly [.deliver 4, .deliver 5]).node "a").engine.currentTerm =
        (pairLed.node "a").engine.currentTerm →
      ∀ p ∈ pair.peers "a", ∃ m m', (pairLed.node "a").engine.matchIndex p = some m ∧
        ((pairLed.afterOrderly [.deliver 4, .deliver 5]).node "a").engine.matchIndex p = some m' ∧
        m ≤ m') :=
  bookkeeping_ordered reachable_pairLed (steps_afterOrderly (by decide +kernel)) (by decide)
    (by decide +kernel)

/-! ## A refusal that comes twice -/

/-- `a` is elected, crashes before its first append arrives, and is elected again: `b` refuses the
append of the second term, and takes the one that starts over. -/
def pairRefused : State := pairStart.after
  [.tick "a", .deliver 0, .deliver 1, .deliver 2, .deliver 3, .crash "a" 7, .tick "a", .deliver 5,
    .deliver 6, .deliver 7, .deliver 8, .deliver 9, .deliver 10, .deliver 11, .deliver 12]

/-- The refusal once more. -/
def pairRewound : State := pairRefused.after [.deliver 10]

theorem reachable_pairRefused : pair.system.Reachable pairRefused :=
  reachable_pairStart.steps (steps_after (by decide +kernel))

theorem bookkeeping_disordered_pair : pair.system.Reachable pairRefused ∧
    pair.system.Steps pairRefused pairRewound ∧
    (pairRefused.node "a").engine.role = .leader ∧ (pairRewound.node "a").engine.role = .leader ∧
    (pairRefused.node "a").engine.currentTerm = 2 ∧ (pairRewound.node "a").engine.currentTerm = 2 ∧
    (pairRefused.node "a").engine.matchIndex "b" = some 2 ∧
    (pairRefused.node "a").engine.nextIndex "b" = some 3 ∧
    (pairRewound.node "a").engine.matchIndex "b" = some 2 ∧
    (pairRewound.node "a").engine.nextIndex "b" = some 1 :=
  ⟨reachable_pairRefused, steps_after (by decide +kernel), by decide +kernel⟩

end Group

end FiduciaBrain
