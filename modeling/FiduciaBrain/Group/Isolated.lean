import FiduciaBrain.Group.Members
import FiduciaBrain.Group.Probe
import FiduciaBrain.Raft.Isolated

/-!
# A member that is cut off

However long a member of two or more is left alone, its term, its vote and its commit point stay what
they were, and what it sends meanwhile moves nobody's term: `isolated_keeps_term`. So when it is back
it finds its way as a follower; it deposes nobody.
-/

namespace FiduciaBrain.Group

open Infra Raft

variable {G : Group} {s : State} {n : NodeId}

theorem peers_ne_nil (hn : n ∈ G.members) (hG : 2 ≤ G.members.length) : G.peers n ≠ [] := by
  have hlen := (G.peers_perm n hn).length_eq
  rw [List.length_erase_of_mem hn] at hlen
  exact List.ne_nil_of_length_pos (by omega)

theorem quiescent_of_reachable (hr : G.system.Reachable s) (hn : n ∈ G.members)
    (hG : 2 ≤ G.members.length) : (s.node n).engine.Quiescent := by
  refine (engine_reachable hr hn).invariant (P := Quiescent) ?_ fun r r' _ h hstep => ?_
  · rintro r ⟨seed, p, hp, rfl⟩
    exact quiescent_new hp (peers_ne_nil hn hG)
  · cases hstep with
    | call i ha => exact h.run ha
    | ready => exact h.ready

/--
**An isolated member never inflates its term.** In a group of two or more, take any member in any
reachable state, and let it tick, propose and drain without hearing from anybody. It keeps its
term, vote, commit point and base, its log grows by what it proposes while it leads, and a message
it sends leaves the term of whoever is as far as it was, and changes nothing at all for whoever is
further.
-/
theorem isolated_keeps_term (hr : G.system.Reachable s) (hn : n ∈ G.members)
    (hG : 2 ≤ G.members.length) {l : List Call} (hl : ∀ c ∈ l, c.Isolated) :
    let r := (s.node n).engine
    let r' := r.calls l
    r'.currentTerm = r.currentTerm ∧ r'.votedFor = r.votedFor ∧ r'.commitIndex = r.commitIndex ∧
      r'.baseIndex = r.baseIndex ∧ r'.log = r.log ++ r.accepted l ∧
      ∀ m ∈ r'.out, ∀ x : Raft, r.currentTerm ≤ x.currentTerm →
        (x.step n m.msg).currentTerm = x.currentTerm ∧
          (r.currentTerm < x.currentTerm → (x.step n m.msg).core = x.core) := by
  intro r r'
  have h := (quiescent_of_reachable hr hn hG).marooned hl
  have hdrained : r.out = [] := (drained_of_reachable hr).out n hn
  refine ⟨h.term, h.vote, h.commit, h.base, h.log, fun m hm x hx => ?_⟩
  rcases h.out m hm with hold | hmeek
  · rw [hdrained] at hold
    exact absurd hold List.not_mem_nil
  · exact hmeek.step hx n

/-- The leader of two ticks on alone, steps down, and polls. -/
theorem isolated_keeps_term_pairElected :
    let r := (pairElected.node "a").engine
    let r' := r.calls [.input .tick, .input (.propose forgetNode9), .ready, .input .tick,
      .input (.propose forgetNode9), .input .tick]
    r'.currentTerm = r.currentTerm ∧ r'.votedFor = r.votedFor ∧ r'.commitIndex = r.commitIndex ∧
      r'.baseIndex = r.baseIndex ∧ r'.log = r.log ++ r.accepted [.input .tick,
        .input (.propose forgetNode9), .ready, .input .tick, .input (.propose forgetNode9),
        .input .tick] ∧
      ∀ m ∈ r'.out, ∀ x : Raft, r.currentTerm ≤ x.currentTerm →
        (x.step "a" m.msg).currentTerm = x.currentTerm ∧
          (r.currentTerm < x.currentTerm → (x.step "a" m.msg).core = x.core) :=
  isolated_keeps_term (G := pair) reachable_pairElected (by decide) (by decide) (by decide)

end FiduciaBrain.Group
