import FiduciaBrain.Group.Model
import FiduciaBrain.TermLog.Safety
import Mathlib.Data.Finset.Dedup

/-!
# A member and the abstract protocol

`Mirrors` relates one member to a state of the term-indexed logs protocol: its log, folded entries
included, is the abstract log, and every message in its outbox is `Backed` by what the ledger says.
A message stays backed when the ledger grows, so it does not matter when it is delivered, or how
often.
-/

namespace FiduciaBrain.Group

open Infra TermLog

/-- The abstract state the group is compared with. -/
abbrev Ledger := TermLog.State NodeId LogEntry

variable (G : Group)

/-! ## Majorities -/

/-- More than half of the members. -/
def quorums : Quorums NodeId where
  IsQuorum A := A ⊆ G.members.toFinset ∧ G.members.length < 2 * A.card
  inter A B hA hB := by
    by_contra hno
    have hdisj : Disjoint A B := by
      rw [Finset.disjoint_left]
      exact fun n hn hn' => hno ⟨n, hn, hn'⟩
    have hcard := Finset.card_le_card (Finset.union_subset hA.1 hB.1)
    rw [Finset.card_union_of_disjoint hdisj, List.toFinset_card_of_nodup G.nodup] at hcard
    have h1 := hA.2
    have h2 := hB.2
    omega

theorem length_peers {n : NodeId} (hn : n ∈ G.members) :
    (G.peers n).length + 1 = G.members.length := by
  rw [(G.peers_perm n hn).length_eq, List.length_erase_of_mem hn]
  have := List.length_pos_of_mem hn
  omega

theorem mem_peers {n p : NodeId} (hn : n ∈ G.members) :
    p ∈ G.peers n ↔ p ≠ n ∧ p ∈ G.members := by
  rw [(G.peers_perm n hn).mem_iff, G.nodup.mem_erase_iff]

/-- The protocol over the group's majorities. -/
abbrev protocol : TransitionSystem Ledger := TermLog.system G.quorums

/-! ## Messages -/

/-- What the ledger must say for `src` to have sent `msg` to `dst`. -/
def Backed (a : Ledger) (src dst : NodeId) : RaftMessage → Prop
  | .requestVote req => req.preVote = true ∨ ∃ l, a.cand src req.term = some l ∧
      req.lastLogTerm = lastTerm l ∧ req.lastLogIndex = l.length
  | .requestVoteResp resp => resp.granted = true → resp.preVote = false →
      a.vote src resp.term = some dst
  | .appendEntries req => entriesAreContiguous req = true →
      a.leader req.term = some src ∧ req.prevLogIndex ≤ (a.llog req.term).length ∧
      req.prevLogTerm = lastTerm ((a.llog req.term).take req.prevLogIndex) ∧
      req.entries <+: (a.llog req.term).drop req.prevLogIndex ∧
      req.leaderCommit ≤ (a.llog req.term).length ∧
      Committed G.quorums a req.term ((a.llog req.term).take req.leaderCommit)
  | .appendEntriesResp resp => resp.success = true → resp.matchIndex ≤ a.acked src resp.term
  | .installSnapshot req => a.leader req.term = some src ∧
      req.lastIncludedIndex ≤ (a.llog req.term).length ∧
      req.lastIncludedTerm = lastTerm ((a.llog req.term).take req.lastIncludedIndex) ∧
      Committed G.quorums a req.term ((a.llog req.term).take req.lastIncludedIndex)
  | .installSnapshotResp resp => resp.success = true →
      resp.lastIncludedIndex ≤ a.acked src resp.term

theorem take_eq_of_le {α : Type*} {l l' : List α} (h : l <+: l') {n : Nat} (hn : n ≤ l.length) :
    l'.take n = l.take n := by
  obtain ⟨s, rfl⟩ := h
  exact List.take_append_of_le_length hn

variable {G}

/-- A message stays backed. -/
theorem Backed.mono {a b : Ledger} (hg : Grows a b) {src dst : NodeId} {msg : RaftMessage}
    (h : G.Backed a src dst msg) : G.Backed b src dst msg := by
  cases msg with
  | requestVote req => exact h.imp_right fun ⟨l, hl, hrest⟩ => ⟨l, hg.cand _ _ _ hl, hrest⟩
  | requestVoteResp resp => exact fun h1 h2 => hg.vote _ _ _ (h h1 h2)
  | appendEntries req =>
    intro hcont
    obtain ⟨hlead, hprev, hterm, hent, hcl, hcommit⟩ := h hcont
    have hl := hg.llog req.term
    refine ⟨hg.leader _ _ hlead, hprev.trans hl.length_le, ?_, ?_, hcl.trans hl.length_le, ?_⟩
    · rw [take_eq_of_le hl hprev]
      exact hterm
    · exact hent.trans (hl.drop _)
    · rw [take_eq_of_le hl hcl]
      exact hg.committed hcommit (Nat.le_refl _)
  | appendEntriesResp resp => exact fun h1 => (h h1).trans (hg.acked_le _ _)
  | installSnapshot req =>
    obtain ⟨hlead, hidx, hterm, hcommit⟩ := h
    have hl := hg.llog req.term
    refine ⟨hg.leader _ _ hlead, hidx.trans hl.length_le, ?_, ?_⟩
    · rw [take_eq_of_le hl hidx]
      exact hterm
    · rw [take_eq_of_le hl hidx]
      exact hg.committed hcommit (Nat.le_refl _)
  | installSnapshotResp resp => exact fun h1 => (h h1).trans (hg.acked_le _ _)

variable (G)

/-! ## Members -/

/-- Member `n`'s engine, given by its core and outbox, is where the ledger says. -/
structure Mirrors (a : Ledger) (n : NodeId) (c : Raft.Core) (out : List Addressed) : Prop where
  id : c.id = n
  peers : c.peers = G.peers n
  term : a.term n = c.currentTerm
  vote : a.vote n c.currentTerm = c.votedFor
  length : (a.log n).length = c.lastIndex
  live : (a.log n).drop c.baseIndex = c.log
  base : lastTerm ((a.log n).take c.baseIndex) = c.baseTerm
  commit : a.commit n = c.commitIndex
  candidate : c.role = .candidate → a.cand n c.currentTerm = some (a.log n) ∧
    a.leader c.currentTerm ≠ some n ∧
    ∀ v ∈ c.votes, v ∈ G.members ∧ a.vote v c.currentTerm = some n
  leader : c.role = .leader → a.leader c.currentTerm = some n ∧
    ∀ p ∈ c.peers, (c.matchIndex p).getD 0 ≤ a.acked p c.currentTerm
  backed : ∀ m ∈ out, G.Backed a n m.recipient m.msg
  /-- A snapshot on its way is no newer than the own one. -/
  outBase : ∀ m ∈ out, ∀ req, m.msg = .installSnapshot req → req.lastIncludedIndex ≤ c.baseIndex

/-- The steps from `a` to `b` were member `n`'s. -/
structure Only (n : NodeId) (a b : Ledger) : Prop where
  grows : Grows a b
  term : ∀ m, m ≠ n → b.term m = a.term m
  log : ∀ m, m ≠ n → b.log m = a.log m
  commit : ∀ m, m ≠ n → b.commit m = a.commit m
  vote : ∀ m, m ≠ n → ∀ t, b.vote m t = a.vote m t
  leader : ∀ m, m ≠ n → ∀ t, b.leader t = some m → a.leader t = some m

namespace Only

variable {n : NodeId} {a b c : Ledger}

theorem refl : Only n a a where
  grows := Grows.refl a
  term := fun _ _ => rfl
  log := fun _ _ => rfl
  commit := fun _ _ => rfl
  vote := fun _ _ _ => rfl
  leader := fun _ _ _ h => h

theorem trans (h : Only n a b) (h' : Only n b c) : Only n a c where
  grows := h.grows.trans h'.grows
  term := fun m hm => (h'.term m hm).trans (h.term m hm)
  log := fun m hm => (h'.log m hm).trans (h.log m hm)
  commit := fun m hm => (h'.commit m hm).trans (h.commit m hm)
  vote := fun m hm t => (h'.vote m hm t).trans (h.vote m hm t)
  leader := fun m hm t ht => h.leader m hm t (h'.leader m hm t ht)

end Only

variable {G}

namespace Mirrors

variable {a b : Ledger} {n : NodeId} {c : Raft.Core} {out : List Addressed}

theorem holds {r : Raft} (h : G.Mirrors a n r.core out) : r.Holds (a.log n) :=
  ⟨h.length, h.live, h.base⟩

/-- Another member's steps do not disturb this one. -/
theorem frame {m : NodeId} (h : G.Mirrors a m c out) (hm : m ≠ n) (ho : Only n a b) :
    G.Mirrors b m c out where
  id := h.id
  peers := h.peers
  term := (ho.term m hm).trans h.term
  vote := (ho.vote m hm _).trans h.vote
  length := by rw [ho.log m hm]; exact h.length
  live := by rw [ho.log m hm]; exact h.live
  base := by rw [ho.log m hm]; exact h.base
  commit := (ho.commit m hm).trans h.commit
  candidate := fun hr => by
    obtain ⟨hc, hl, hv⟩ := h.candidate hr
    rw [ho.log m hm]
    exact ⟨ho.grows.cand _ _ _ hc, fun hb => hl (ho.leader m hm _ hb),
      fun v hvm => ⟨(hv v hvm).1, ho.grows.vote _ _ _ (hv v hvm).2⟩⟩
  leader := fun hr => by
    obtain ⟨hl, hp⟩ := h.leader hr
    exact ⟨ho.grows.leader _ _ hl, fun p hpm => (hp p hpm).trans (ho.grows.acked_le _ _)⟩
  backed := fun m hm => (h.backed m hm).mono ho.grows
  outBase := h.outBase

end Mirrors

end FiduciaBrain.Group
