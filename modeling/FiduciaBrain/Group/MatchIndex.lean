import FiduciaBrain.Group.Safety

/-!
# What a leader counts

`Persisted.Stores`: a durable state holds a leader's history up to an index. Whatever a leader
records as matched, a peer that is still in its term has on disk, and what the leader counts towards
a commit a majority has on disk, whatever term its members have reached since
(`match_index_sound`).
-/

namespace FiduciaBrain

open Infra TermLog

namespace Persisted

/-- `Raft::last_index` of the member that restarts from here. -/
def lastIndex (p : Persisted) : Nat := p.baseIndex + p.log.length

/-- The entry at a log index, if it is live. -/
def entryAt (p : Persisted) (index : Nat) : Option LogEntry :=
  if p.baseIndex < index then p.log[index - p.baseIndex - 1]? else none

/-- The state on disk holds `r`'s history up to `m`, as far as both are uncompacted. -/
def Stores (p : Persisted) (r : Raft) (m : Nat) : Prop :=
  m ≤ p.lastIndex ∧ ∀ j, j ≤ m → p.baseIndex < j → r.baseIndex < j →
    ∃ e, p.entryAt j = some e ∧ r.entryAt j = some e

end Persisted

namespace Raft

@[simp] theorem lastIndex_persistedSnapshot (r : Raft) :
    r.persistedSnapshot.lastIndex = r.lastIndex := rfl

theorem entryAt_persistedSnapshot {r : Raft} {i : Nat} (hb : r.baseIndex < i) :
    r.persistedSnapshot.entryAt i = r.entryAt i := by
  have hp : r.persistedSnapshot.entryAt i = r.log[i - r.baseIndex - 1]? := if_pos hb
  rw [hp]
  by_cases hi : i ≤ r.lastIndex
  · rw [entryAt, logSlot_eq_some hb hi, Option.bind_some]
  · have hlen : r.log.length ≤ i - r.baseIndex - 1 := by
      simp only [lastIndex] at hi
      omega
    rw [entryAt, logSlot_eq_none (by omega), List.getElem?_eq_none hlen]
    rfl

/-- An index that a leader finds its own term at is in its log, or the boundary. -/
theorem WellFormed.live_of_termAt {r : Raft} (h : r.WellFormed) (hrole : r.role = .leader) {i : Nat}
    (hterm : r.termAt i = r.currentTerm) : 0 < i ∧ r.baseIndex ≤ i ∧ i ≤ r.lastIndex := by
  have hne : r.termAt i ≠ 0 := by
    rw [hterm]
    exact h.term (Or.inr hrole)
  have hbase : r.baseIndex ≤ i := by
    by_contra hlt
    exact hne (termAt_of_lt (Nat.lt_of_not_le hlt))
  refine ⟨Nat.pos_of_ne_zero ?_, hbase, ?_⟩
  · rintro rfl
    have h0 : r.baseIndex = 0 := Nat.le_zero.mp hbase
    have hat : r.termAt r.baseIndex = 0 := by rw [termAt_base, h.baseTerm_zero h0]
    rw [h0] at hat
    exact hne hat
  · by_contra hlt
    exact hne (termAt_of_gt (Nat.lt_of_not_le hlt))

end Raft

namespace Group

variable {G : Group} {a : Ledger} {n p : NodeId} {leader node : Node}

/-- Sharing the first `m` entries of the history is having them on disk. -/
theorem NodeOk.stores (h : G.NodeOk a p node) (hl : G.NodeOk a n leader) {m : Nat}
    (hle : m ≤ (a.log n).length) (hin : (a.log n).take m <+: a.log p) :
    node.durable.Stores leader.engine m := by
  have hm : ((a.log n).take m).length = m := List.length_take_of_le hle
  have hlen : m ≤ (a.log p).length := by
    have := hin.length_le
    rwa [hm] at this
  rw [h.durable]
  constructor
  · rw [Raft.lastIndex_persistedSnapshot, ← h.holds.length]
    exact hlen
  · intro j hj hbp hbn
    have hbp' : node.engine.baseIndex < j := hbp
    have hjm : j - 1 < m := by omega
    have hjn : j - 1 < (a.log n).length := by omega
    refine ⟨(a.log n)[j - 1], ?_, ?_⟩
    · rw [Raft.entryAt_persistedSnapshot hbp', h.holds.entryAt hbp',
        List.prefix_iff_getElem?.mp hin (j - 1) (by rw [hm]; exact hjm), List.getElem_take]
    · rw [hl.holds.entryAt hbn, List.getElem?_eq_getElem hjn]

/-- A peer that is still in the leader's term holds all it has confirmed there. -/
theorem NodeOk.prefix_of_acked (ha : Inv G.quorums a) (h : G.NodeOk a p node)
    (hl : G.NodeOk a n leader) (hrole : leader.engine.role = .leader)
    (hterm : node.engine.currentTerm = leader.engine.currentTerm) {m : Nat}
    (hack : m ≤ a.acked p leader.engine.currentTerm) :
    m ≤ (a.log n).length ∧ (a.log n).take m <+: a.log p := by
  have hllog := hl.mirrors.llog_eq ha hrole
  have hat : a.term p = leader.engine.currentTerm := h.mirrors.term.trans hterm
  constructor
  · rw [← hllog]
    exact hack.trans (ha.acked_le p _)
  · have hin := ha.acked_log p
    rw [hat, hllog] at hin
    exact (List.take_prefix_take_left hack).trans hin

/-- **Match-index soundness.** A peer that is still in the leader's term has on disk what the leader
has recorded for it; and an index of the leader's term that its count carries is on disk at a
majority. -/
theorem match_index_sound {s : State} (hr : G.system.Reachable s) (hn : n ∈ G.members)
    (hrole : (s.node n).engine.role = .leader) :
    (∀ p ∈ (s.node n).engine.peers, ∀ m, (s.node n).engine.matchIndex p = some m →
      (s.node p).engine.currentTerm = (s.node n).engine.currentTerm →
      (s.node p).durable.Stores (s.node n).engine m) ∧
    (∀ i, (s.node n).engine.termAt i = (s.node n).engine.currentTerm →
      (s.node n).engine.quorum ≤ (s.node n).engine.replicaCount i →
      ∃ A ⊆ G.members.toFinset, G.members.length < 2 * A.card ∧
        ∀ p ∈ A, (s.node p).durable.Stores (s.node n).engine i) := by
  obtain ⟨a, ha, hsa⟩ := simulation.reachable hr
  have hinv := inv_of_reachable ha
  have hnn := hsa.node n hn
  constructor
  · intro p hp m hm hterm
    have hmem : p ∈ G.members := by
      have hpeers : (s.node n).engine.peers = G.peers n := hnn.mirrors.peers
      rw [hpeers] at hp
      exact ((G.mem_peers hn).mp hp).2
    have hack := (hnn.mirrors.leader hrole).2 p hp
    rw [show (s.node n).engine.core.matchIndex p = some m from hm, Option.getD_some] at hack
    obtain ⟨hle, hin⟩ := (hsa.node p hmem).prefix_of_acked hinv hnn hrole hterm hack
    exact (hsa.node p hmem).stores hnn hle hin
  · intro i hterm hq
    obtain ⟨hpos, hbase, hlast⟩ := hnn.wellFormed.live_of_termAt hrole hterm
    obtain ⟨A, ⟨hsub, hcard⟩, hall, hchosen⟩ :=
      hnn.mirrors.chosen_of_replicaCount hinv hn hrole hpos hbase hlast hterm hq
    refine ⟨A, hsub, hcard, fun p hp => ?_⟩
    have hle : i ≤ (a.log n).length := by
      rw [hnn.holds.length]
      exact hlast
    -- a member that has left the term since still holds what was chosen in it
    have hin := hinv.safe_ack p _ _ hchosen.choosable hchosen.1
      (by rw [List.length_take_of_le hle]; exact hall p hp)
    exact (hsa.node p (List.mem_toFinset.mp (hsub hp))).stores hnn hle hin

/-- `b` has both of the leader's entries on disk. -/
theorem match_index_sound_pair : (pairDone.node "a").engine.matchIndex "b" = some 2 ∧
    (pairDone.node "b").durable.Stores (pairDone.node "a").engine 2 :=
  ⟨by decide +kernel, (match_index_sound (reachable_pairProposed.steps steps_pairDone) (n := "a")
    (by decide) (by decide +kernel)).1 "b" (by decide +kernel) 2 (by decide +kernel)
    (by decide +kernel)⟩

end Group

end FiduciaBrain
