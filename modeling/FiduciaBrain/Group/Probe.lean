import FiduciaBrain.Raft.Leader
import FiduciaBrain.Group.Safety

/-!
# Appends that start in the committed prefix

A leader may send a member an append from far behind the member's commit point: an old one, a
duplicate, or one after a rewind. `probe_accepted` says exactly when the member accepts it: when the
request starts at or above the member's base, or at the very start and carries no entry from below
it. Below the base `term_at` answers 0, so the consistency check, and the append loop behind it,
take entries that are folded into the own snapshot for a conflict (`compacted_probe_rejected`).
-/

namespace FiduciaBrain

open Infra TermLog

/-- Above the member's base there is a term to compare with. -/
def AppendEntriesReq.Checkable (req : AppendEntriesReq) (baseIndex : Nat) : Prop :=
  baseIndex ≤ req.prevLogIndex ∨ req.prevLogIndex = 0 ∧ (baseIndex ≤ 1 ∨ req.entries = [])

namespace Raft

variable {r : Raft}

/-! ## The response to an append -/

/-- A loop that starts below the base refuses the first entry it meets. -/
theorem spliceEntries_below {e : LogEntry} {rest : List LogEntry} {k : Nat}
    (hbase : e.index < r.baseIndex) (hbc : r.baseIndex ≤ r.commitIndex) (hterm : e.term ≠ 0) :
    r.spliceEntries k (e :: rest) = (r, false, k) := by
  have hin : e.index ≤ r.lastIndex := by
    simp only [lastIndex]
    omega
  rw [spliceEntries, if_pos hin, termAt_of_lt hbase, if_pos hterm.symm, truncateFrom,
    if_pos (by omega)]

/-- A run of entries that agrees with the member on everything committed is taken. -/
theorem spliceEntries_taken {maxTerm k prev : Nat} {entries : List LogEntry}
    (hbc : r.baseIndex ≤ r.commitIndex) (hcl : r.commitIndex ≤ r.lastIndex) (hk : k ≤ r.lastIndex)
    (hv : LogValid maxTerm k prev entries)
    (hagree : ∀ e ∈ entries, e.index ≤ r.commitIndex → r.termAt e.index = e.term) :
    (r.spliceEntries k entries).2.1 = true := by
  rcases spliceEntries_cases entries k prev hbc hcl hk hv with
    ⟨_, _, e, he, hle, hne⟩ | ⟨_, hs⟩ | ⟨_, _, _, _, _, _, _, _, hs⟩
  · exact absurd (hagree e he hle) hne
  · rw [hs]
  · rw [hs]

/-- **The response to an append from behind the commit point.** `hprev` and `hagree`: the sender and
the member agree on what is committed. -/
theorem handleAppend_probe (hw : r.WellFormed) (l : NodeId) {req : AppendEntriesReq}
    (hle : r.currentTerm ≤ req.term) (hcommit : req.prevLogIndex ≤ r.commitIndex)
    (hprev : entriesAreContiguous req = true → r.baseIndex ≤ req.prevLogIndex →
      r.termAt req.prevLogIndex = req.prevLogTerm)
    (hagree : entriesAreContiguous req = true → ∀ e ∈ req.entries, r.baseIndex ≤ e.index →
      e.index ≤ r.commitIndex → r.termAt e.index = e.term) :
    ∃ resp, (r.handleAppend l req).out = r.out ++ [⟨l, .appendEntriesResp resp⟩] ∧
      (resp.success = true ↔
        entriesAreContiguous req = true ∧ req.Checkable r.baseIndex) := by
  unfold handleAppend
  simp only
  rw [if_neg (Nat.not_lt.mpr hle), show (if req.term > r.currentTerm then
    r.becomeFollower req.term none else r) = r.adopt req.term from rfl]
  cases hcont : entriesAreContiguous req with
  | false =>
    rw [if_pos (by rfl), out_send, out_adopt]
    exact ⟨_, rfl, by simp⟩
  | true =>
    rw [if_neg (by simp)]
    obtain ⟨_, hzero, hv⟩ := logValid_of_contiguous hcont
    have hterm := termAt_adopt_becomeFollower hle (some l)
    obtain ⟨hb, hc, hlast⟩ := bounds_adopt_becomeFollower hle (some l)
    have hout : ((r.adopt req.term).becomeFollower req.term (some l)).out = r.out := by
      rw [out_becomeFollower, out_adopt]
    generalize (r.adopt req.term).becomeFollower req.term (some l) = f at hterm hb hc hlast hout
    have hbc := hw.base_le_commit
    have hcl := hw.commit_le_last
    rw [if_neg (by omega), hterm]
    -- from the boundary on, the terms of all entries are known
    have htaken : r.baseIndex ≤ req.prevLogIndex + 1 →
        (f.spliceEntries req.prevLogIndex req.entries).2.1 = true := by
      intro hfirst
      refine spliceEntries_taken (by omega) (by omega) (by omega) hv fun e he hec => ?_
      rw [hterm]
      refine hagree hcont e he ?_ (hc ▸ hec)
      obtain ⟨k, hk, rfl⟩ := List.getElem_of_mem he
      rw [hv.index_eq hk]
      omega
    by_cases hbase : r.baseIndex ≤ req.prevLogIndex
    · rw [if_neg (fun h => h.2 (hprev hcont hbase)), out_send, out_commitThrough,
        out_spliceEntries, hout]
      exact ⟨_, rfl, by simp [htaken (by omega), AppendEntriesReq.Checkable, hbase]⟩
    · by_cases h0 : req.prevLogIndex = 0
      · rw [if_neg (by omega), out_send, out_commitThrough, out_spliceEntries, hout]
        refine ⟨_, rfl, ?_⟩
        by_cases h1 : r.baseIndex ≤ 1
        · have hspliced := htaken (by omega)
          simp only [h0] at hspliced
          simp [hspliced, AppendEntriesReq.Checkable, h0, h1]
        · cases hent : req.entries with
          | nil => simp [spliceEntries, AppendEntriesReq.Checkable, h0, hent]
          | cons e rest =>
            rw [hent] at hv
            have hidx : e.index = 1 := by rw [hv.1, h0]
            rw [spliceEntries_below (r := f) (by omega) (by omega) hv.2.1]
            simp [AppendEntriesReq.Checkable, h0, hent, h1]
            omega
      · -- a term of 0 is no term of an entry
        have hne : req.prevLogTerm ≠ 0 := fun h => h0 (hzero.mpr h)
        rw [termAt_of_lt (Nat.lt_of_not_le hbase), if_pos ⟨Nat.pos_of_ne_zero h0, hne.symm⟩,
          out_send, hout]
        exact ⟨_, rfl, by simp [AppendEntriesReq.Checkable, hbase, h0]⟩

/-! ## Who an append names as its leader -/

theorem leaderId_run (hw : r.WellFormed) {i : Input} (ha : r.Admissible i) :
    ∀ m ∈ (r.run i).out, m ∈ r.out ∨ ∀ req, m.msg = .appendEntries req → req.leaderId = r.id := by
  have hrep : ∀ {s : Raft} {m : Addressed}, Replication s m.msg →
      ∀ req, m.msg = .appendEntries req → req.leaderId = s.id := by
    intro s m hm req heq
    rw [heq] at hm
    cases hm with
    | append _ _ => rfl
  -- a message of another kind
  have other : ∀ {m : Addressed} {msg : RaftMessage}, m.msg = msg →
      (∀ req, msg ≠ .appendEntries req) → ∀ req, m.msg = .appendEntries req →
        req.leaderId = r.id := fun heq hne req h => absurd (heq.symm.trans h) (hne req)
  refine (run_preserves (P := fun s => s.id = r.id ∧ ∀ m ∈ s.out, m ∈ r.out ∨
    ∀ req, m.msg = .appendEntries req → req.leaderId = r.id) hw ha
    ⟨rfl, fun _ hm => Or.inl hm⟩ ?_).2.2
  rintro s t hws ⟨hid, hs⟩ hm
  have hid' : t.id = r.id := (hm.progress hws).id.trans hid
  refine ⟨hid', fun m hmem => ?_⟩
  have said : ∀ {d : NodeId} {msg : RaftMessage}, t.out = s.out ++ [⟨d, msg⟩] →
      (∀ req, msg ≠ .appendEntries req) → m ∈ r.out ∨
        ∀ req, m.msg = .appendEntries req → req.leaderId = r.id := by
    intro d msg ho hne
    rw [ho] at hmem
    rcases List.mem_append.mp hmem with hmem | hmem
    · exact hs m hmem
    · exact Or.inr (other (by rw [List.mem_singleton.mp hmem]) hne)
  cases hm with
  | quiet hc hout =>
    rcases hout m hmem with h | h
    · exact hs m h
    · refine Or.inr fun req heq => ?_
      rw [heq] at h
      cases h with
      | replication _ hr => exact (hrep (m := m) (heq ▸ hr) req heq).trans hid'
  | follow _ _ ho => exact hs m (ho ▸ hmem)
  | poll _ heq =>
    rcases mem_out_poll (heq ▸ hmem) with h | ⟨req, h, _⟩
    · exact hs m h
    · exact Or.inr (other h (by simp))
  | stand _ heq =>
    rcases mem_out_stand (heq ▸ hmem) with h | h
    · exact hs m h
    · exact Or.inr (other h (by simp))
  | tally _ _ _ _ _ heq =>
    rw [heq] at hmem
    exact hs m hmem
  | lead _ _ heq =>
    rcases mem_out_becomeLeader (heq ▸ hmem) with h | h
    · exact hs m h
    · exact Or.inr fun req hreq => (hrep h req hreq).trans (heq ▸ hid')
  | grant _ _ _ _ _ _ _ _ _ ho => exact said ho (by simp)
  | append _ _ _ _ _ _ _ _ _ _ _ ho => exact said ho (by simp)
  | covered _ _ _ _ _ _ _ _ ho => exact said ho (by simp)
  | install _ _ _ _ _ _ _ _ _ ho => exact said ho (by simp)
  | matched _ _ _ _ _ _ _ ho => exact hs m (ho ▸ hmem)
  | advance _ _ _ _ _ _ heq =>
    rw [heq] at hmem
    exact hs m hmem
  | push _ _ _ heq =>
    rw [heq] at hmem
    exact hs m hmem
  | compact index snapshot _ hb hc heq =>
    rw [heq, Raft.compact, if_neg (by omega)] at hmem
    exact hs m hmem

end Raft

namespace Group

variable {G : Group}

/-! ## What the network carries -/

/-- A member is drained between two actions, and its appends name it as the leader. -/
structure Drained (s : State) : Prop where
  out : ∀ n ∈ G.members, (s.node n).engine.out = []
  leaderId : ∀ p ∈ s.net, ∀ req, p.msg = .appendEntries req → req.leaderId = p.src

theorem drained_act {s : State} {n : NodeId} {i : Raft.Input} {carried : List LogEntry}
    (h : G.Drained s) (hw : (s.node n).engine.WellFormed) (hn : n ∈ G.members)
    (ha : (s.node n).engine.Admissible i) : G.Drained (s.act n i carried) where
  out := by
    intro m hm
    by_cases hmn : m = n
    · subst hmn
      rw [State.act_node_self]
      rfl
    · rw [State.act_node_of_ne hmn]
      exact h.out m hm
  leaderId := by
    intro p hp req hreq
    rcases List.mem_append.mp hp with hp | hp
    · exact h.leaderId p hp req hreq
    · obtain ⟨m, hm, rfl⟩ := List.mem_map.mp hp
      rcases Raft.leaderId_run hw ha m hm with hold | hid
      · rw [h.out n hn] at hold
        cases hold
      · exact hid req hreq

theorem drained_of_reachable {s : State} (hr : G.system.Reachable s) : G.Drained s := by
  refine hr.invariant ?_ fun s t hrs h hst => ?_
  · rintro s ⟨seed, rfl⟩
    exact ⟨fun _ _ => rfl, fun _ hp => nomatch hp⟩
  · obtain ⟨a, _, hsa⟩ := simulation.reachable hrs
    have hw : ∀ n ∈ G.members, (s.node n).engine.WellFormed := fun n hn => (hsa.node n hn).wellFormed
    cases hst with
    | tick n hn => exact drained_act h (hw n hn) hn trivial
    | propose n c hn => exact drained_act h (hw n hn) hn trivial
    | compact n index snapshot hn hle => exact drained_act h (hw n hn) hn hle
    | deliver p hp hdst => exact drained_act h (hw p.dst hdst) hdst trivial
    | crash n seed hn =>
      refine ⟨fun m hm => ?_, h.leaderId⟩
      by_cases hmn : m = n
      · subst hmn
        rw [State.restart_node_self]
        rfl
      · rw [State.restart_node_of_ne hmn]
        exact h.out m hm

/-! ## Probes -/

section Probe

variable {a : Ledger} {n src : NodeId} {node : Node} {req : AppendEntriesReq}

/-- What a member has committed is in the log of every leader from its own term on. -/
theorem NodeOk.take_eq_llog (ha : Inv G.quorums a) (h : G.NodeOk a n node) {t i : Nat}
    (ht : node.engine.currentTerm ≤ t) (hlead : a.leader t ≠ none)
    (hi : i ≤ node.engine.commitIndex) : (a.log n).take i = (a.llog t).take i := by
  have hc : Committed G.quorums a t ((a.log n).take i) :=
    (h.committed ha hi).mono ht (fun _ => List.prefix_rfl) (fun _ _ => Nat.le_refl _)
  have hp := ha.committed_prefix_llog hc hlead
  have hl : ((a.log n).take i).length = i := List.length_take_of_le (hi.trans h.commit_le)
  rw [take_eq_of_le hp hl.ge, List.take_take, Nat.min_self]

/-- Where a leader's request and a member's committed prefix overlap, their terms agree. -/
theorem NodeOk.probe_agrees (ha : Inv G.quorums a) (h : G.NodeOk a n node)
    (hb : G.Backed a src n (.appendEntries req)) (hle : node.engine.currentTerm ≤ req.term)
    (hcommit : req.prevLogIndex ≤ node.engine.commitIndex)
    (hcont : entriesAreContiguous req = true) :
    (node.engine.baseIndex ≤ req.prevLogIndex →
      node.engine.termAt req.prevLogIndex = req.prevLogTerm) ∧
    ∀ e ∈ req.entries, node.engine.baseIndex ≤ e.index → e.index ≤ node.engine.commitIndex →
      node.engine.termAt e.index = e.term := by
  obtain ⟨hlead, hprev, hpt, hent, _, _⟩ := hb hcont
  have hsome : a.leader req.term ≠ none := by rw [hlead]; simp
  have hread : ∀ i, node.engine.baseIndex ≤ i → i ≤ node.engine.commitIndex →
      node.engine.termAt i = lastTerm ((a.llog req.term).take i) := by
    intro i hbase hi
    rw [h.holds.termAt hbase (hi.trans h.commit_le), h.take_eq_llog ha hle hsome hi]
  constructor
  · intro hbase
    rw [hread _ hbase hcommit, hpt]
  · intro e he hbase hi
    obtain ⟨_, _, hv⟩ := logValid_of_contiguous hcont
    obtain ⟨pre, post, heq⟩ := List.append_of_mem he
    have hs : Slice (a.llog req.term) req.prevLogIndex (pre ++ [e]) := by
      refine ⟨hprev, List.IsPrefix.trans ⟨post, ?_⟩ hent⟩
      rw [heq, List.append_assoc, List.singleton_append]
    have hidx : req.prevLogIndex + (pre ++ [e]).length = e.index := by
      rw [heq] at hv
      rw [(LogValid.append.mp hv).2.1, List.length_append, List.length_singleton]
      omega
    rw [hread _ hbase hi, ← hidx, hs.take_eq, ← List.append_assoc, lastTerm_append_singleton]
    rfl

end Probe

/-- **When a committed-prefix probe is accepted.** A member that hears an append of a term no older
than its own, starting at or below its commit point, answers it once, and with success exactly when
the append is well-formed and starts where the member's snapshot still lets it compare. -/
theorem probe_accepted {s : State} (hr : G.system.Reachable s) {p : Packet} (hp : p ∈ s.net)
    (hdst : p.dst ∈ G.members) (hpeer : p.src ∈ (s.node p.dst).engine.peers)
    {req : AppendEntriesReq} (hmsg : p.msg = .appendEntries req)
    (hterm : (s.node p.dst).engine.currentTerm ≤ req.term)
    (hprev : req.prevLogIndex ≤ (s.node p.dst).engine.commitIndex) :
    ∃ resp, (s.node p.dst).sent (.step p.src p.msg) p.folded =
        [{ src := p.dst, dst := p.src, msg := .appendEntriesResp resp, folded := [] }] ∧
      (resp.success = true ↔ entriesAreContiguous req = true ∧
        req.Checkable (s.node p.dst).engine.baseIndex) := by
  obtain ⟨a, ha, hsa⟩ := simulation.reachable hr
  have hinv := inv_of_reachable ha
  have hnode := hsa.node p.dst hdst
  have hd := drained_of_reachable hr
  have hbacked := (hsa.net p hp).backed
  rw [hmsg] at hbacked
  obtain ⟨resp, hout, hiff⟩ := Raft.handleAppend_probe hnode.wellFormed p.src hterm hprev
    (fun hcont => (hnode.probe_agrees hinv hbacked hterm hprev hcont).1)
    (fun hcont => (hnode.probe_agrees hinv hbacked hterm hprev hcont).2)
  refine ⟨resp, ?_, hiff⟩
  have hrun : (s.node p.dst).engine.run (.step p.src p.msg) =
      (s.node p.dst).engine.handleAppend p.src req := by
    have hid : req.leaderId = p.src := hd.leaderId p hp req hmsg
    simp [hmsg, Raft.run, Raft.step, hpeer, Raft.bodyIdentityMatches, hid]
  have hmessages : ((s.node p.dst).engine.run (.step p.src p.msg)).ready.1.messages =
      [⟨p.src, .appendEntriesResp resp⟩] := by
    rw [hrun]
    show ((s.node p.dst).engine.handleAppend p.src req).out = _
    rw [hout, hd.out p.dst hdst, List.nil_append]
  have hself : (s.node p.dst).engine.id = p.dst := hnode.mirrors.id
  rw [Node.sent, hmessages, List.map_singleton, hself]

/-! ## A late duplicate at a compacted member -/

deriving instance DecidableEq for Packet

/-- The append that brought the proposal to `b`. -/
def proposalRequest : AppendEntriesReq where
  term := 1
  leaderId := "a"
  prevLogIndex := 1
  prevLogTerm := 1
  entries := [{ term := 1, index := 2, command := some forgetNode9 }]
  leaderCommit := 1

def proposalAppend : Packet where
  src := "a"
  dst := "b"
  msg := .appendEntries proposalRequest
  folded := []

theorem probe_accepted_pair : ∃ resp, (pairDone.node proposalAppend.dst).sent
      (.step proposalAppend.src proposalAppend.msg) proposalAppend.folded =
        [{ src := proposalAppend.dst
           dst := proposalAppend.src
           msg := .appendEntriesResp resp
           folded := [] }] ∧
    (resp.success = true ↔ entriesAreContiguous proposalRequest = true ∧
      proposalRequest.Checkable (pairDone.node proposalAppend.dst).engine.baseIndex) :=
  probe_accepted (reachable_pairProposed.steps steps_pairDone) (by decide +kernel) (by decide)
    (by decide +kernel) rfl (by decide +kernel) (by decide +kernel)

/-- `b`, after it has folded both entries into a snapshot. -/
def pairCompacted : State := pairDone.act "b" (.compact 2 []) []

theorem reachable_pairCompacted : pair.system.Reachable pairCompacted :=
  (reachable_pairProposed.steps steps_pairDone).step
    (.compact pairDone "b" 2 [] (by decide) (by decide +kernel))

/-- **A duplicate append is refused by a member that has compacted past it**, though every entry of
it is committed there. -/
theorem compacted_probe_rejected : pair.system.Reachable pairCompacted ∧
    proposalAppend ∈ pairCompacted.net ∧
    (pairCompacted.node "b").engine.currentTerm ≤ proposalRequest.term ∧
    proposalRequest.prevLogIndex ≤ (pairCompacted.node "b").engine.commitIndex ∧
    (pairCompacted.node "b").sent (.step "a" proposalAppend.msg) [] =
      [{ src := "b"
         dst := "a"
         msg := .appendEntriesResp { term := 1, success := false, matchIndex := 0 }
         folded := [] }] :=
  ⟨reachable_pairCompacted, by decide +kernel, by decide +kernel, by decide +kernel,
    by decide +kernel⟩

end Group

end FiduciaBrain
