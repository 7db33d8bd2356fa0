import FiduciaBrain.Group.Replicate

/-!
# The group refines the protocol

`Related` puts the members, the network and the history variables together; every action of the
group is answered by steps of the protocol (`simulation`). What the group's members hold, fold into
snapshots and hand out can then be read off an abstract state (`exists_ledger`, `run_ledger`).
-/

namespace FiduciaBrain.Group

open Infra TermLog Raft

variable (G : Group)

/-! ## The relation -/

/-- A member between two actions: drained, durable, and its snapshot's history on the books. -/
structure NodeOk (a : Ledger) (n : NodeId) (node : Node) : Prop where
  mirrors : G.Mirrors a n node.engine.core node.engine.out
  wellFormed : node.engine.WellFormed
  durable : node.durable = node.engine.persistedSnapshot
  folded : node.folded = (a.log n).take node.engine.baseIndex

/-- A message in the network comes from a member, with the history of its snapshot. -/
structure PacketOk (a : Ledger) (p : Packet) : Prop where
  src : p.src ∈ G.members
  backed : G.Backed a p.src p.dst p.msg
  folded : ∀ req, p.msg = .installSnapshot req →
    p.folded = (a.llog req.term).take req.lastIncludedIndex

/-- Command `c` was handed out for index `i`: some committed log has it there. -/
def HandedOk (a : Ledger) (i : Nat) (c : Command) : Prop :=
  ∃ t p e, Committed G.quorums a t (p ++ [e]) ∧ (p ++ [e]).length = i ∧ e.command = some c

structure Related (s : State) (a : Ledger) : Prop where
  node : ∀ n ∈ G.members, G.NodeOk a n (s.node n)
  net : ∀ p ∈ s.net, G.PacketOk a p
  handed : ∀ n ∈ G.members, ∀ i c, (i, c) ∈ (s.node n).handed → G.HandedOk a i c

variable {G}

theorem HandedOk.mono {a b : Ledger} (hg : Grows a b) {i : Nat} {c : Command}
    (h : G.HandedOk a i c) : G.HandedOk b i c := by
  obtain ⟨t, p, e, hc, hrest⟩ := h
  exact ⟨t, p, e, hg.committed hc (Nat.le_refl _), hrest⟩

theorem PacketOk.mono {a b : Ledger} (hg : Grows a b) {p : Packet} (h : G.PacketOk a p) :
    G.PacketOk b p where
  src := h.src
  backed := h.backed.mono hg
  folded := fun req heq => by
    have hb := h.backed
    rw [heq] at hb
    rw [h.folded req heq, take_eq_of_le (hg.llog req.term) hb.2.1]

/-- A member that does not act. -/
theorem NodeOk.frame {a b : Ledger} {n m : NodeId} {node : Node} (h : G.NodeOk a m node)
    (hm : m ≠ n) (ho : Only n a b) : G.NodeOk b m node where
  mirrors := h.mirrors.frame hm ho
  wellFormed := h.wellFormed
  durable := h.durable
  folded := by rw [ho.log m hm]; exact h.folded

/-- What is committed anywhere, as far as this member knows of commits, is in its log. -/
theorem Mirrors.take_eq_of_committed {a : Ledger} {n : NodeId} {r : Raft} {out : List Addressed}
    (ha : Inv G.quorums a) (hw : r.WellFormed) (h : G.Mirrors a n r.core out) {t : Nat}
    {p : List LogEntry} (hp : Committed G.quorums a t p) (hle : p.length ≤ r.commitIndex) :
    (a.log n).take p.length = p := by
  have hpre := ha.committed_le hp (h.committed ha (Nat.le_refl _))
    (by rw [List.length_take_of_le (h.commit_le_length hw)]; exact hle)
  exact (List.prefix_iff_eq_take.mp (hpre.trans (List.take_prefix _ _))).symm

/-! ## One action -/

section Act

variable {a b : Ledger} {n : NodeId} {node : Node} {i : Input} {carried : List LogEntry}

/-- What the snapshot stands for is what the log started with. -/
theorem folded_act (ha : G.protocol.Reachable a) (hab : G.protocol.Steps a b)
    (h : G.NodeOk a n node) (hadm : node.engine.Admissible i)
    (hb : G.Mirrors b n (node.engine.run i).core (node.engine.run i).out)
    (hcar : ∀ l req, i = .step l (.installSnapshot req) →
      carried = (b.llog req.term).take req.lastIncludedIndex ∧
      req.lastIncludedIndex ≤ (b.llog req.term).length ∧
      Committed G.quorums b req.term ((b.llog req.term).take req.lastIncludedIndex)) :
    node.foldedAfter i carried = (b.log n).take (node.engine.run i).baseIndex := by
  have hw := h.wellFormed
  have hwr := hw.run hadm
  have hinv := inv_of_reachable (ha.steps hab)
  have hprog := progress_run hw hadm
  have hlen := h.mirrors.commit_le_length hw
  -- the committed part of the log is where it was
  have hsame : ∀ m, m ≤ node.engine.commitIndex → (a.log n).take m = (b.log n).take m := by
    intro m hm
    have hcom := (grows_of_steps ha hab).committed
      (h.mirrors.committed (inv_of_reachable ha) hm) (Nat.le_refl _)
    have hl : ((a.log n).take m).length = m := List.length_take_of_le (hm.trans hlen)
    rw [← hb.take_eq_of_committed hinv hwr hcom (by rw [hl]; exact hm.trans hprog.commit_le), hl]
  unfold Node.foldedAfter
  split
  · next heq =>
    rw [h.folded, heq]
    exact hsame _ hw.base_le_commit
  · next hne =>
    obtain heq | ⟨index, _, rfl, heq⟩ | ⟨l, req, rfl, heq⟩ :=
      rebased_run hw.base_le_commit hw.commit_le_last i
    · exact absurd heq hne
    · have hhist : node.history = a.log n := by
        rw [Node.history, h.folded]
        exact h.mirrors.holds.append_live
      simp only [hhist, heq]
      exact hsame _ (Nat.le_trans hadm hw.applied_le)
    · obtain ⟨hc, hidx, hcom⟩ := hcar l req rfl
      have hl : ((b.llog req.term).take req.lastIncludedIndex).length = req.lastIncludedIndex :=
        List.length_take_of_le hidx
      have := hb.take_eq_of_committed hinv hwr hcom
        (by rw [hl, ← heq]; exact hwr.base_le_commit)
      rw [hl] at this
      rw [heq, this]
      exact hc

/-- What a drain hands out is committed. -/
theorem handed_ready (ha : Inv G.quorums a) {r : Raft} (hw : r.WellFormed) {out : List Addressed}
    (h : G.Mirrors a n r.core out) {j : Nat} {c : Command} (hj : (j, c) ∈ r.newlyCommitted) :
    G.HandedOk a j c := by
  have hholds : r.Holds (a.log n) := h.holds
  have hlast : r.lastIndex = r.baseIndex + r.log.length := rfl
  have hcl := hw.commit_le_last
  have hba : r.baseIndex ≤ r.lastApplied := hw.base_le
  obtain ⟨index, hrange, hat⟩ := List.mem_filterMap.mp hj
  have hrange' := List.mem_range'_1.mp hrange
  rw [logSlot_eq_some (by omega) (by omega)] at hat
  simp only [Option.bind_some, Option.bind_eq_some_iff, Option.map_eq_some_iff, Prod.mk.injEq]
    at hat
  obtain ⟨e, he, c', hc', rfl, rfl⟩ := hat
  obtain ⟨hk, he⟩ := List.getElem?_eq_some_iff.mp he
  have hlen : (a.log n).length = r.lastIndex := h.length
  have hin : index - 1 < (a.log n).length := by omega
  have hget : (a.log n)[index - 1] = e := by
    rw [← he]
    simp only [← hholds.live, List.getElem_drop]
    congr 1
    omega
  have htake : (a.log n).take index = (a.log n).take (index - 1) ++ [e] := by
    obtain ⟨k, rfl⟩ : ∃ k, index = k + 1 := ⟨index - 1, by omega⟩
    rw [List.take_succ_eq_append_getElem (by omega)]
    simp only [Nat.add_sub_cancel] at hget ⊢
    rw [hget]
  refine ⟨r.currentTerm, (a.log n).take (index - 1), e, ?_, ?_, hc'⟩
  · rw [← htake]
    exact h.committed ha (by omega)
  · rw [← htake, List.length_take_of_le (by omega)]

/-- A drained engine mirrors what the engine did. -/
theorem Mirrors.ready {r : Raft} (h : G.Mirrors a n r.core r.out) :
    G.Mirrors a n r.ready.2.core r.ready.2.out :=
  { h with
    backed := fun _ hm => nomatch hm
    outBase := fun _ hm => nomatch hm }

end Act

/-- **An action of a member is answered by the protocol.** -/
theorem related_act {s : State} {a : Ledger} {n : NodeId} {i : Input} {carried : List LogEntry}
    (ha : G.protocol.Reachable a) (h : G.Related s a) (hn : n ∈ G.members)
    (hadm : (s.node n).engine.Admissible i)
    (hi : ∀ src msg, i = .step src msg → src ∈ G.members ∧ G.Backed a src n msg)
    (hcar : ∀ l req, i = .step l (.installSnapshot req) →
      carried = (a.llog req.term).take req.lastIncludedIndex) :
    ∃ b, G.protocol.Steps a b ∧ G.Related (s.act n i carried) b := by
  have hnode := h.node n hn
  obtain ⟨b, hab, ho, hb⟩ := run_answers ha hn hnode.wellFormed hadm hnode.mirrors hi
  have hinv := inv_of_reachable (ha.steps hab)
  have hwr := hnode.wellFormed.run hadm
  have hfold : (s.node n).foldedAfter i carried =
      (b.log n).take ((s.node n).engine.run i).baseIndex := by
    refine folded_act ha hab hnode hadm hb fun l req heq => ?_
    have hbk := (hi _ _ heq).2
    have hidx := hbk.2.1
    refine ⟨?_, (hbk.mono ho.grows).2.1, (hbk.mono ho.grows).2.2.2⟩
    rw [hcar l req heq, take_eq_of_le (ho.grows.llog req.term) hidx]
  refine ⟨b, hab, ?_, ?_, ?_⟩
  · intro m hm
    by_cases hmn : m = n
    · subst hmn
      rw [State.act_node_self]
      refine ⟨hb.ready, hwr.ready, ?_, hfold⟩
      show (Option.getD _ _ : Persisted) = _
      rw [hnode.durable]
      exact persist_ready hnode.wellFormed i
    · rw [State.act_node_of_ne hmn]
      exact (h.node m hm).frame hmn ho
  · intro p hp
    rcases List.mem_append.mp hp with hp | hp
    · exact (h.net p hp).mono ho.grows
    · obtain ⟨m, hm, rfl⟩ := List.mem_map.mp hp
      have hid : (s.node n).engine.id = n := hnode.mirrors.id
      have hbk : G.Backed b n m.recipient m.msg := hb.backed m hm
      refine ⟨hid.symm ▸ hn, by rw [hid]; exact hbk, fun req heq => ?_⟩
      have heq' : m.msg = .installSnapshot req := heq
      have hle : req.lastIncludedIndex ≤ ((s.node n).engine.run i).baseIndex :=
        hb.outBase m hm req heq'
      rw [heq'] at hbk
      obtain ⟨_, hidx, _, hcom⟩ := hbk
      have hl : ((b.llog req.term).take req.lastIncludedIndex).length = req.lastIncludedIndex :=
        List.length_take_of_le hidx
      have hlog := hb.take_eq_of_committed hinv hwr hcom
        (by rw [hl]; exact hle.trans hwr.base_le_commit)
      rw [hl] at hlog
      simp only [heq', hfold, List.take_take, Nat.min_eq_left hle, hlog]
  · intro m hm j c hj
    by_cases hmn : m = n
    · subst hmn
      rw [State.act_node_self] at hj
      rcases List.mem_append.mp hj with hj | hj
      · exact (h.handed m hm j c hj).mono ho.grows
      · exact handed_ready hinv hwr hb hj
    · rw [State.act_node_of_ne hmn] at hj
      exact (h.handed m hm j c hj).mono ho.grows

/-- Rebuilding a member from its durable state is a step the protocol does not see. -/
theorem related_restart {s : State} {a : Ledger} {n : NodeId} {seed : UInt64}
    (h : G.Related s a) (hn : n ∈ G.members) : G.Related (s.restart n seed) a := by
  have hnode := h.node n hn
  refine ⟨fun m hm => ?_, h.net, fun m hm j c hj => ?_⟩
  · by_cases hmn : m = n
    · subst hmn
      rw [State.restart_node_self]
      have hd := hnode.durable
      refine ⟨?_, ?_, ?_, ?_⟩
      · simp only [Node.restart, hd]
        exact { hnode.mirrors with
          candidate := fun hr => nomatch hr
          leader := fun hr => nomatch hr
          backed := fun _ hm => nomatch hm
          outBase := fun _ hm => nomatch hm }
      · simp only [Node.restart, hd]
        exact wellFormed_new hnode.wellFormed.valid
      · simp only [Node.restart, hd]
        rfl
      · simp only [Node.restart, hd]
        exact hnode.folded
    · rw [State.restart_node_of_ne hmn]
      exact h.node m hm
  · by_cases hmn : m = n
    · subst hmn
      rw [State.restart_node_self] at hj
      exact h.handed m hm j c hj
    · rw [State.restart_node_of_ne hmn] at hj
      exact h.handed m hm j c hj

/-! ## Runs -/

theorem related_init {s : State} (h : G.system.init s) : G.Related s State.start := by
  obtain ⟨seed, rfl⟩ := h
  refine ⟨fun n hn => ?_, fun _ hp => (nomatch hp), fun _ _ _ _ hj => (nomatch hj)⟩
  have hvalid : Persisted.default.Valid :=
    ⟨fun h => absurd rfl h, Iff.rfl, ⟨fun h => absurd rfl h, fun h => absurd h (Nat.lt_irrefl 0)⟩,
      Nat.le_refl _, Nat.le_refl _, trivial, Nat.le_refl _⟩
  refine ⟨?_, wellFormed_new hvalid, rfl, rfl⟩
  exact {
    id := rfl
    peers := rfl
    term := rfl
    vote := rfl
    length := rfl
    live := rfl
    base := rfl
    commit := rfl
    candidate := fun hr => nomatch hr
    leader := fun hr => nomatch hr
    backed := fun _ hm => nomatch hm
    outBase := fun _ hm => nomatch hm }

theorem related_step {s s' : State} {a : Ledger} (ha : G.protocol.Reachable a)
    (h : G.Related s a) (hs : G.Step s s') : ∃ b, G.protocol.Steps a b ∧ G.Related s' b := by
  cases hs with
  | tick n hn =>
    exact related_act ha h hn trivial (fun _ _ heq => nomatch heq) (fun _ _ heq => nomatch heq)
  | propose n c hn =>
    exact related_act ha h hn trivial (fun _ _ heq => nomatch heq) (fun _ _ heq => nomatch heq)
  | compact n index snapshot hn hle =>
    exact related_act ha h hn hle (fun _ _ heq => nomatch heq) (fun _ _ heq => nomatch heq)
  | deliver p hp hdst =>
    have hpk := h.net p hp
    refine related_act ha h hdst trivial (fun src msg heq => ?_) (fun l req heq => ?_)
    · obtain ⟨rfl, rfl⟩ := Input.step.inj heq
      exact ⟨hpk.src, hpk.backed⟩
    · exact hpk.folded req (Input.step.inj heq).2
  | crash n seed hn => exact ⟨a, .refl a, related_restart h hn⟩

/-- **The group refines the protocol.** -/
def simulation : Simulation G.system G.protocol where
  rel := G.Related
  init := fun _ h => ⟨State.start, rfl, related_init h⟩
  step := fun _ _ _ ha h hs => related_step ha h hs

/-- A run of the group, seen by the protocol. -/
theorem run_ledger {s s' : State} (hr : G.system.Reachable s) (hs : G.system.Steps s s') :
    ∃ a b, G.protocol.Reachable a ∧ G.protocol.Steps a b ∧ G.Related s a ∧ G.Related s' b := by
  obtain ⟨a, ha, h⟩ := simulation.reachable hr
  obtain ⟨b, hab, hb⟩ := simulation.steps ha h hs
  exact ⟨a, b, ha, hab, h, hb⟩

end FiduciaBrain.Group
