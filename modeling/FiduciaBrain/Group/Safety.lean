import FiduciaBrain.Group.Simulation

/-!
# Safety of the group

* `state_machine_safety`: one command per index, whoever hands it out and whenever, and what is
  committed stays what everybody commits
* `acknowledged_proposal_kept`: a proposal whose index its own term has committed is never lost
* `election_safety`: one leader per term over the whole run
* `log_matching`: logs that meet in a term agree below, snapshots included
-/

namespace FiduciaBrain

open Infra TermLog

namespace Raft

/-- Reading a live entry reads the whole list. -/
theorem Holds.entryAt {r : Raft} {l : List LogEntry} (h : r.Holds l) {i : Nat}
    (hb : r.baseIndex < i) : r.entryAt i = l[i - 1]? := by
  have hlen := h.length
  by_cases hi : i ≤ r.lastIndex
  · rw [Raft.entryAt, logSlot_eq_some hb hi, Option.bind_some, ← h.live, List.getElem?_drop]
    congr 1
    omega
  · rw [Raft.entryAt, logSlot_eq_none (by omega), List.getElem?_eq_none (by omega)]
    rfl

/-- A proposal that was taken: the leader's log, one entry longer. -/
theorem propose_ok {r : Raft} {c : Command} {i : Nat} (h : (r.propose c).1 = .ok i) :
    r.role = .leader ∧ i = r.lastIndex + 1 ∧ ∃ m, (r.propose c).2.core =
      { r.core with
        log := r.log ++ [{ term := r.currentTerm, index := i, command := some c }]
        commitIndex := m
        dirty := true } := by
  unfold propose at h ⊢
  split at h
  · cases h
  · next hl =>
    have hi : r.lastIndex + 1 = i := Except.ok.inj h
    rw [if_neg hl]
    refine ⟨by simpa using hl, hi.symm, ?_⟩
    simp only [core_broadcastAppend]
    unfold maybeAdvanceCommit
    split
    · exact ⟨_, by rw [← hi]; rfl⟩
    · exact ⟨r.commitIndex, by rw [← hi]; rfl⟩

end Raft

namespace Group

variable {G : Group}

/-! ## Reading a member off the ledger -/

section Node

variable {a : Ledger} {n : NodeId} {node : Node}

theorem NodeOk.holds (h : G.NodeOk a n node) : node.engine.Holds (a.log n) := h.mirrors.holds

theorem NodeOk.history (h : G.NodeOk a n node) : node.history = a.log n := by
  rw [Node.history, h.folded]
  exact h.holds.append_live

theorem NodeOk.commit_le (h : G.NodeOk a n node) :
    node.engine.commitIndex ≤ (a.log n).length := h.mirrors.commit_le_length h.wellFormed

theorem NodeOk.committed (ha : Inv G.quorums a) (h : G.NodeOk a n node) {i : Nat}
    (hi : i ≤ node.engine.commitIndex) :
    Committed G.quorums a node.engine.currentTerm ((a.log n).take i) := h.mirrors.committed ha hi

end Node

/-- Commands handed out for one index agree. -/
theorem HandedOk.unique {a : Ledger} (ha : Inv G.quorums a) {i : Nat} {c d : Command}
    (hc : G.HandedOk a i c) (hd : G.HandedOk a i d) : c = d := by
  obtain ⟨t, p, e, hp, hpi, hec⟩ := hc
  obtain ⟨u, q, f, hq, hqi, hfd⟩ := hd
  have heq : p ++ [e] = q ++ [f] :=
    (ha.committed_le hp hq (hpi.trans hqi.symm).le).eq_of_length (hpi.trans hqi.symm)
  have hef : e = f := (List.append_singleton_inj.mp heq).2
  rw [hef, hfd] at hec
  exact (Option.some.inj hec).symm

/-- A handed out command is in the log of everybody who has committed its index. -/
theorem HandedOk.history {a : Ledger} (ha : Inv G.quorums a) {i : Nat} {c : Command}
    (hc : G.HandedOk a i c) {n : NodeId} {node : Node} (h : G.NodeOk a n node)
    (hi : i ≤ node.engine.commitIndex) :
    ∃ e, node.history[i - 1]? = some e ∧ e.command = some c := by
  obtain ⟨t, p, e, hp, rfl, hec⟩ := hc
  refine ⟨e, ?_, hec⟩
  have hpre := ha.committed_le hp (h.committed ha (Nat.le_refl _))
    (by rw [List.length_take_of_le h.commit_le]; exact hi)
  obtain ⟨s, hs⟩ := hpre.trans (List.take_prefix _ _)
  rw [h.history, ← hs]
  simp

/-! ## State machine safety -/

/-- **State machine safety.** All that members ever hand out for an index is one command, what a
member has committed is what every member commits, snapshots included, and what was handed out is
part of it. -/
theorem state_machine_safety {s s' : State} (hr : G.system.Reachable s)
    (hs : G.system.Steps s s') :
    (∀ m ∈ G.members, ∀ n ∈ G.members, ∀ i c d, (i, c) ∈ (s'.node m).handed →
      (i, d) ∈ (s'.node n).handed → c = d) ∧
    (∀ m ∈ G.members, ∀ n ∈ G.members, ∀ i, i ≤ (s.node m).engine.commitIndex →
      i ≤ (s'.node n).engine.commitIndex →
      i ≤ (s.node m).history.length ∧ (s.node m).history.take i = (s'.node n).history.take i) ∧
    (∀ m ∈ G.members, ∀ n ∈ G.members, ∀ i c, (i, c) ∈ (s'.node m).handed →
      i ≤ (s'.node n).engine.commitIndex →
      ∃ e, (s'.node n).history[i - 1]? = some e ∧ e.command = some c) := by
  obtain ⟨a, b, ha, hab, hsa, hsb⟩ := run_ledger hr hs
  have hinv := inv_of_reachable (ha.steps hab)
  refine ⟨fun m hm n hn i c d hc hd => ?_, fun m hm n hn i hi hi' => ?_,
    fun m hm n hn i c hc hi => ?_⟩
  · exact (hsb.handed m hm i c hc).unique hinv (hsb.handed n hn i d hd)
  · have hnm := hsa.node m hm
    have hnn := hsb.node n hn
    have hp := (grows_of_steps ha hab).committed (hnm.committed (inv_of_reachable ha) hi)
      (Nat.le_refl _)
    have hl : ((a.log m).take i).length = i := List.length_take_of_le (hi.trans hnm.commit_le)
    have heq := hnn.mirrors.take_eq_of_committed hinv hnn.wellFormed hp (by rw [hl]; exact hi')
    rw [hl] at heq
    rw [hnm.history, hnn.history, heq]
    exact ⟨hi.trans hnm.commit_le, rfl⟩
  · exact (hsb.handed m hm i c hc).history hinv (hsb.node n hn) hi

/-- Both members of the pair hand out the one proposal. -/
theorem state_machine_safety_pair : (2, forgetNode9) ∈ (pairDone.node "a").handed ∧
    ∀ d, (2, d) ∈ (pairDone.node "b").handed → forgetNode9 = d :=
  ⟨by decide +kernel, fun d => (state_machine_safety reachable_pairProposed steps_pairDone).1
    "a" (by decide) "b" (by decide) 2 forgetNode9 d (by decide +kernel)⟩

/-! ## Election safety -/

/-- **Election safety.** Whoever leads a term at two moments of a run is one member. -/
theorem election_safety {s s' : State} (hr : G.system.Reachable s) (hs : G.system.Steps s s')
    {m n : NodeId} (hm : m ∈ G.members) (hn : n ∈ G.members)
    (hml : (s.node m).engine.role = .leader) (hnl : (s'.node n).engine.role = .leader)
    (hterm : (s.node m).engine.currentTerm = (s'.node n).engine.currentTerm) : m = n := by
  obtain ⟨a, b, ha, hab, hsa, hsb⟩ := run_ledger hr hs
  have hlm : a.leader (s.node m).engine.currentTerm = some m :=
    ((hsa.node m hm).mirrors.leader hml).1
  have hln : b.leader (s'.node n).engine.currentTerm = some n :=
    ((hsb.node n hn).mirrors.leader hnl).1
  rw [← hterm] at hln
  exact (grows_of_steps ha hab).leader_unique hlm hln

theorem election_safety_pair : (pairProposed.node "a").engine.role = .leader ∧
    ∀ n ∈ pair.members, (pairDone.node n).engine.role = .leader →
      1 = (pairDone.node n).engine.currentTerm → "a" = n :=
  ⟨by decide +kernel, fun _ hn hl ht => election_safety reachable_pairProposed steps_pairDone
    (m := "a") (by decide) hn (by decide +kernel) hl ht⟩

/-! ## Log matching -/

/-- **Log matching under compaction.** Live entries of one term at one index agree, and so do all
live entries below them; and a log that meets another one's snapshot in its last term starts with
the history folded into that snapshot. -/
theorem log_matching {s : State} (hr : G.system.Reachable s) {m n : NodeId} (hm : m ∈ G.members)
    (hn : n ∈ G.members) :
    (∀ i e f, (s.node m).engine.entryAt i = some e → (s.node n).engine.entryAt i = some f →
      e.term = f.term → ∀ j, j ≤ i → (s.node m).engine.baseIndex < j →
      (s.node n).engine.baseIndex < j →
      ∃ x, (s.node m).engine.entryAt j = some x ∧ (s.node n).engine.entryAt j = some x) ∧
    ((s.node n).engine.baseIndex ≤ (s.node m).engine.baseIndex →
      (s.node m).engine.baseIndex ≤ (s.node n).engine.lastIndex →
      (s.node n).engine.termAt (s.node m).engine.baseIndex = (s.node m).engine.baseTerm →
      (s.node n).history.take (s.node m).engine.baseIndex = (s.node m).folded) := by
  obtain ⟨a, ha, hsa⟩ := simulation.reachable hr
  have hinv := inv_of_reachable ha
  have hnm := hsa.node m hm
  have hnn := hsa.node n hn
  refine ⟨fun i e f he hf hterm j hj hbm hbn => ?_, fun hb hlast hterm => ?_⟩
  · rw [hnm.holds.entryAt (Nat.lt_of_lt_of_le hbm hj)] at he
    rw [hnn.holds.entryAt (Nat.lt_of_lt_of_le hbn hj)] at hf
    obtain ⟨him, hem⟩ := List.getElem?_eq_some_iff.mp he
    obtain ⟨hin, hen⟩ := List.getElem?_eq_some_iff.mp hf
    have hlast : ∀ {l : List LogEntry} (h : i - 1 < l.length),
        lastTerm (l.take i) = (l.get ⟨i - 1, h⟩).term := by
      intro l h
      obtain ⟨k, rfl⟩ : ∃ k, i = k + 1 := ⟨i - 1, by omega⟩
      rw [List.take_succ_eq_append_getElem (show k < l.length from h), lastTerm_append_singleton]
      rfl
    have htake : (a.log m).take i = (a.log n).take i := by
      refine (hinv.log_coh m).take_eq (hinv.log_coh n) (by omega) (by omega) ?_
      rw [hlast him, hlast hin, List.get_eq_getElem, List.get_eq_getElem, hem, hen, hterm]
    have hj' : j - 1 < i := by omega
    have hjm : j - 1 < (a.log m).length := by omega
    refine ⟨(a.log m)[j - 1], ?_, ?_⟩
    · rw [hnm.holds.entryAt hbm, List.getElem?_eq_getElem hjm]
    · rw [hnn.holds.entryAt hbn, ← List.getElem?_take_of_lt hj', ← htake,
        List.getElem?_take_of_lt hj', List.getElem?_eq_getElem hjm]
  · rw [hnn.holds.termAt hb (by rw [hnn.holds.length]; exact hlast), ← hnm.holds.base] at hterm
    rw [hnn.history, hnm.folded]
    exact (hinv.log_coh n).take_eq (hinv.log_coh m) (by rw [hnn.holds.length]; exact hlast)
      hnm.holds.base_le hterm

theorem log_matching_pair : ∃ x, (pairDone.node "a").engine.entryAt 1 = some x ∧
    (pairDone.node "b").engine.entryAt 1 = some x :=
  (log_matching (reachable_pairProposed.steps steps_pairDone)
    (m := "a") (n := "b") (by decide) (by decide)).1 2
    { term := 1, index := 2, command := some forgetNode9 }
    { term := 1, index := 2, command := some forgetNode9 } (by decide +kernel) (by decide +kernel)
    rfl 1 (by decide) (by decide +kernel) (by decide +kernel)

/-! ## Acknowledged proposals -/

/-- What the leader wrote is chosen once its own term's member has committed that far. -/
theorem chosen_of_commit {b : Ledger} (hb : Inv G.quorums b) {n : NodeId} {node : Node}
    (h : G.NodeOk b n node) {p : List LogEntry} {e : LogEntry}
    (hterm : e.term = node.engine.currentTerm) (hp : p ++ [e] <+: b.llog e.term)
    (hack : (p ++ [e]).length ≤ b.acked n e.term)
    (hcommit : (p ++ [e]).length ≤ node.engine.commitIndex) :
    ∃ q, Chosen G.quorums b e.term q ∧ p ++ [e] <+: q := by
  have hat : b.term n = e.term := h.mirrors.term.trans hterm.symm
  have hin : p ++ [e] <+: b.log n := by
    have hl := hb.acked_log n
    rw [hat] at hl
    refine List.IsPrefix.trans ?_ hl
    rw [List.prefix_take_iff]
    exact ⟨hp, hack⟩
  have hcom := h.committed hb hcommit
  rw [← List.prefix_iff_eq_take.mp hin, ← hterm] at hcom
  rcases hcom with hnil | ⟨t, q, ht, hq, hpq⟩
  · simp at hnil
  · -- the choice was made in the entry's own term: no earlier leader log holds it
    have hle := hb.llog_le t e ((hpq.trans hq.1).subset (by simp))
    have : t = e.term := Nat.le_antisymm ht hle
    exact ⟨q, this ▸ hq, hpq⟩

section Acknowledged

variable {s₀ s₂ : State} {n : NodeId} {c : Command} {i : Nat} {a b : Ledger}

/-- The entry that proposing `c` wrote. -/
def proposed (s₀ : State) (n : NodeId) (c : Command) (i : Nat) : LogEntry :=
  { term := (s₀.node n).engine.currentTerm, index := i, command := some c }

/-- A proposal that passed the test of `await_commit` is chosen in the term it was made in. -/
theorem proposed_chosen (ha : G.protocol.Reachable a) (hab : G.protocol.Steps a b)
    (hn : n ∈ G.members) (hok : ((s₀.node n).engine.propose c).1 = .ok i)
    (hsa : G.Related (s₀.act n (.propose c) []) a) (hsb : G.Related s₂ b)
    (hcommit : i ≤ (s₂.node n).engine.commitIndex)
    (hterm : (s₂.node n).engine.currentTerm = (s₀.node n).engine.currentTerm) :
    ∃ p q, (p ++ [proposed s₀ n c i]).length = i ∧
      Chosen G.quorums b (s₀.node n).engine.currentTerm q ∧ p ++ [proposed s₀ n c i] <+: q := by
  obtain ⟨hrole, hi, m, hcore⟩ := Raft.propose_ok hok
  have hinv := inv_of_reachable ha
  have hg := grows_of_steps ha hab
  -- the leader, right after it wrote the entry
  have hna := (hsa.node n hn).mirrors
  rw [State.act_node_self] at hna
  have hengine : ((s₀.node n).act (.propose c) []).engine.core =
      { ((s₀.node n).engine.propose c).2.core with
        lastApplied := max ((s₀.node n).engine.propose c).2.lastApplied
          ((s₀.node n).engine.propose c).2.commitIndex
        pendingRestore := false
        dirty := false } := rfl
  rw [hengine, hcore] at hna
  have hlead : a.leader (s₀.node n).engine.currentTerm = some n := (hna.leader hrole).1
  have hat : a.term n = (s₀.node n).engine.currentTerm := hna.term
  have hllog : a.log n = a.llog (s₀.node n).engine.currentTerm := by
    rw [← hat]
    exact hinv.leader_log n (by rw [hat]; exact hlead)
  have hlen : (a.log n).length = i := by
    rw [hi]
    refine hna.length.trans ?_
    simp only [Raft.Core.lastIndex, List.length_append, List.length_singleton]
    exact (Nat.add_assoc _ _ _).symm
  have hsplit : (a.log n).take (s₀.node n).engine.baseIndex ++ (s₀.node n).engine.log ++
      [proposed s₀ n c i] = a.log n := by
    rw [List.append_assoc, show (s₀.node n).engine.log ++ [proposed s₀ n c i] =
      (a.log n).drop (s₀.node n).engine.baseIndex from hna.live.symm, List.take_append_drop]
  -- and when its term has committed that far
  have hack : i ≤ b.acked n (s₀.node n).engine.currentTerm := by
    rw [← hlen, hllog, ← hinv.leader_acked _ _ hlead]
    exact hg.acked_le _ _
  obtain ⟨q, hq⟩ := chosen_of_commit (inv_of_reachable (ha.steps hab)) (hsb.node n hn)
    (p := (a.log n).take (s₀.node n).engine.baseIndex ++ (s₀.node n).engine.log)
    (e := proposed s₀ n c i) hterm.symm (by rw [hsplit, hllog]; exact hg.llog _)
    (by rw [hsplit, hlen]; exact hack) (by rw [hsplit, hlen]; exact hcommit)
  exact ⟨_, q, by rw [hsplit, hlen], hq⟩

/-- Every leader of a later term, before or after the choice, holds what was chosen. -/
theorem chosen_in_history {s : State} (ha : G.protocol.Reachable a) (hb : G.protocol.Reachable b)
    (hab : G.protocol.Steps a b ∨ G.protocol.Steps b a) (hs : G.Related s a) {t : Nat}
    {p q : List LogEntry} {e : LogEntry} (hq : Chosen G.quorums b t q) (hpq : p ++ [e] <+: q)
    {m : NodeId} (hm : m ∈ G.members) (hl : (s.node m).engine.role = .leader)
    (hlt : t < (s.node m).engine.currentTerm) : (s.node m).history[p.length]? = some e := by
  have hnode := hs.node m hm
  have hlead : a.leader (s.node m).engine.currentTerm = some m := (hnode.mirrors.leader hl).1
  have hin := chosen_prefix_leader ha hb hab hq hlt (by rw [hlead]; simp)
  rw [hnode.mirrors.llog_eq (inv_of_reachable ha) hl] at hin
  obtain ⟨r, hr⟩ := hpq.trans hin
  rw [hnode.history, ← hr]
  simp

/-- **An acknowledged proposal is never lost.** After `s₀` the leader `n` takes the proposal, and at
`s₂` the test of `await_commit` succeeds. Whatever was or will be handed out for the index is the
command, and every leader of a later term, at any moment `s` of the run, holds the entry. -/
theorem acknowledged_proposal_kept (hr : G.system.Reachable s₀) (hn : n ∈ G.members)
    (hok : ((s₀.node n).engine.propose c).1 = .ok i)
    (hrun : G.system.Steps (s₀.act n (.propose c) []) s₂)
    (hcommit : i ≤ (s₂.node n).engine.commitIndex)
    (hterm : (s₂.node n).engine.currentTerm = (s₀.node n).engine.currentTerm) :
    (∀ s, G.system.Steps s₂ s → ∀ m ∈ G.members, ∀ d, (i, d) ∈ (s.node m).handed → d = c) ∧
    (∀ s, (G.system.Reachable s ∧ G.system.Steps s s₀) ∨
        (G.system.Steps (s₀.act n (.propose c) []) s ∧ G.system.Steps s s₂) ∨
        G.system.Steps s₂ s →
      ∀ m ∈ G.members, (s.node m).engine.role = .leader →
      (s₀.node n).engine.currentTerm < (s.node m).engine.currentTerm →
      (s.node m).history[i - 1]? = some (proposed s₀ n c i)) := by
  have hstep : G.system.step s₀ (s₀.act n (.propose c) []) := Step.propose s₀ n c hn
  refine ⟨fun s hs m hm d hd => ?_, fun s hs m hm hl hlt => ?_⟩
  · obtain ⟨a, b, ha, hab, hsa, hsb⟩ := run_ledger (hr.step hstep) hrun
    obtain ⟨x, hbx, hsx⟩ := simulation.steps (ha.steps hab) hsb hs
    obtain ⟨p, q, hi, hq, hpq⟩ := proposed_chosen ha hab hn hok hsa hsb hcommit hterm
    have hx := inv_of_reachable ((ha.steps hab).steps hbx)
    have hq' := (grows_of_steps (ha.steps hab) hbx).chosen hq
    exact (hsx.handed m hm i d hd).unique hx
      ⟨_, p, _, Or.inr ⟨_, q, Nat.le_refl _, hq', hpq⟩, hi, rfl⟩
  · have key : ∀ {a b x : Ledger}, G.protocol.Reachable a → G.protocol.Steps a b →
        G.Related (s₀.act n (.propose c) []) a → G.Related s₂ b → G.Related s x →
        G.protocol.Reachable x → (G.protocol.Steps x b ∨ G.protocol.Steps b x) →
        (s.node m).history[i - 1]? = some (proposed s₀ n c i) := by
      intro a b x ha hab hsa hsb hsx hx hxb
      obtain ⟨p, q, hi, hq, hpq⟩ := proposed_chosen ha hab hn hok hsa hsb hcommit hterm
      have hlen : i - 1 = p.length := by
        rw [← hi, List.length_append]
        rfl
      rw [hlen]
      exact chosen_in_history hx (ha.steps hab) hxb hsx hq hpq hm hl hlt
    rcases hs with ⟨hsr, hs⟩ | ⟨hs, hs'⟩ | hs
    · obtain ⟨x, a, hx, hxa, hsx, hsa⟩ := run_ledger hsr (hs.tail hstep)
      obtain ⟨b, hab, hsb⟩ := simulation.steps (hx.steps hxa) hsa hrun
      exact key (hx.steps hxa) hab hsa hsb hsx hx (Or.inl (hxa.trans hab))
    · obtain ⟨a, x, ha, hax, hsa, hsx⟩ := run_ledger (hr.step hstep) hs
      obtain ⟨b, hxb, hsb⟩ := simulation.steps (ha.steps hax) hsx hs'
      exact key ha (hax.trans hxb) hsa hsb hsx (ha.steps hax) (Or.inl hxb)
    · obtain ⟨a, b, ha, hab, hsa, hsb⟩ := run_ledger (hr.step hstep) hrun
      obtain ⟨x, hbx, hsx⟩ := simulation.steps (ha.steps hab) hsb hs
      exact key ha hab hsa hsb hsx ((ha.steps hab).steps hbx) (Or.inr hbx)

/-- At the leader's second acknowledgement its proposal passes the test. -/
theorem acknowledged_proposal_kept_pair : (2, forgetNode9) ∈ (pairDone.node "b").handed ∧
    ∀ d, (2, d) ∈ (pairDone.node "b").handed → d = forgetNode9 :=
  ⟨by decide +kernel, (acknowledged_proposal_kept (i := 2) reachable_pairElected (n := "a")
    (by decide) (by decide +kernel) (pairProposed_eq ▸ steps_pairDone) (by decide +kernel)
    (by decide +kernel)).1 _ (.refl _) "b" (by decide)⟩

end Acknowledged

end Group

end FiduciaBrain
