import FiduciaBrain.Raft.Handlers

/-!
# Well-formed engine states

`WellFormed` is what the store demands of a durable state, said of the engine, with the order of
its indices. Every move keeps it, whatever message is behind the move (`Move.wellFormed`).
-/

namespace FiduciaBrain

/-- A durable state a member can be rebuilt from. -/
structure Persisted.Valid (p : Persisted) : Prop where
  vote : p.votedFor ≠ none → p.currentTerm ≠ 0
  base : p.baseIndex = 0 ↔ p.baseTerm = 0
  snapshot : p.snapshot ≠ none ↔ 0 < p.baseIndex
  baseTerm_le : p.baseTerm ≤ p.currentTerm
  base_le : p.baseIndex ≤ p.commitIndex
  log : LogValid p.currentTerm p.baseIndex p.baseTerm p.log
  commit_le : p.commitIndex ≤ p.baseIndex + p.log.length

namespace Raft

def Core.lastIndex (c : Core) : Nat := c.baseIndex + c.log.length

/-- The engine's own invariant. -/
structure Core.WellFormed (c : Core) : Prop where
  log : LogValid c.currentTerm c.baseIndex c.baseTerm c.log
  vote : c.votedFor ≠ none → c.currentTerm ≠ 0
  base : c.baseIndex = 0 ↔ c.baseTerm = 0
  snapshot : c.snapshot ≠ none ↔ 0 < c.baseIndex
  baseTerm_le : c.baseTerm ≤ c.currentTerm
  base_le : c.baseIndex ≤ c.lastApplied
  applied_le : c.lastApplied ≤ c.commitIndex
  commit_le : c.commitIndex ≤ c.lastIndex
  /-- Only a member of a real term runs or leads. -/
  term : c.role = .candidate ∨ c.role = .leader → c.currentTerm ≠ 0

def WellFormed (r : Raft) : Prop := r.core.WellFormed

namespace WellFormed

variable {r : Raft}

theorem log_valid (h : r.WellFormed) : LogValid r.currentTerm r.baseIndex r.baseTerm r.log := h.log

theorem baseTerm_zero (h : r.WellFormed) (hb : r.baseIndex = 0) : r.baseTerm = 0 := h.base.mp hb

theorem base_zero (h : r.WellFormed) (hnone : r.snapshot = none) : r.baseIndex = 0 := by
  by_contra hne
  exact h.snapshot.mpr (Nat.pos_of_ne_zero hne) hnone

theorem base_le_commit (h : r.WellFormed) : r.baseIndex ≤ r.commitIndex :=
  h.base_le.trans h.applied_le

theorem commit_le_last (h : r.WellFormed) : r.commitIndex ≤ r.lastIndex := h.commit_le

theorem follow (h : r.WellFormed) (t : Nat) : (r.core.follow t).WellFormed := by
  rcases Nat.lt_or_ge r.currentTerm t with hlt | hle
  · rw [Core.follow_of_lt hlt]
    exact { h with
      log := h.log.mono hlt.le
      vote := fun hv => absurd rfl hv
      baseTerm_le := h.baseTerm_le.trans hlt.le
      term := fun hr => by rcases hr with hr | hr <;> cases hr }
  · rw [Core.follow_of_le hle]
    exact { h with term := fun hr => by rcases hr with hr | hr <;> cases hr }

/-- An entry of a current, non-zero term goes behind any log. -/
theorem log_append (h : r.WellFormed) (ht : r.currentTerm ≠ 0) (c : Option Command) :
    LogValid r.currentTerm r.baseIndex r.baseTerm
      (r.log ++ [{ term := r.currentTerm, index := r.lastIndex + 1, command := c }]) :=
  LogValid.append.mpr
    ⟨h.log_valid, rfl, ht, h.log_valid.endTerm_le h.baseTerm_le, Nat.le_refl _, trivial⟩

/-- The term in front of the first entry the loop found missing. -/
theorem endTerm_take {prevLogIndex prevLogTerm maxTerm : Nat} {pre post : List LogEntry}
    {e : LogEntry} (hv : LogValid maxTerm prevLogIndex prevLogTerm (pre ++ e :: post))
    (hmatch : 0 < prevLogIndex → r.termAt prevLogIndex = prevLogTerm) (hagree : r.Agrees pre)
    (hbase : r.baseIndex < e.index) (hend : e.index ≤ r.lastIndex + 1) (hw : r.WellFormed) :
    endTerm r.baseTerm (r.log.take (e.index - r.baseIndex - 1)) ≤ e.term := by
  obtain ⟨hpre, hidx, _, hle, _⟩ := LogValid.append.mp hv
  have hlast : r.lastIndex = r.baseIndex + r.log.length := rfl
  have hat : r.termAt (e.index - 1) =
      endTerm r.baseTerm (r.log.take (e.index - r.baseIndex - 1)) := by
    rw [← termAt_eq_endTerm (by omega)]
    congr 1
    omega
  rw [← hat]
  cases hq : pre using List.reverseRecOn with
  | nil =>
    subst hq
    have hprev : prevLogIndex = e.index - 1 := by simpa using hidx ▸ rfl
    rw [endTerm_nil] at hle
    by_cases hpos : 0 < prevLogIndex
    · rw [← hprev, hmatch hpos]
      exact hle
    · -- an append from the very start: there is no snapshot either
      have h0 : r.baseIndex = 0 := by omega
      have : e.index - 1 = r.baseIndex := by omega
      rw [this, termAt_base, hw.baseTerm_zero h0]
      exact Nat.zero_le _
  | append_singleton q x =>
    subst hq
    obtain ⟨_, hx, _⟩ := LogValid.append.mp hpre
    have hxe : x.index = e.index - 1 := by
      rw [hx, hidx]
      simp
      omega
    rw [← hxe, (hagree x (by simp)).2]
    simpa using hle

/-- The log the append loop leaves behind. -/
theorem log_took {g : Raft} {req : AppendEntriesReq} (h : r.WellFormed)
    (hcont : entriesAreContiguous req = true) (hterm : req.term = r.currentTerm)
    (hprev : req.prevLogIndex ≤ r.lastIndex)
    (hmatch : 0 < req.prevLogIndex → r.termAt req.prevLogIndex = req.prevLogTerm)
    (htook : Took r g req.entries) :
    LogValid r.currentTerm r.baseIndex r.baseTerm g.log ∧
      req.prevLogIndex + req.entries.length ≤ r.baseIndex + g.log.length ∧
      r.commitIndex ≤ r.baseIndex + g.log.length := by
  obtain ⟨_, _, hv⟩ := logValid_of_contiguous hcont
  have hcl := h.commit_le_last
  have hlast : r.lastIndex = r.baseIndex + r.log.length := rfl
  rcases htook with ⟨hagree, rfl⟩ | ⟨pre, e, post, heq, hagree, hne, hci, hend, rfl⟩
  · refine ⟨h.log, ?_, hcl⟩
    cases hq : req.entries using List.reverseRecOn with
    | nil => exact hprev
    | append_singleton q x =>
      rw [hq] at hv hagree
      obtain ⟨_, hx, _⟩ := LogValid.append.mp hv
      have := (hagree x (by simp)).1
      simp only [List.length_append, List.length_singleton]
      omega
  · have hbase : r.baseIndex < e.index := Nat.lt_of_le_of_lt h.base_le_commit hci
    rw [heq] at hv
    obtain ⟨_, hidx, hrest⟩ := LogValid.append.mp hv
    have hlen : (r.log.take (e.index - r.baseIndex - 1)).length = e.index - r.baseIndex - 1 := by
      rw [List.length_take]
      omega
    refine ⟨LogValid.append.mpr ⟨h.log.take _, ?_⟩, ?_, ?_⟩
    · have hprev := endTerm_take hv hmatch hagree hbase hend h
      rw [hlen]
      obtain ⟨hnz, _, hmax, hpost⟩ := hrest
      rw [← hidx, hterm] at hpost
      refine ⟨by omega, hnz, hprev, hterm ▸ hmax, ?_⟩
      rwa [show r.baseIndex + (e.index - r.baseIndex - 1) + 1 = e.index from by omega]
    · rw [heq]
      simp only [replaceFrom, List.length_append, List.length_cons, hlen]
      omega
    · simp only [replaceFrom, List.length_append, List.length_cons, hlen]
      omega

/-- The term of a live entry. -/
theorem termAt_live (h : r.WellFormed) {index : Nat} (hbase : r.baseIndex < index)
    (hlast : index ≤ r.lastIndex) : r.termAt index ≠ 0 ∧ r.termAt index ≤ r.currentTerm := by
  have hl : r.lastIndex = r.baseIndex + r.log.length := rfl
  have hk : index - r.baseIndex - 1 < r.log.length := by omega
  have hat := termAt_eq_getElem hk
  rw [show r.baseIndex + (index - r.baseIndex - 1) + 1 = index from by omega] at hat
  rw [hat]
  exact ⟨h.log_valid.term_ne_zero (List.getElem_mem hk), h.log_valid.term_le (List.getElem_mem hk)⟩

/-- The log behind any index of the live log, as compaction leaves it. -/
theorem log_drop (h : r.WellFormed) {index : Nat} (hbase : r.baseIndex < index)
    (hlast : index ≤ r.lastIndex) :
    LogValid r.currentTerm index (r.termAt index) (r.log.drop (index - r.baseIndex)) := by
  have hl : r.lastIndex = r.baseIndex + r.log.length := rfl
  have hlen : (r.log.take (index - r.baseIndex)).length = index - r.baseIndex := by
    rw [List.length_take]
    omega
  have hd := h.log_valid.drop (index - r.baseIndex)
  have hidx : r.baseIndex + (index - r.baseIndex) = index := by omega
  rwa [hlen, ← termAt_eq_endTerm (by omega), hidx] at hd

/-- The log a snapshot leaves behind. -/
theorem log_install (h : r.WellFormed) {req : InstallSnapshotReq}
    (hbase : r.baseIndex < req.lastIncludedIndex) :
    LogValid r.currentTerm req.lastIncludedIndex req.lastIncludedTerm
      (r.installSnapshot req).log := by
  unfold installSnapshot
  simp only
  split
  · next hkeep =>
    have hd := h.log_drop hbase hkeep.2
    rwa [hkeep.1] at hd
  · trivial

end WellFormed

/-! ## Durable states -/

theorem WellFormed.valid {r : Raft} (h : r.WellFormed) : r.persistedSnapshot.Valid where
  vote := h.vote
  base := h.base
  snapshot := h.snapshot
  baseTerm_le := h.baseTerm_le
  base_le := h.base_le_commit
  log := h.log
  commit_le := h.commit_le

theorem wellFormed_new {id : NodeId} {peers : List NodeId} {cfg : RaftConfig} {seed : UInt64}
    {p : Persisted} (h : p.Valid) : (Raft.new id peers cfg seed p).WellFormed where
  log := h.log
  vote := h.vote
  base := h.base
  snapshot := h.snapshot
  baseTerm_le := h.baseTerm_le
  base_le := Nat.le_refl _
  applied_le := h.base_le
  commit_le := h.commit_le
  term := fun hr => by rcases hr with hr | hr <;> cases hr

/-! ## Moves -/

/-- Taking over a run of entries touches nothing but the log, the commit point and the dirty
flag. -/
theorem core_took {r g : Raft} {entries : List LogEntry} (h : Took r g entries) (n : Nat) :
    ∃ d, (g.commitThrough true n).core =
      { r.core with log := g.log, commitIndex := max r.commitIndex n, dirty := d } := by
  have hg : ∃ d, g.core = { r.core with log := g.log, dirty := d } := by
    rcases h with ⟨_, rfl⟩ | ⟨pre, e, post, _, _, _, _, _, rfl⟩
    · exact ⟨_, rfl⟩
    · exact ⟨true, rfl⟩
  obtain ⟨d, hg⟩ := hg
  have hcommit : g.commitIndex = r.commitIndex := congrArg Core.commitIndex hg
  unfold commitThrough
  split
  · next hn =>
    refine ⟨true, ?_⟩
    rw [Nat.max_eq_right (hcommit ▸ hn.2.le)]
    exact congrArg (fun c : Core => { c with commitIndex := n, dirty := true }) hg
  · next hn =>
    refine ⟨d, ?_⟩
    rw [Nat.max_eq_left (by rw [← hcommit]; simpa using hn)]
    exact hg

/-- The driver compacts no further than the engine has handed out. -/
def Admissible (r : Raft) : Input → Prop
  | .compact index _ => index ≤ r.lastApplied
  | _ => True

/-- **A move keeps the invariant.** -/
theorem Move.wellFormed {i : Input} {r r' : Raft} (h : r.WellFormed) (ha : r.Admissible i)
    (hm : Move i r r') : r'.WellFormed := by
  cases hm with
  | quiet hc _ =>
    rw [WellFormed, hc]
    exact h
  | follow t hc _ =>
    rw [WellFormed, hc]
    exact h.follow t
  | poll _ heq =>
    rw [WellFormed, heq, core_poll]
    exact { h with term := fun hr => by rcases hr with hr | hr <;> cases hr }
  | stand _ heq =>
    rw [WellFormed, heq, core_stand]
    exact { h with
      log := h.log.mono (Nat.le_succ _)
      vote := fun _ => Nat.succ_ne_zero _
      baseTerm_le := h.baseTerm_le.trans (Nat.le_succ _)
      term := fun _ => Nat.succ_ne_zero _ }
  | tally v resp _ _ _ heq =>
    subst heq
    exact { h with }
  | lead hc _ heq =>
    have ht : r.currentTerm ≠ 0 := h.term (Or.inl hc)
    rw [WellFormed, heq, core_becomeLeader]
    refine { h with
      log := h.log_append ht none
      commit_le := h.commit_le.trans ?_
      term := fun _ => ht }
    simp [Core.lastIndex, core]
  | grant c req _ _ _ ht _ _ hc _ =>
    rw [WellFormed, hc]
    exact { h with vote := fun _ => ht }
  | append l req g _ hrole hterm hcont hprev hmatch htook hc _ =>
    obtain ⟨hlog, hend, hcommit⟩ := h.log_took hcont hterm hprev hmatch htook
    obtain ⟨d, hcore⟩ := core_took htook
      (min req.leaderCommit (req.prevLogIndex + req.entries.length))
    rw [WellFormed, hc, hcore]
    exact { h with
      log := hlog
      applied_le := h.applied_le.trans (Nat.le_max_left _ _)
      commit_le := Nat.max_le.mpr ⟨hcommit, (Nat.min_le_right _ _).trans hend⟩ }
  | covered l req _ _ _ _ _ hc _ =>
    rw [WellFormed, hc]
    exact h
  | install l req _ hrole hterm hvalid hbase hcommit hc _ =>
    simp only [snapshotMetadataIsValid, Bool.and_eq_true, decide_eq_true_eq] at hvalid
    obtain ⟨⟨⟨_, hidx⟩, hpos⟩, hle⟩ := hvalid
    have hcommit' : (r.installSnapshot req).commitIndex = req.lastIncludedIndex :=
      Nat.max_eq_right hcommit.le
    rw [WellFormed, hc]
    exact {
      log := h.log_install hbase
      vote := h.vote
      base := ⟨fun h0 => absurd h0 (Nat.ne_of_gt hidx), fun h0 => absurd h0 (Nat.ne_of_gt hpos)⟩
      snapshot := ⟨fun _ => hidx, fun _ => Option.some_ne_none _⟩
      baseTerm_le := hle.trans hterm.le
      base_le := Nat.le_refl _
      applied_le := hcommit'.ge
      commit_le := hcommit'.le.trans (Nat.le_add_right _ _)
      term := h.term }
  | matched p msg n _ _ _ hc _ =>
    rw [WellFormed, hc]
    exact { h with }
  | advance n _ hlt hn _ _ heq =>
    subst heq
    exact { h with applied_le := h.applied_le.trans hlt.le, commit_le := hn }
  | push c _ hl heq =>
    have ht : r.currentTerm ≠ 0 := h.term (Or.inr hl)
    subst heq
    refine { h with log := h.log_append ht (some c), commit_le := h.commit_le.trans ?_ }
    simp [Core.lastIndex, core, pushEntry]
  | compact index snapshot hi hbase hcommit heq =>
    subst hi
    have hlast : index ≤ r.lastIndex := hcommit.trans h.commit_le_last
    have hnew : ¬ (index ≤ r.baseIndex ∨ index > r.commitIndex) := by omega
    have hl : r.lastIndex = r.baseIndex + r.log.length := rfl
    obtain ⟨hnz, hle⟩ := h.termAt_live hbase hlast
    rw [heq, Raft.compact, if_neg hnew]
    exact { h with
      log := h.log_drop hbase hlast
      base := ⟨fun h0 => absurd h0 (Nat.ne_of_gt (Nat.zero_lt_of_lt hbase)),
        fun h0 => absurd h0 hnz⟩
      snapshot := ⟨fun _ => Nat.zero_lt_of_lt hbase, fun _ => Option.some_ne_none _⟩
      baseTerm_le := hle
      base_le := ha
      commit_le := by
        show r.commitIndex ≤ index + (r.log.drop (index - r.baseIndex)).length
        have := h.commit_le_last
        rw [List.length_drop]
        omega }

end Raft

end FiduciaBrain
