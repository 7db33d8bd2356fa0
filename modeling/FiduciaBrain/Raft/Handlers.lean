import FiduciaBrain.Raft.Moves

/-!
# Every call, broken into moves

One lemma for each function of the engine that a call goes through; `moves_run` puts them together.
The append handler is the only one that asks for something in return: that the commit point lies
inside the live log.
-/

namespace FiduciaBrain.Raft

variable {r : Raft} {i : Input}

/-! ## Moves that only talk -/

theorem move_send {msg : RaftMessage} (p : NodeId) (h : Idle r msg) : Move i r (r.send p msg) := by
  refine .quiet rfl fun m hm => ?_
  rcases List.mem_append.mp hm with hm | hm
  · exact Or.inl hm
  · rw [List.mem_singleton.mp hm]
    exact Or.inr (h.congr (core_send r p msg).symm)

/-- Only the clock, the trusted leader or the send bookkeeping moved. -/
theorem moves_of_core {r' : Raft} (hc : r'.core = r.core) (ho : r'.out = r.out) : Moves i r r' :=
  Move.moves (.quiet hc fun _ hm => Or.inl (ho ▸ hm))

theorem move_broadcastAppend (hl : r.role = .leader) : Move i r r.broadcastAppend := by
  have hc := core_broadcastAppend r
  refine .quiet hc fun m hm => ?_
  rcases mem_out_broadcastAppend hm with hm | hm
  · exact Or.inl hm
  · exact Or.inr ((Idle.replication hl hm).congr hc.symm)

theorem move_sendAppend (p : NodeId) (hl : r.role = .leader) : Move i r (r.sendAppend p) := by
  have hc := core_sendAppend r p
  refine .quiet hc fun m hm => ?_
  rcases mem_out_sendAppend hm with hm | hm
  · exact Or.inl hm
  · exact Or.inr ((Idle.replication hl hm).congr hc.symm)

/-! ## Following -/

theorem move_becomeFollower (t : Nat) (l : Option NodeId) : Move i r (r.becomeFollower t l) :=
  .follow t (core_becomeFollower r t l) (out_becomeFollower r t l)

theorem moves_adopt (t : Nat) : Moves i r (r.adopt t) := by
  unfold adopt
  split
  · exact (move_becomeFollower t none).moves
  · exact .refl r

/-- A structurally valid request of a current term is handled by a follower of that term. -/
theorem moves_adopt_becomeFollower (t : Nat) (l : Option NodeId) :
    Moves i r ((r.adopt t).becomeFollower t l) := (moves_adopt t).tail (move_becomeFollower t l)

theorem role_becomeFollower (t : Nat) (l : Option NodeId) :
    (r.becomeFollower t l).role = .follower := by
  refine (congrArg Core.role (core_becomeFollower r t l)).trans ?_
  unfold Core.follow
  split <;> rfl

theorem currentTerm_adopt_becomeFollower {t : Nat} (h : r.currentTerm ≤ t) (l : Option NodeId) :
    ((r.adopt t).becomeFollower t l).currentTerm = t :=
  (congrArg Core.currentTerm (core_follow_adopt h l)).trans (Core.currentTerm_follow h)

/-- Following changes neither the log nor the commit point. -/
theorem bounds_adopt_becomeFollower {t : Nat} (h : r.currentTerm ≤ t) (l : Option NodeId) :
    ((r.adopt t).becomeFollower t l).baseIndex = r.baseIndex ∧
      ((r.adopt t).becomeFollower t l).commitIndex = r.commitIndex ∧
      ((r.adopt t).becomeFollower t l).lastIndex = r.lastIndex := by
  have hc := core_follow_adopt (r := r) h l
  have hb : ∀ c : Core, (c.follow t).baseIndex = c.baseIndex ∧
      (c.follow t).commitIndex = c.commitIndex ∧ (c.follow t).log = c.log := by
    intro c
    unfold Core.follow
    split <;> exact ⟨rfl, rfl, rfl⟩
  obtain ⟨h1, h2, h3⟩ := hb r.core
  have hbase := (congrArg Core.baseIndex hc).trans h1
  have hlog := (congrArg Core.log hc).trans h3
  refine ⟨hbase, (congrArg Core.commitIndex hc).trans h2, ?_⟩
  exact congrArg₂ (fun b (l : List LogEntry) => b + l.length) hbase hlog

theorem termAt_adopt_becomeFollower {t : Nat} (h : r.currentTerm ≤ t) (l : Option NodeId) :
    ((r.adopt t).becomeFollower t l).termAt = r.termAt := by
  have hc := core_follow_adopt (r := r) h l
  obtain ⟨hb, _, hlast⟩ := bounds_adopt_becomeFollower (r := r) h l
  have hf : (r.core.follow t).log = r.log ∧ (r.core.follow t).baseTerm = r.baseTerm := by
    unfold Core.follow
    split <;> exact ⟨rfl, rfl⟩
  have hlog := (congrArg Core.log hc).trans hf.1
  have hterm := (congrArg Core.baseTerm hc).trans hf.2
  simp only [core] at hlog hterm
  funext i
  simp only [termAt, logSlot, hb, hlast, hlog, hterm]

/-! ## Elections -/

theorem moves_maybeWinElection : Moves i r r.maybeWinElection := by
  unfold maybeWinElection
  split
  · next h => exact (Move.lead h.1 h.2 rfl).moves
  · exact .refl r

theorem moves_maybeWinPreElection : Moves i r r.maybeWinPreElection := by
  unfold maybeWinPreElection
  split
  · next h =>
    rw [startElection_eq]
    exact (Move.stand h.1 rfl).moves.trans moves_maybeWinElection
  · exact .refl r

theorem moves_startPreElection (hl : r.role ≠ .leader) : Moves i r r.startPreElection := by
  rw [startPreElection_eq]
  exact (Move.poll hl rfl).moves.trans moves_maybeWinPreElection

theorem moves_tick : Moves i r r.tick := by
  unfold tick
  split
  · next hl =>
    -- the heartbeat, then the check-quorum window
    have hrole : r.tickHeartbeat.role = .leader :=
      (congrArg Core.role (core_tickHeartbeat r)).trans hl
    have hbeat : Moves i r r.tickHeartbeat := by
      unfold tickHeartbeat
      simp only
      split
      · exact Moves.tail (s := { r with heartbeatElapsed := 0 }) (moves_of_core rfl rfl)
          (move_broadcastAppend hl)
      · exact moves_of_core rfl rfl
    refine hbeat.trans ?_
    unfold tickCheckQuorum
    simp only
    split
    · split
      · exact Moves.tail (s := { r.tickHeartbeat with
          electionElapsed := r.tickHeartbeat.electionElapsed + 1, ackedSinceCheck := ∅ })
          (moves_of_core rfl rfl) (move_becomeFollower _ none)
      · exact moves_of_core rfl rfl
    · exact moves_of_core rfl rfl
  · next hl =>
    simp only
    split
    · exact Moves.trans (s := { r with electionElapsed := r.electionElapsed + 1 })
        (moves_of_core rfl rfl) (moves_startPreElection hl)
    · exact moves_of_core rfl rfl

/-! ## Votes -/

theorem moves_handleRequestVote (c : NodeId) (req : RequestVoteReq) :
    Moves (.step c (.requestVote req)) r (r.handleRequestVote c req) := by
  unfold handleRequestVote
  simp only
  by_cases h0 : req.term = 0
  · rw [if_pos h0]
    exact (move_send c (.denied (by simp))).moves
  rw [if_neg h0]
  cases hpre : req.preVote with
  | true =>
    simp only [Bool.not_true, Bool.false_and, if_false, Bool.false_eq_true]
    split
    · exact (move_send c (.denied (by simp))).moves
    · exact (move_send c (.denied (by simp))).moves
  | false =>
    have hadopt : (if (!false && decide (req.term > r.currentTerm)) = true
        then r.becomeFollower req.term none else r) = r.adopt req.term := by
      simp [adopt]
    rw [hadopt]
    refine (moves_adopt req.term).trans ?_
    generalize r.adopt req.term = f
    split
    · exact (move_send c (.denied (by simp))).moves
    · simp only [Bool.false_eq_true, if_false]
      split
      · next hg =>
        simp only [Bool.and_eq_true, Bool.or_eq_true, Option.isNone_iff_eq_none, beq_iff_eq,
          decide_eq_true_eq] at hg
        obtain ⟨⟨hfree, hlog⟩, hterm⟩ := hg
        exact (Move.grant c req rfl hpre hterm (hterm ▸ h0) hfree hlog rfl rfl).moves
      · exact (move_send c (.denied (by simp))).moves

theorem moves_handleVoteResp (v : NodeId) (resp : RequestVoteResp) :
    Moves (.step v (.requestVoteResp resp)) r (r.handleVoteResp v resp) := by
  unfold handleVoteResp
  split
  · exact (move_becomeFollower resp.term none).moves
  split
  · exact .refl r
  next hg =>
  have hgranted : resp.granted = true := by simpa using hg
  split
  · split
    · next hrole =>
      exact (Move.tally v resp rfl hgranted (Or.inl hrole) rfl).moves.trans
        moves_maybeWinPreElection
    · exact .refl r
  · next hpre =>
    split
    · next h =>
      exact (Move.tally v resp rfl hgranted (Or.inr ⟨h.1, h.2, by simpa using hpre⟩)
        rfl).moves.trans moves_maybeWinElection
    · exact .refl r

/-! ## Replication -/

/-- What the commit rule finds is in the log, of the current term and on a quorum. -/
theorem newCommit_spec (h : r.newCommit > r.commitIndex) :
    r.newCommit ≤ r.lastIndex ∧ r.termAt r.newCommit = r.currentTerm ∧
      r.quorum ≤ r.replicaCount r.newCommit := by
  have key : r.newCommit > r.commitIndex → r.newCommit ≤ r.lastIndex ∧
      r.termAt r.newCommit = r.currentTerm ∧ r.quorum ≤ r.replicaCount r.newCommit := by
    unfold newCommit
    refine List.foldlRecOn (motive := fun n => n > r.commitIndex →
      n ≤ r.lastIndex ∧ r.termAt n = r.currentTerm ∧ r.quorum ≤ r.replicaCount n) _ _
      (fun hlt => absurd hlt (Nat.lt_irrefl _)) fun acc hacc n hn => ?_
    have hrange := List.mem_range'_1.mp hn
    split
    · exact hacc
    · next hterm =>
      split
      · next hq => exact fun _ => ⟨by omega, by simpa using hterm, hq⟩
      · exact hacc
  exact key h

theorem moves_maybeAdvanceCommit (hl : r.role = .leader) : Moves i r r.maybeAdvanceCommit.2 := by
  unfold maybeAdvanceCommit
  split
  · next h =>
    obtain ⟨hlast, hterm, hq⟩ := newCommit_spec h
    exact (Move.advance r.newCommit hl h hlast hterm hq rfl).moves
  · exact .refl r

theorem role_maybeAdvanceCommit : r.maybeAdvanceCommit.2.role = r.role := by
  unfold maybeAdvanceCommit
  split <;> rfl

theorem moves_recordMatch {p : NodeId} {msg : RaftMessage} {n : Nat} (hl : r.role = .leader)
    (ha : Acknowledges r.currentTerm n msg) : Moves (.step p msg) r (r.recordMatch p n) := by
  unfold recordMatch
  simp only
  generalize hg : ({ r with
    matchIndex := Function.update r.matchIndex p (some (max n ((r.matchIndex p).getD 0)))
    nextIndex := Function.update r.nextIndex p
      (some (saturatingAdd (max n ((r.matchIndex p).getD 0)) 1)) } : Raft) = g
  have hmatch : Move (.step p msg) r g := by
    refine .matched p msg n rfl hl ha ?_ ?_
    · rw [← hg]; rfl
    · rw [← hg]
  have hgl : g.role = .leader := by rw [← hg]; exact hl
  have hadv := hmatch.moves.trans (moves_maybeAdvanceCommit hgl)
  split
  · exact hadv.tail (move_broadcastAppend (role_maybeAdvanceCommit.trans hgl))
  · exact hadv

theorem moves_handleAppendResp (p : NodeId) (resp : AppendEntriesResp) :
    Moves (.step p (.appendEntriesResp resp)) r (r.handleAppendResp p resp) := by
  unfold handleAppendResp
  simp only
  split
  · exact (move_becomeFollower resp.term none).moves
  split
  · exact .refl r
  next h =>
  simp only [ne_eq, not_or, Decidable.not_not] at h
  obtain ⟨hl, hterm⟩ := h
  have hheard : Moves (.step p (.appendEntriesResp resp)) r
      { r with ackedSinceCheck := insert p r.ackedSinceCheck } := moves_of_core rfl rfl
  split
  · next hs =>
    exact hheard.trans
      (moves_recordMatch (r := { r with ackedSinceCheck := insert p r.ackedSinceCheck }) hl
        (.append hs hterm (Nat.min_le_left _ _)))
  · split
    · refine Moves.tail ?_ (move_sendAppend p hl)
      exact moves_of_core rfl rfl
    · exact moves_of_core rfl rfl

theorem moves_handleInstallSnapshotResp (p : NodeId) (resp : InstallSnapshotResp) :
    Moves (.step p (.installSnapshotResp resp)) r (r.handleInstallSnapshotResp p resp) := by
  unfold handleInstallSnapshotResp
  simp only
  split
  · exact (move_becomeFollower resp.term none).moves
  split
  · exact .refl r
  next h =>
  simp only [ne_eq, not_or, Decidable.not_not] at h
  obtain ⟨hl, hterm⟩ := h
  split
  · next hs =>
    have hheard : Moves (.step p (.installSnapshotResp resp)) r
        { r with
          ackedSinceCheck := insert p r.ackedSinceCheck
          snapshotInflight := Function.update r.snapshotInflight p none } := moves_of_core rfl rfl
    exact hheard.trans (moves_recordMatch (r := { r with
      ackedSinceCheck := insert p r.ackedSinceCheck
      snapshotInflight := Function.update r.snapshotInflight p none }) hl
        (.snapshot hs hterm (Nat.min_le_left _ _)))
  · exact moves_of_core rfl rfl

/-! ## Appends and snapshots from a leader -/

theorem moves_handleAppend (l : NodeId) (req : AppendEntriesReq)
    (hbc : r.baseIndex ≤ r.commitIndex) (hcl : r.commitIndex ≤ r.lastIndex) :
    Moves (.step l (.appendEntries req)) r (r.handleAppend l req) := by
  unfold handleAppend
  simp only
  by_cases hstale : req.term < r.currentTerm
  · rw [if_pos hstale]
    exact (move_send l (.refused rfl)).moves
  have hle : r.currentTerm ≤ req.term := Nat.not_lt.mp hstale
  rw [if_neg hstale, show (if req.term > r.currentTerm then r.becomeFollower req.term none else r)
    = r.adopt req.term from rfl]
  cases hcont : entriesAreContiguous req with
  | false =>
    rw [if_pos (by rfl)]
    exact (moves_adopt req.term).tail (move_send l (.refused rfl))
  | true =>
    rw [if_neg (by simp)]
    refine (moves_adopt_becomeFollower req.term (some l)).trans ?_
    have hrole := role_becomeFollower (r := r.adopt req.term) req.term (some l)
    have hterm := currentTerm_adopt_becomeFollower hle (some l)
    obtain ⟨hb, hc, hlast⟩ := bounds_adopt_becomeFollower hle (some l)
    generalize (r.adopt req.term).becomeFollower req.term (some l) = f at hrole hterm hb hc hlast
    split
    · exact (move_send l (.refused rfl)).moves
    next hprev =>
    split
    · exact (move_send l (.refused rfl)).moves
    next hmatch =>
    have hmatch' : 0 < req.prevLogIndex → f.termAt req.prevLogIndex = req.prevLogTerm :=
      fun hpos => by
        by_contra hne
        exact hmatch ⟨hpos, hne⟩
    -- the loop took the run whole, or refused it before it changed anything
    have htook : ∀ g, Took f g req.entries →
        Moves (.step l (.appendEntries req)) f
          ((g.commitThrough true (min req.leaderCommit
            (req.prevLogIndex + req.entries.length))).send l (.appendEntriesResp
              { term := (g.commitThrough true (min req.leaderCommit
                  (req.prevLogIndex + req.entries.length))).currentTerm
                success := true
                matchIndex := req.prevLogIndex + req.entries.length })) := by
      intro g hg
      have hsame : g.out = f.out ∧ g.currentTerm = f.currentTerm := by
        rcases hg with ⟨_, rfl⟩ | ⟨pre, e, post, _, _, _, _, _, rfl⟩
        · exact ⟨rfl, rfl⟩
        · exact ⟨rfl, rfl⟩
      have hcommit : ∀ n, (g.commitThrough true n).out = g.out ∧
          (g.commitThrough true n).currentTerm = g.currentTerm := fun n => by
        unfold commitThrough
        split <;> exact ⟨rfl, rfl⟩
      refine Move.moves (.append l req g rfl hrole hterm.symm hcont (by omega) hmatch' hg rfl ?_)
      rw [out_send, (hcommit _).1, (hcommit _).2, hsame.1, hsame.2]
    obtain ⟨_, _, hv⟩ := logValid_of_contiguous hcont
    rcases spliceEntries_cases req.entries req.prevLogIndex req.prevLogTerm (r := f)
      (by omega) (by omega) (by omega) hv with ⟨c, hs, _⟩ | ⟨ha, hs⟩ |
        ⟨pre, e, post, heq, ha, hne, hci, hend, hs⟩
    · rw [hs]
      simp only [commitThrough, Bool.false_eq_true, false_and, if_false]
      exact (move_send l (.refused rfl)).moves
    · rw [hs]
      exact htook f (Or.inl ⟨ha, rfl⟩)
    · rw [hs]
      exact htook _ (Or.inr ⟨pre, e, post, heq, ha, hne, hci, hend, rfl⟩)

theorem moves_handleInstallSnapshot (l : NodeId) (req : InstallSnapshotReq) :
    Moves (.step l (.installSnapshot req)) r (r.handleInstallSnapshot l req) := by
  unfold handleInstallSnapshot
  simp only
  by_cases hstale : req.term < r.currentTerm
  · rw [if_pos hstale]
    exact (move_send l (.declined rfl)).moves
  have hle : r.currentTerm ≤ req.term := Nat.not_lt.mp hstale
  rw [if_neg hstale, show (if req.term > r.currentTerm then r.becomeFollower req.term none else r)
    = r.adopt req.term from rfl]
  cases hvalid : snapshotMetadataIsValid req with
  | false =>
    rw [if_pos (by rfl)]
    exact (moves_adopt req.term).tail (move_send l (.declined rfl))
  | true =>
    rw [if_neg (by simp)]
    refine (moves_adopt_becomeFollower req.term (some l)).trans ?_
    have hrole := role_becomeFollower (r := r.adopt req.term) req.term (some l)
    have hterm := currentTerm_adopt_becomeFollower hle (some l)
    generalize (r.adopt req.term).becomeFollower req.term (some l) = f at hrole hterm
    split
    · next hcov => exact Move.moves (.covered l req rfl hrole hterm.symm hvalid hcov rfl rfl)
    · next hnew =>
      obtain ⟨hbase, hcommit⟩ := not_or.mp hnew
      exact Move.moves (.install l req rfl hrole hterm.symm hvalid (Nat.lt_of_not_le hbase)
        (Nat.lt_of_not_le hcommit) rfl rfl)

/-! ## Proposals and compaction -/

theorem moves_propose (c : Command) : Moves (.propose c) r (r.propose c).2 := by
  unfold propose
  split
  · exact .refl r
  · next h =>
    have hl : r.role = .leader := by simpa using h
    have hpush : Moves (.propose c) r (r.pushEntry (some c)) := (Move.push c rfl hl rfl).moves
    have hadv := hpush.trans (moves_maybeAdvanceCommit (r := r.pushEntry (some c)) hl)
    exact hadv.tail (move_broadcastAppend (role_maybeAdvanceCommit.trans hl))

theorem moves_compact (index : Nat) (snapshot : Bytes) :
    Moves (.compact index snapshot) r (r.compact index snapshot) := by
  by_cases h : index ≤ r.baseIndex ∨ index > r.commitIndex
  · rw [compact, if_pos h]
    exact .refl r
  · obtain ⟨hb, hc⟩ := not_or.mp h
    exact (Move.compact index snapshot rfl (Nat.lt_of_not_le hb) (Nat.not_lt.mp hc) rfl).moves

/-! ## Every call -/

/-- **A call is a sequence of moves.** -/
theorem moves_run (hbc : r.baseIndex ≤ r.commitIndex) (hcl : r.commitIndex ≤ r.lastIndex)
    (i : Input) : Moves i r (r.run i) := by
  cases i with
  | tick => exact moves_tick
  | propose c => exact moves_propose c
  | compact index snapshot => exact moves_compact index snapshot
  | step sender msg =>
    show Moves _ r (r.step sender msg)
    unfold step
    split
    · exact .refl r
    · cases msg with
      | requestVote req => exact moves_handleRequestVote sender req
      | requestVoteResp resp => exact moves_handleVoteResp sender resp
      | appendEntries req => exact moves_handleAppend sender req hbc hcl
      | appendEntriesResp resp => exact moves_handleAppendResp sender resp
      | installSnapshot req => exact moves_handleInstallSnapshot sender req
      | installSnapshotResp resp => exact moves_handleInstallSnapshotResp sender resp

end FiduciaBrain.Raft
