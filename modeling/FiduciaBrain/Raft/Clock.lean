import FiduciaBrain.Raft.Leader

/-!
# The engine's clocks

The timing configuration never changes, and a clock only ever restarts or advances by the tick that
is being handled.
-/

namespace FiduciaBrain.Raft

/-- The timing of an engine and the ticks it has counted. -/
structure Clock where
  cfg : RaftConfig
  heartbeatElapsed : Nat
  electionElapsed : Nat

def clock (r : Raft) : Clock := ⟨r.cfg, r.heartbeatElapsed, r.electionElapsed⟩

/-- The same timing, and at most `n` ticks more. -/
structure Paced (n : Nat) (c c' : Clock) : Prop where
  cfg : c'.cfg = c.cfg
  heartbeat : c'.heartbeatElapsed ≤ c.heartbeatElapsed + n
  election : c'.electionElapsed ≤ c.electionElapsed + n

namespace Paced

theorem refl (c : Clock) : Paced 0 c c := ⟨rfl, Nat.le_refl _, Nat.le_refl _⟩

theorem trans {n : Nat} {c d e : Clock} (h : Paced n c d) (h' : Paced 0 d e) : Paced n c e where
  cfg := h'.cfg.trans h.cfg
  heartbeat := h'.heartbeat.trans h.heartbeat
  election := h'.election.trans h.election

/-! ## Helpers -/

theorem send (r : Raft) (p : NodeId) (msg : RaftMessage) :
    Paced 0 r.clock (r.send p msg).clock := refl r.clock

theorem foldl {f : Raft → NodeId → Raft} (hf : ∀ r p, Paced 0 r.clock (f r p).clock)
    (l : List NodeId) (r : Raft) : Paced 0 r.clock (l.foldl f r).clock := by
  induction l generalizing r with
  | nil => exact refl r.clock
  | cons p rest ih => exact (hf r p).trans (ih (f r p))

theorem sendAll (r : Raft) (msg : RaftMessage) : Paced 0 r.clock (r.sendAll msg).clock :=
  foldl (f := fun r p => r.send p msg) (fun r p => send r p msg) r.peers r

theorem sendAppend (r : Raft) (p : NodeId) : Paced 0 r.clock (r.sendAppend p).clock := by
  unfold Raft.sendAppend
  simp only
  split
  · unfold sendSnapshot
    split <;> exact refl r.clock
  · exact refl r.clock

theorem broadcastAppend (r : Raft) : Paced 0 r.clock r.broadcastAppend.clock :=
  foldl sendAppend r.peers r

theorem resetElectionTimer (r : Raft) : Paced 0 r.clock r.resetElectionTimer.clock :=
  ⟨rfl, Nat.le_refl _, Nat.zero_le _⟩

theorem becomeFollower (r : Raft) (t : Nat) (l : Option NodeId) :
    Paced 0 r.clock (r.becomeFollower t l).clock := by
  unfold Raft.becomeFollower
  refine Paced.trans ?_ (resetElectionTimer _)
  split <;> exact refl r.clock

theorem adopt (r : Raft) (t : Nat) : Paced 0 r.clock (r.adopt t).clock := by
  unfold Raft.adopt
  split
  · exact becomeFollower r t none
  · exact refl r.clock

theorem becomeLeader (r : Raft) : Paced 0 r.clock r.becomeLeader.clock := by
  unfold Raft.becomeLeader
  refine Paced.trans ?_ (broadcastAppend _)
  exact ⟨rfl, Nat.zero_le _, Nat.zero_le _⟩

theorem maybeWinElection (r : Raft) : Paced 0 r.clock r.maybeWinElection.clock := by
  unfold Raft.maybeWinElection
  split
  · exact becomeLeader r
  · exact refl r.clock

theorem stand (r : Raft) : Paced 0 r.clock r.stand.clock := by
  unfold Raft.stand
  refine Paced.trans ?_ (sendAll _ _)
  exact ⟨rfl, Nat.le_refl _, Nat.zero_le _⟩

theorem maybeWinPreElection (r : Raft) : Paced 0 r.clock r.maybeWinPreElection.clock := by
  unfold Raft.maybeWinPreElection
  split
  · rw [startElection_eq]
    exact (stand r).trans (maybeWinElection _)
  · exact refl r.clock

theorem poll (r : Raft) : Paced 0 r.clock r.poll.clock := by
  unfold Raft.poll
  refine Paced.trans ?_ (sendAll _ _)
  exact ⟨rfl, Nat.le_refl _, Nat.zero_le _⟩

theorem maybeAdvanceCommit (r : Raft) : Paced 0 r.clock r.maybeAdvanceCommit.2.clock := by
  unfold Raft.maybeAdvanceCommit
  split <;> exact refl r.clock

theorem recordMatch (r : Raft) (p : NodeId) (n : Nat) :
    Paced 0 r.clock (r.recordMatch p n).clock := by
  have hnote : Paced 0 r.clock (r.noteMatch p n).maybeAdvanceCommit.2.clock :=
    Paced.trans (d := (r.noteMatch p n).clock) (refl r.clock) (maybeAdvanceCommit _)
  unfold Raft.recordMatch
  simp only
  split
  · exact hnote.trans (broadcastAppend _)
  · exact hnote

/-! ## Time -/

/-- **A tick moves each clock by one at most.** -/
theorem tick (r : Raft) : Paced 1 r.clock r.tick.clock := by
  unfold Raft.tick
  split
  · have hbeat : r.tickHeartbeat.cfg = r.cfg ∧
        r.tickHeartbeat.heartbeatElapsed ≤ r.heartbeatElapsed + 1 ∧
        r.tickHeartbeat.electionElapsed ≤ r.electionElapsed := by
      unfold tickHeartbeat
      simp only
      split
      · have h := broadcastAppend { r with heartbeatElapsed := 0 }
        exact ⟨h.cfg, h.heartbeat.trans (Nat.zero_le _), h.election⟩
      · exact ⟨rfl, Nat.le_refl _, Nat.le_refl _⟩
    obtain ⟨hcfg, hheartbeat, helection⟩ := hbeat
    unfold tickCheckQuorum
    simp only
    split
    · refine Paced.trans (d := ({ r.tickHeartbeat with
        electionElapsed := r.tickHeartbeat.electionElapsed + 1
        ackedSinceCheck := ∅ } : Raft).clock) ⟨hcfg, hheartbeat, Nat.succ_le_succ helection⟩ ?_
      split
      · exact becomeFollower _ _ _
      · exact resetElectionTimer _
    · exact ⟨hcfg, hheartbeat, Nat.succ_le_succ helection⟩
  · simp only
    refine Paced.trans (d := ({ r with electionElapsed := r.electionElapsed + 1 } : Raft).clock)
      ⟨rfl, Nat.le_add_right _ _, Nat.le_refl _⟩ ?_
    split
    · rw [startPreElection_eq]
      exact (poll _).trans (maybeWinPreElection _)
    · exact refl _

/-! ## Messages -/

theorem handleRequestVote (r : Raft) (c : NodeId) (req : RequestVoteReq) :
    Paced 0 r.clock (r.handleRequestVote c req).clock := by
  have hadopt : Paced 0 r.clock (if (!req.preVote && decide (req.term > r.currentTerm)) = true
      then r.becomeFollower req.term none else r).clock := by
    split
    · exact becomeFollower r req.term none
    · exact refl r.clock
  unfold Raft.handleRequestVote
  simp only
  generalize (if (!req.preVote && decide (req.term > r.currentTerm)) = true
      then r.becomeFollower req.term none else r) = f at hadopt
  split
  · exact refl r.clock
  · split
    · exact hadopt
    · split
      · exact hadopt
      · split
        · refine hadopt.trans (Paced.trans (d := (f.recordVote c).clock) ?_ (send _ _ _))
          exact ⟨rfl, Nat.le_refl _, Nat.zero_le _⟩
        · exact hadopt

theorem handleVoteResp (r : Raft) (v : NodeId) (resp : RequestVoteResp) :
    Paced 0 r.clock (r.handleVoteResp v resp).clock := by
  have htally : Paced 0 r.clock ({ r with votes := insert v r.votes } : Raft).clock := refl r.clock
  unfold Raft.handleVoteResp
  split
  · exact becomeFollower r resp.term none
  split
  · exact refl r.clock
  split
  · split
    · exact htally.trans (maybeWinPreElection _)
    · exact refl r.clock
  · split
    · exact htally.trans (maybeWinElection _)
    · exact refl r.clock

theorem splice (r : Raft) (entries : List LogEntry) (k n : Nat) (spliced : Bool) :
    Paced 0 r.clock ((r.spliceEntries k entries).1.commitThrough spliced n).clock := by
  obtain ⟨_, _, heq⟩ := spliceEntries_frame entries r k
  obtain ⟨_, _, hcommit⟩ := commitThrough_frame (r.spliceEntries k entries).1 spliced n
  rw [hcommit, heq]
  exact refl r.clock

theorem handleAppend (r : Raft) (l : NodeId) (req : AppendEntriesReq) :
    Paced 0 r.clock (r.handleAppend l req).clock := by
  unfold Raft.handleAppend
  simp only
  split
  · exact refl r.clock
  rw [show (if req.term > r.currentTerm then r.becomeFollower req.term none else r)
    = r.adopt req.term from rfl]
  split
  · exact adopt r req.term
  · have hf := (adopt r req.term).trans (becomeFollower _ req.term (some l))
    generalize (r.adopt req.term).becomeFollower req.term (some l) = f at hf
    split
    · exact hf
    · split
      · exact hf
      · exact hf.trans (splice _ _ _ _ _)

theorem handleAppendResp (r : Raft) (p : NodeId) (resp : AppendEntriesResp) :
    Paced 0 r.clock (r.handleAppendResp p resp).clock := by
  unfold Raft.handleAppendResp
  simp only
  split
  · exact becomeFollower r resp.term none
  split
  · exact refl r.clock
  split
  · exact recordMatch { r with ackedSinceCheck := insert p r.ackedSinceCheck } p _
  · split
    · exact sendAppend { r with
        ackedSinceCheck := insert p r.ackedSinceCheck
        nextIndex := Function.update r.nextIndex p (some _) } p
    · exact refl r.clock

theorem handleInstallSnapshot (r : Raft) (l : NodeId) (req : InstallSnapshotReq) :
    Paced 0 r.clock (r.handleInstallSnapshot l req).clock := by
  unfold Raft.handleInstallSnapshot
  simp only
  split
  · exact refl r.clock
  rw [show (if req.term > r.currentTerm then r.becomeFollower req.term none else r)
    = r.adopt req.term from rfl]
  split
  · exact adopt r req.term
  · have hf := (adopt r req.term).trans (becomeFollower _ req.term (some l))
    generalize (r.adopt req.term).becomeFollower req.term (some l) = f at hf
    split <;> exact hf

theorem handleInstallSnapshotResp (r : Raft) (p : NodeId) (resp : InstallSnapshotResp) :
    Paced 0 r.clock (r.handleInstallSnapshotResp p resp).clock := by
  unfold Raft.handleInstallSnapshotResp
  simp only
  split
  · exact becomeFollower r resp.term none
  split
  · exact refl r.clock
  split
  · exact recordMatch { r with
      ackedSinceCheck := insert p r.ackedSinceCheck
      snapshotInflight := Function.update r.snapshotInflight p none } p _
  · exact refl r.clock

end Paced

/-! ## Calls -/

/-- Whether a call is a tick. -/
def Input.ticks : Input → Nat
  | .tick => 1
  | _ => 0

/-- **A call moves a clock by its tick, if it is one.** -/
theorem paced_run (r : Raft) (i : Input) : Paced i.ticks r.clock (r.run i).clock := by
  cases i with
  | tick => exact .tick r
  | step p msg =>
    show Paced 0 r.clock (r.step p msg).clock
    rcases step_cases r p msg with ⟨_, _, heq⟩ | ⟨_, heq⟩
    · rw [heq]
      cases msg with
      | requestVote req => exact .handleRequestVote r p req
      | requestVoteResp resp => exact .handleVoteResp r p resp
      | appendEntries req => exact .handleAppend r p req
      | appendEntriesResp resp => exact .handleAppendResp r p resp
      | installSnapshot req => exact .handleInstallSnapshot r p req
      | installSnapshotResp resp => exact .handleInstallSnapshotResp r p resp
    · rw [heq]
      exact .refl r.clock
  | propose c =>
    show Paced 0 r.clock (r.propose c).2.clock
    unfold propose
    split
    · exact .refl r.clock
    · have hpush : Paced 0 r.clock (r.pushEntry (some c)).clock := .refl r.clock
      exact hpush.trans ((Paced.maybeAdvanceCommit _).trans (.broadcastAppend _))
  | compact index snapshot =>
    show Paced 0 r.clock (r.compact index snapshot).clock
    unfold compact
    split <;> exact .refl r.clock

/-- **The timing is fixed.** -/
theorem cfg_run (r : Raft) (i : Input) : (r.run i).cfg = r.cfg := (paced_run r i).cfg

end FiduciaBrain.Raft
