import FiduciaBrain.Raft.Isolated

/-!
# What a willing voter answers

The other side of an election: whom a poll and a candidacy reach, what a member answers that trusts
no leader and whose log is no further than the candidate's, and what the candidate makes of it.
-/

namespace FiduciaBrain.Raft

variable {r : Raft} {c : NodeId}

theorem persistedSnapshot_congr {g h : Raft} (hc : g.core = h.core) :
    g.persistedSnapshot = h.persistedSnapshot := by
  injection hc with _ _ h1 h2 h3 h4 h5 h6 _ h7
  simp only [persistedSnapshot, h1, h2, h3, h4, h5, h6, h7]

/-! ## Asking everybody -/

theorem mem_sendAll (r : Raft) {p : NodeId} (hp : p ∈ r.peers) (msg : RaftMessage) :
    ⟨p, msg⟩ ∈ (r.sendAll msg).out := by
  have key : ∀ (l : List NodeId) (s : Raft), (⟨p, msg⟩ ∈ s.out ∨ p ∈ l) →
      ⟨p, msg⟩ ∈ (l.foldl (fun r q => r.send q msg) s).out := by
    intro l
    induction l with
    | nil =>
      rintro s (h | h)
      · exact h
      · cases h
    | cons q rest ih =>
      intro s h
      refine ih _ ?_
      rcases h with h | h
      · exact .inl (List.mem_append_left _ h)
      · rcases List.mem_cons.mp h with rfl | h
        · exact .inl (List.mem_append_right _ (List.mem_singleton.mpr rfl))
        · exact .inr h
  exact key r.peers r (.inr hp)

theorem persistedSnapshot_poll (r : Raft) : r.poll.persistedSnapshot = r.persistedSnapshot :=
  persistedSnapshot_congr (h := { r with role := .preCandidate, votes := {r.id} }) (core_poll r)

theorem persistedSnapshot_stand (r : Raft) : r.stand.persistedSnapshot =
    { r.persistedSnapshot with currentTerm := r.currentTerm + 1, votedFor := some r.id } :=
  persistedSnapshot_congr (h := { r with
    currentTerm := r.currentTerm + 1
    votedFor := some r.id
    dirty := true
    role := .candidate
    votes := {r.id} }) (core_stand r)

theorem persistedSnapshot_becomeFollower {t : Nat} (h : r.currentTerm < t) (l : Option NodeId) :
    (r.becomeFollower t l).persistedSnapshot =
      { r.persistedSnapshot with currentTerm := t, votedFor := none } := by
  refine persistedSnapshot_congr (h := { r with
    currentTerm := t
    votedFor := none
    dirty := true
    role := .follower
    votes := ∅ }) ?_
  rw [core_becomeFollower, Core.follow_of_lt h]
  rfl

/-- All that changed on disk is the ballot: the term and the vote. -/
def BallotOnly (r s : Raft) : Prop := ∃ t v,
  s.persistedSnapshot = { r.persistedSnapshot with currentTerm := t, votedFor := v }

namespace BallotOnly

variable {r s t : Raft}

theorem of_eq (h : s.persistedSnapshot = r.persistedSnapshot) : BallotOnly r s := ⟨_, _, h⟩

theorem trans (h : BallotOnly r s) (h' : BallotOnly s t) : BallotOnly r t := by
  obtain ⟨u, v, h⟩ := h
  obtain ⟨u', v', h'⟩ := h'
  exact ⟨u', v', by rw [h', h]⟩

theorem baseIndex (h : BallotOnly r s) : s.baseIndex = r.baseIndex := by
  obtain ⟨_, _, h⟩ := h
  exact congrArg Persisted.baseIndex h

theorem lastIndex (h : BallotOnly r s) : s.lastIndex = r.lastIndex := by
  obtain ⟨_, _, h⟩ := h
  have hlog : s.log = r.log := congrArg Persisted.log h
  have hbase : s.baseIndex = r.baseIndex := congrArg Persisted.baseIndex h
  simp only [Raft.lastIndex, hlog, hbase]

theorem lastTerm (h : BallotOnly r s) : s.lastTerm = r.lastTerm := by
  obtain ⟨_, _, h⟩ := h
  have hlog : s.log = r.log := congrArg Persisted.log h
  have hbt : s.baseTerm = r.baseTerm := congrArg Persisted.baseTerm h
  simp only [Raft.lastTerm, hlog, hbt]

theorem termAt (h : BallotOnly r s) : s.termAt = r.termAt := by
  have hlast := h.lastIndex
  obtain ⟨_, _, h⟩ := h
  have hlog : s.log = r.log := congrArg Persisted.log h
  have hbase : s.baseIndex = r.baseIndex := congrArg Persisted.baseIndex h
  have hbt : s.baseTerm = r.baseTerm := congrArg Persisted.baseTerm h
  funext i
  simp only [Raft.termAt, logSlot, hlast, hlog, hbase, hbt]

end BallotOnly

/-- What a poll asks. -/
def pollRequest (r : Raft) : RequestVoteReq where
  term := r.currentTerm + 1
  candidateId := r.id
  lastLogIndex := r.lastIndex
  lastLogTerm := r.lastTerm
  preVote := true

/-- What a candidacy asks. -/
def standRequest (r : Raft) : RequestVoteReq := { r.pollRequest with preVote := false }

theorem standRequest_congr {s : Raft} (hid : s.id = r.id)
    (h : s.persistedSnapshot = r.persistedSnapshot) : s.standRequest = r.standRequest := by
  injection h with hterm _ _ hlog hbase hbt _
  simp only [standRequest, pollRequest, lastIndex, lastTerm, hid, hterm, hlog, hbase, hbt]

theorem mem_out_of_poll {p : NodeId} (hp : p ∈ r.peers) :
    ⟨p, .requestVote r.pollRequest⟩ ∈ r.poll.out := by
  have hp' : p ∈ ({ r.resetElectionTimer with
    role := .preCandidate
    votes := {r.id} } : Raft).peers := hp
  exact mem_sendAll _ hp' _

theorem mem_out_of_stand {p : NodeId} (hp : p ∈ r.peers) :
    ⟨p, .requestVote r.standRequest⟩ ∈ r.stand.out := by
  have hp' : p ∈ ({ { r with
    currentTerm := r.currentTerm + 1
    votedFor := some r.id
    dirty := true
    role := .candidate
    leaderId := none }.resetElectionTimer with votes := {r.id} } : Raft).peers := hp
  exact mem_sendAll _ hp' _

/-! ## Answering -/

/-- A log is no further than what the request says of the candidate's. -/
def Behind (r : Raft) (lastTerm lastIndex : Nat) : Prop :=
  r.lastTerm < lastTerm ∨ r.lastTerm = lastTerm ∧ r.lastIndex ≤ lastIndex

theorem BallotOnly.behind {s : Raft} (h : BallotOnly r s) : s.Behind = r.Behind := by
  funext t i
  simp only [Behind, h.lastTerm, h.lastIndex]

theorem logOk_of_behind {req : RequestVoteReq} (h : r.Behind req.lastLogTerm req.lastLogIndex) :
    r.logOk req = true := by
  simp only [logOk, Bool.or_eq_true, Bool.and_eq_true, decide_eq_true_eq]
  rcases h with h | ⟨h, h'⟩
  · exact .inl h
  · exact .inr ⟨h.symm, h'⟩

/-- A poll is answered with the own term, and changes nothing else. -/
theorem handleRequestVote_poll {req : RequestVoteReq} (hpre : req.preVote = true) :
    ∃ granted, r.handleRequestVote c req = r.send c (.requestVoteResp
        { term := r.currentTerm, granted := granted, preVote := true }) ∧
      (req.term ≠ 0 → r.currentTerm ≤ req.term → r.Behind req.lastLogTerm req.lastLogIndex →
        r.leaderId = none → granted = true) := by
  unfold handleRequestVote
  simp only [hpre, Bool.not_true, Bool.false_and, Bool.false_eq_true, if_false, if_true]
  by_cases h0 : req.term = 0
  · rw [if_pos h0]
    exact ⟨false, rfl, fun h => absurd h0 h⟩
  rw [if_neg h0]
  by_cases hstale : req.term < r.currentTerm
  · rw [if_pos hstale]
    exact ⟨false, rfl, fun _ hle => absurd hstale (Nat.not_lt.mpr hle)⟩
  · rw [if_neg hstale]
    refine ⟨_, rfl, fun _ _ hbehind hleader => ?_⟩
    rw [logOk_of_behind hbehind, hleader]
    rfl

/-- A candidacy in a later term gets the vote of a member whose log is no further. -/
theorem handleRequestVote_stand {req : RequestVoteReq} (hpre : req.preVote = false)
    (hterm : r.currentTerm < req.term) (hbehind : r.Behind req.lastLogTerm req.lastLogIndex) :
    ∃ g : Raft, r.handleRequestVote c req = g.send c (.requestVoteResp
        { term := req.term, granted := true, preVote := false }) ∧
      g.persistedSnapshot =
        { r.persistedSnapshot with currentTerm := req.term, votedFor := some c } := by
  have hcore := core_becomeFollower r req.term none
  rw [Core.follow_of_lt hterm] at hcore
  have hlast : (r.becomeFollower req.term none).logOk req = true := by
    refine logOk_of_behind ?_
    have hlog : (r.becomeFollower req.term none).log = r.log := congrArg Core.log hcore
    have hbase : (r.becomeFollower req.term none).baseIndex = r.baseIndex :=
      congrArg Core.baseIndex hcore
    have hbt : (r.becomeFollower req.term none).baseTerm = r.baseTerm :=
      congrArg Core.baseTerm hcore
    simp only [Behind, lastTerm, lastIndex, hlog, hbase, hbt]
    exact hbehind
  have hcur : (r.becomeFollower req.term none).currentTerm = req.term :=
    congrArg Core.currentTerm hcore
  have hvote : (r.becomeFollower req.term none).votedFor = none := congrArg Core.votedFor hcore
  refine ⟨(r.becomeFollower req.term none).recordVote c, ?_, ?_⟩
  · unfold handleRequestVote
    simp only [hpre, Bool.not_false, Bool.true_and, gt_iff_lt, hterm, decide_true, if_true, hcur,
      Nat.lt_irrefl, if_false, Bool.false_eq_true, hvote, hlast]
    rw [if_neg (by omega)]
    simp [recordVote, hcur, resetElectionTimer, nextRand]
  · exact congrArg (fun s : Persisted => { s with votedFor := some c })
      (persistedSnapshot_becomeFollower hterm none)

/-! ## Counting -/

/-- A candidate with one more vote. -/
def tally (r : Raft) (v : NodeId) : Raft := { r with votes := insert v r.votes }

theorem handleVoteResp_later {v : NodeId} {resp : RequestVoteResp}
    (hterm : r.currentTerm < resp.term) :
    r.handleVoteResp v resp = r.becomeFollower resp.term none := if_pos hterm

theorem handleVoteResp_poll {v : NodeId} {t : Nat} (hterm : t ≤ r.currentTerm)
    (hrole : r.role = .preCandidate) :
    r.handleVoteResp v { term := t, granted := true, preVote := true } =
      (r.tally v).maybeWinPreElection := by
  unfold handleVoteResp tally
  rw [if_neg (Nat.not_lt.mpr hterm)]
  simp only [Bool.not_true, Bool.false_eq_true, if_false, if_true, hrole]

theorem handleVoteResp_stand {v : NodeId} (hrole : r.role = .candidate) :
    r.handleVoteResp v { term := r.currentTerm, granted := true, preVote := false } =
      (r.tally v).maybeWinElection := by
  unfold handleVoteResp tally
  rw [if_neg (Nat.lt_irrefl _)]
  simp only [Bool.not_true, Bool.false_eq_true, if_false, hrole, and_self, if_true]

theorem maybeWinPreElection_of_lt (h : r.votes.card < r.quorum) : r.maybeWinPreElection = r :=
  if_neg fun hwin => Nat.not_lt.mpr hwin.2 h

theorem maybeWinElection_of_lt (h : r.votes.card < r.quorum) : r.maybeWinElection = r :=
  if_neg fun hwin => Nat.not_lt.mpr hwin.2 h

theorem quorum_poll (r : Raft) : r.poll.quorum = r.quorum := by
  rw [quorum, quorum, show r.poll.peers = r.peers from congrArg Core.peers (core_poll r)]

theorem quorum_stand (r : Raft) : r.stand.quorum = r.quorum := by
  rw [quorum, quorum, show r.stand.peers = r.peers from congrArg Core.peers (core_stand r)]

/-- With peers the own vote alone wins nothing. -/
theorem maybeWinPreElection_poll (hq : 1 < r.quorum) : r.poll.maybeWinPreElection = r.poll := by
  refine maybeWinPreElection_of_lt ?_
  rw [quorum_poll, show r.poll.votes = {r.id} from congrArg Core.votes (core_poll r),
    Finset.card_singleton]
  exact hq

/-- A tick that closes the election timeout polls. -/
theorem tick_of_closes (hl : r.role ≠ .leader)
    (hclose : r.randomizedElectionTimeout ≤ r.electionElapsed + 1) (hq : 1 < r.quorum) :
    r.tick = { r with electionElapsed := r.electionElapsed + 1 }.poll := by
  unfold tick
  rw [if_neg hl]
  exact (if_pos hclose).trans
    (maybeWinPreElection_poll (r := { r with electionElapsed := r.electionElapsed + 1 }) hq)

theorem tick_of_open (hl : r.role ≠ .leader)
    (hopen : r.electionElapsed + 1 < r.randomizedElectionTimeout) :
    r.tick = { r with electionElapsed := r.electionElapsed + 1 } := by
  unfold tick
  rw [if_neg hl]
  exact if_neg (Nat.not_le.mpr hopen)

theorem maybeWinPreElection_of_le (hrole : r.role = .preCandidate) (hq : 1 < r.quorum)
    (h : r.quorum ≤ r.votes.card) : r.maybeWinPreElection = r.stand := by
  rw [maybeWinPreElection, if_pos ⟨hrole, h⟩, startElection_eq]
  refine maybeWinElection_of_lt ?_
  rw [quorum_stand, show r.stand.votes = {r.id} from congrArg Core.votes (core_stand r),
    Finset.card_singleton]
  exact hq

theorem maybeWinElection_of_le (hrole : r.role = .candidate) (h : r.quorum ≤ r.votes.card) :
    r.maybeWinElection = r.becomeLeader := if_pos ⟨hrole, h⟩

theorem WellFormed.termAt_le (h : r.WellFormed) (i : Nat) : r.termAt i ≤ r.currentTerm := by
  rcases Nat.lt_trichotomy i r.baseIndex with hlt | rfl | hgt
  · rw [termAt_of_lt hlt]
    exact Nat.zero_le _
  · rw [termAt_base]
    exact h.baseTerm_le
  · by_cases hi : i ≤ r.lastIndex
    · exact (h.termAt_live hgt hi).2
    · rw [termAt_of_gt (Nat.not_le.mp hi)]
      exact Nat.zero_le _

/-! ## Replicating -/

/-- The append that `send_append` sends a peer whose next index is `next`. -/
def appendRequest (r : Raft) (next : Nat) : AppendEntriesReq where
  term := r.currentTerm
  leaderId := r.id
  prevLogIndex := next - 1
  prevLogTerm := r.termAt (next - 1)
  entries :=
    match r.logSlot next with
    | some slot => r.log.drop slot
    | none => []
  leaderCommit := r.commitIndex

/-- The snapshot that it sends a peer behind the log base. -/
def snapshotRequest (r : Raft) (data : Bytes) : InstallSnapshotReq where
  term := r.currentTerm
  leaderId := r.id
  lastIncludedIndex := r.baseIndex
  lastIncludedTerm := r.baseTerm
  data := data

theorem sendAppend_append {p : NodeId} {next : Nat} (hn : r.nextIndex p = some next)
    (hb : r.baseIndex < next) : r.sendAppend p = r.send p (.appendEntries (r.appendRequest next)) := by
  unfold sendAppend
  simp only [hn, Option.getD_some]
  exact if_neg (Nat.not_le.mpr hb)

theorem sendAppend_snapshot {p : NodeId} {next : Nat} {data : Bytes} (hn : r.nextIndex p = some next)
    (hb : next ≤ r.baseIndex) (hd : r.snapshot = some data) :
    r.sendAppend p =
      { r with snapshotInflight := Function.update r.snapshotInflight p (some r.baseIndex) }.send p
        (.installSnapshot (r.snapshotRequest data)) := by
  unfold sendAppend sendSnapshot
  simp only [hn, Option.getD_some, hb, if_true, hd]
  rfl

theorem appendRequest_congr {s : Raft} (h : s.core = r.core) (next : Nat) :
    s.appendRequest next = r.appendRequest next := by
  injection h with hid _ hterm _ hlog hbase hbt _ _ hcommit
  have hlast : s.lastIndex = r.lastIndex := by simp only [lastIndex, hlog, hbase]
  have hslot : s.logSlot = r.logSlot := by funext i; simp only [logSlot, hlast, hbase]
  have hat : s.termAt = r.termAt := by funext i; simp only [termAt, hslot, hbase, hbt, hlog]
  simp only [appendRequest, hid, hterm, hlog, hcommit, hslot, hat]

theorem out_sendAppend_subset (r : Raft) (p : NodeId) : r.out ⊆ (r.sendAppend p).out := by
  unfold sendAppend
  simp only
  split
  · unfold sendSnapshot
    split
    · exact List.Subset.refl _
    · exact List.subset_append_left _ _
  · exact List.subset_append_left _ _

/-- A broadcast reaches every peer that is not behind the log base. -/
theorem mem_broadcastAppend {p : NodeId} {next : Nat} (hp : p ∈ r.peers)
    (hn : r.nextIndex p = some next) (hb : r.baseIndex < next) :
    ⟨p, .appendEntries (r.appendRequest next)⟩ ∈ r.broadcastAppend.out := by
  have key : ∀ (l : List NodeId) (s : Raft), s.core = r.core → s.nextIndex = r.nextIndex →
      (⟨p, .appendEntries (r.appendRequest next)⟩ ∈ s.out ∨ p ∈ l) →
      ⟨p, .appendEntries (r.appendRequest next)⟩ ∈ (l.foldl sendAppend s).out := by
    intro l
    induction l with
    | nil =>
      rintro s - - (h | h)
      · exact h
      · cases h
    | cons q rest ih =>
      intro s hc hnext h
      refine ih _ ((core_sendAppend s q).trans hc)
        ((congrArg Office.nextIndex (office_sendAppend s q)).trans hnext) ?_
      rcases h with h | h
      · exact .inl (out_sendAppend_subset s q h)
      · rcases List.mem_cons.mp h with rfl | h
        · left
          have hbase : s.baseIndex = r.baseIndex := congrArg Core.baseIndex hc
          rw [sendAppend_append (hnext ▸ hn) (hbase ▸ hb), appendRequest_congr hc]
          exact List.mem_append_right _ (List.mem_singleton.mpr rfl)
        · exact .inr h
  exact key r.peers r rfl rfl (.inr hp)

/-- A fresh leader offers every peer its no-op. -/
theorem mem_becomeLeader {p : NodeId} (hp : p ∈ r.peers) :
    r.becomeLeader.nextIndex p = some (r.lastIndex + 1) ∧
      ⟨p, .appendEntries (r.becomeLeader.appendRequest (r.lastIndex + 1))⟩ ∈
        r.becomeLeader.out := by
  obtain ⟨⟨_, _, hoffice⟩, _⟩ := becomeLeader_frame r
  have hnext : r.becomeLeader.nextIndex p = some (r.lastIndex + 1) := by
    rw [show r.becomeLeader.nextIndex = _ from congrArg Office.nextIndex hoffice]
    exact if_pos hp
  refine ⟨hnext, ?_⟩
  unfold becomeLeader
  simp only
  generalize hf : ({ ({ r with
      role := .leader
      leaderId := some r.id
      nextIndex := fun p => if p ∈ r.peers then some (r.lastIndex + 1) else none
      matchIndex := fun p => if p ∈ r.peers then some 0 else none
      snapshotInflight := fun _ => none } : Raft).pushEntry none with
    heartbeatElapsed := 0, ackedSinceCheck := ∅ } : Raft).resetElectionTimer = f
  have hpeers : f.peers = r.peers := by
    rw [← hf]
    rfl
  have hbase : f.baseIndex = r.baseIndex := by
    rw [← hf]
    rfl
  have hfnext : f.nextIndex p = some (r.lastIndex + 1) := by
    rw [← hf]
    exact if_pos hp
  rw [appendRequest_congr (core_broadcastAppend f)]
  refine mem_broadcastAppend (hpeers ▸ hp) hfnext ?_
  rw [hbase, lastIndex]
  omega

end FiduciaBrain.Raft
