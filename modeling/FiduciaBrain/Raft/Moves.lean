import FiduciaBrain.Raft.Core
import FiduciaBrain.Raft.Append
import Mathlib.Logic.Relation

/-!
# What a call to the engine can do

Every call breaks into moves (`Move`), each a small change of the core with what it adds to the
outbox. `Raft/Handlers.lean` breaks the calls up, once and for all; the invariants of the engine
and of the cluster are proved move by move and never unfold a handler.
-/

namespace FiduciaBrain.Raft

/-! ## Stepping down -/

/-- Follow term `t`: adopt it if it is later, and give up any role. -/
def Core.follow (c : Core) (t : Nat) : Core :=
  if t > c.currentTerm then
    { c with currentTerm := t, votedFor := none, dirty := true, role := .follower, votes := ∅ }
  else { c with role := .follower, votes := ∅ }

@[simp] theorem core_becomeFollower (r : Raft) (t : Nat) (l : Option NodeId) :
    (r.becomeFollower t l).core = r.core.follow t := by
  unfold becomeFollower Core.follow
  by_cases h : t > r.currentTerm
  · simp only [core, h, if_pos]
    rfl
  · simp only [core, h, if_neg, not_false_iff]
    rfl

@[simp] theorem out_becomeFollower (r : Raft) (t : Nat) (l : Option NodeId) :
    (r.becomeFollower t l).out = r.out := by
  unfold becomeFollower
  simp only [out_resetElectionTimer]
  split <;> rfl

namespace Core

theorem follow_of_lt {c : Core} {t : Nat} (h : c.currentTerm < t) : c.follow t =
    { c with currentTerm := t, votedFor := none, dirty := true, role := .follower, votes := ∅ } :=
  if_pos h

theorem follow_of_le {c : Core} {t : Nat} (h : t ≤ c.currentTerm) :
    c.follow t = { c with role := .follower, votes := ∅ } := if_neg (Nat.not_lt.mpr h)

theorem currentTerm_follow {c : Core} {t : Nat} (h : c.currentTerm ≤ t) :
    (c.follow t).currentTerm = t := by
  rcases Nat.lt_or_eq_of_le h with hlt | rfl
  · rw [follow_of_lt hlt]
  · rw [follow_of_le (Nat.le_refl _)]

theorem follow_follow {c : Core} {t : Nat} (h : c.currentTerm ≤ t) :
    (c.follow t).follow t = c.follow t := by
  rw [follow_of_le (c := c.follow t) (currentTerm_follow h).ge]
  unfold follow
  split <;> rfl

end Core

/-- The check every request from a peer starts with: adopt its term if it is later. -/
def adopt (r : Raft) (t : Nat) : Raft := if t > r.currentTerm then r.becomeFollower t none else r

theorem core_adopt (r : Raft) (t : Nat) :
    (r.adopt t).core = r.core ∨ r.currentTerm < t ∧ (r.adopt t).core = r.core.follow t := by
  unfold adopt
  split
  · next h => exact Or.inr ⟨h, core_becomeFollower r t none⟩
  · exact Or.inl rfl

@[simp] theorem out_adopt (r : Raft) (t : Nat) : (r.adopt t).out = r.out := by
  unfold adopt
  split
  · exact out_becomeFollower r t none
  · rfl

/-- The follower a structurally valid request of term `t` is handled by. -/
theorem core_follow_adopt {r : Raft} {t : Nat} (h : r.currentTerm ≤ t) (l : Option NodeId) :
    ((r.adopt t).becomeFollower t l).core = r.core.follow t := by
  rw [core_becomeFollower]
  rcases core_adopt r t with hc | ⟨_, hc⟩
  · rw [hc]
  · rw [hc, Core.follow_follow h]

/-! ## Elections -/

/-- `start_pre_election` up to the tally. -/
def poll (r : Raft) : Raft :=
  let r := { r.resetElectionTimer with role := .preCandidate, votes := {r.id} }
  r.sendAll (.requestVote
    { term := r.currentTerm + 1
      candidateId := r.id
      lastLogIndex := r.lastIndex
      lastLogTerm := r.lastTerm
      preVote := true })

theorem startPreElection_eq (r : Raft) : r.startPreElection = r.poll.maybeWinPreElection := rfl

@[simp] theorem core_poll (r : Raft) :
    r.poll.core = { r.core with role := .preCandidate, votes := {r.id} } := by
  unfold poll
  simp only [core_sendAll]
  rfl

theorem mem_out_poll {r : Raft} {m : Addressed} (h : m ∈ r.poll.out) :
    m ∈ r.out ∨ ∃ req, m.msg = .requestVote req ∧ req.preVote = true := by
  rcases mem_out_sendAll h with h | h
  · exact Or.inl h
  · exact Or.inr ⟨_, h, rfl⟩

/-- `start_election` up to the tally. -/
def stand (r : Raft) : Raft :=
  let r := { r with
    currentTerm := r.currentTerm + 1
    votedFor := some r.id
    dirty := true
    role := .candidate
    leaderId := none }.resetElectionTimer
  let r := { r with votes := {r.id} }
  r.sendAll (.requestVote
    { term := r.currentTerm
      candidateId := r.id
      lastLogIndex := r.lastIndex
      lastLogTerm := r.lastTerm
      preVote := false })

theorem startElection_eq (r : Raft) : r.startElection = r.stand.maybeWinElection := rfl

@[simp] theorem core_stand (r : Raft) :
    r.stand.core = { r.core with
      currentTerm := r.currentTerm + 1
      votedFor := some r.id
      dirty := true
      role := .candidate
      votes := {r.id} } := by
  unfold stand
  simp only [core_sendAll]
  rfl

theorem mem_out_stand {r : Raft} {m : Addressed} (h : m ∈ r.stand.out) :
    m ∈ r.out ∨ m.msg = .requestVote
      { term := r.currentTerm + 1
        candidateId := r.id
        lastLogIndex := r.lastIndex
        lastLogTerm := r.lastTerm
        preVote := false } := by
  unfold stand at h
  rcases mem_out_sendAll h with h | h
  · exact Or.inl h
  · exact Or.inr h

/-- The entry a fresh leader writes. -/
def noop (r : Raft) : LogEntry := { term := r.currentTerm, index := r.lastIndex + 1, command := none }

@[simp] theorem core_becomeLeader (r : Raft) :
    r.becomeLeader.core = { r.core with
      role := .leader
      matchIndex := fun p => if p ∈ r.peers then some 0 else none
      log := r.log ++ [r.noop]
      dirty := true } := by
  unfold becomeLeader
  simp only [core_broadcastAppend, core_resetElectionTimer]
  rfl

theorem mem_out_becomeLeader {r : Raft} {m : Addressed} (h : m ∈ r.becomeLeader.out) :
    m ∈ r.out ∨ Replication r.becomeLeader m.msg := by
  rcases mem_out_broadcastAppend h with h | h
  · exact Or.inl h
  · exact Or.inr (h.congr (core_broadcastAppend _).symm)

/-! ## Moves -/

/-- What the driver calls the engine with. -/
inductive Input
  | tick
  | step (sender : NodeId) (msg : RaftMessage)
  | propose (command : Command)
  | compact (index : Nat) (snapshot : Bytes)
  deriving DecidableEq, Repr

/-- The engine after a call. -/
def run (r : Raft) : Input → Raft
  | .tick => r.tick
  | .step sender msg => r.step sender msg
  | .propose command => (r.propose command).2
  | .compact index snapshot => r.compact index snapshot

/-- Messages that commit their sender to nothing: a leader's requests, straw polls, refusals. -/
inductive Idle (r : Raft) : RaftMessage → Prop
  | replication {msg} : r.role = .leader → Replication r msg → Idle r msg
  | poll {req} : req.preVote = true → Idle r (.requestVote req)
  | denied {resp} : (resp.granted = true → resp.preVote = true) → Idle r (.requestVoteResp resp)
  | refused {resp} : resp.success = false → Idle r (.appendEntriesResp resp)
  | declined {resp} : resp.success = false → Idle r (.installSnapshotResp resp)

theorem Idle.congr {r r' : Raft} (h : r.core = r'.core) {msg : RaftMessage} (hm : Idle r msg) :
    Idle r' msg := by
  cases hm with
  | replication hl hr => exact .replication ((congrArg Core.role h).symm.trans hl) (hr.congr h)
  | poll hp => exact .poll hp
  | denied hd => exact .denied hd
  | refused hr => exact .refused hr
  | declined hd => exact .declined hd

/-- What `spliceEntries` makes of an engine when it takes a whole run of entries. -/
def Took (r g : Raft) (entries : List LogEntry) : Prop :=
  (r.Agrees entries ∧ g = r) ∨
    ∃ pre e post, entries = pre ++ e :: post ∧ r.Agrees pre ∧
      ¬ (e.index ≤ r.lastIndex ∧ r.termAt e.index = e.term) ∧ r.commitIndex < e.index ∧
      e.index ≤ r.lastIndex + 1 ∧ g = r.replaceFrom e post

/-- A successful response of term `t` that acknowledges the log at least up to `n`. -/
inductive Acknowledges (t n : Nat) : RaftMessage → Prop
  | append {resp} : resp.success = true → resp.term = t → n ≤ resp.matchIndex →
      Acknowledges t n (.appendEntriesResp resp)
  | snapshot {resp} : resp.success = true → resp.term = t → n ≤ resp.lastIncludedIndex →
      Acknowledges t n (.installSnapshotResp resp)

/-- One move of a call with input `i`. -/
inductive Move (i : Input) (r r' : Raft) : Prop
  | quiet : r'.core = r.core → (∀ m ∈ r'.out, m ∈ r.out ∨ Idle r' m.msg) → Move i r r'
  | follow (t : Nat) : r'.core = r.core.follow t → r'.out = r.out → Move i r r'
  | poll : r.role ≠ .leader → r' = r.poll → Move i r r'
  | stand : r.role = .preCandidate → r' = r.stand → Move i r r'
  | tally (v : NodeId) (resp : RequestVoteResp) : i = .step v (.requestVoteResp resp) →
      resp.granted = true →
      r.role = .preCandidate ∨
        r.role = .candidate ∧ resp.term = r.currentTerm ∧ resp.preVote = false →
      r' = { r with votes := insert v r.votes } → Move i r r'
  | lead : r.role = .candidate → r.quorum ≤ r.votes.card → r' = r.becomeLeader → Move i r r'
  | grant (c : NodeId) (req : RequestVoteReq) : i = .step c (.requestVote req) →
      req.preVote = false → req.term = r.currentTerm → r.currentTerm ≠ 0 →
      r.votedFor = none ∨ r.votedFor = some c → r.logOk req = true →
      r'.core = { r.core with votedFor := some c, dirty := true } →
      r'.out = r.out ++ [⟨c, .requestVoteResp
        { term := r.currentTerm, granted := true, preVote := false }⟩] → Move i r r'
  | append (l : NodeId) (req : AppendEntriesReq) (g : Raft) : i = .step l (.appendEntries req) →
      r.role = .follower → req.term = r.currentTerm → entriesAreContiguous req = true →
      req.prevLogIndex ≤ r.lastIndex →
      (0 < req.prevLogIndex → r.termAt req.prevLogIndex = req.prevLogTerm) →
      Took r g req.entries →
      r'.core = (g.commitThrough true
        (min req.leaderCommit (req.prevLogIndex + req.entries.length))).core →
      r'.out = r.out ++ [⟨l, .appendEntriesResp
        { term := r.currentTerm
          success := true
          matchIndex := req.prevLogIndex + req.entries.length }⟩] → Move i r r'
  | covered (l : NodeId) (req : InstallSnapshotReq) : i = .step l (.installSnapshot req) →
      r.role = .follower → req.term = r.currentTerm → snapshotMetadataIsValid req = true →
      req.lastIncludedIndex ≤ r.baseIndex ∨ req.lastIncludedIndex ≤ r.commitIndex →
      r'.core = r.core →
      r'.out = r.out ++ [⟨l, .installSnapshotResp
        { term := r.currentTerm
          success := true
          lastIncludedIndex := req.lastIncludedIndex }⟩] → Move i r r'
  | install (l : NodeId) (req : InstallSnapshotReq) : i = .step l (.installSnapshot req) →
      r.role = .follower → req.term = r.currentTerm → snapshotMetadataIsValid req = true →
      r.baseIndex < req.lastIncludedIndex → r.commitIndex < req.lastIncludedIndex →
      r'.core = (r.installSnapshot req).core →
      r'.out = r.out ++ [⟨l, .installSnapshotResp
        { term := r.currentTerm
          success := true
          lastIncludedIndex := req.lastIncludedIndex }⟩] → Move i r r'
  | matched (p : NodeId) (msg : RaftMessage) (n : Nat) : i = .step p msg → r.role = .leader →
      Acknowledges r.currentTerm n msg →
      r'.core = { r.core with
        matchIndex := Function.update r.matchIndex p (some (max n ((r.matchIndex p).getD 0))) } →
      r'.out = r.out → Move i r r'
  | advance (n : Nat) : r.role = .leader → r.commitIndex < n → n ≤ r.lastIndex →
      r.termAt n = r.currentTerm → r.quorum ≤ r.replicaCount n →
      r' = { r with commitIndex := n, dirty := true } → Move i r r'
  | push (c : Command) : i = .propose c → r.role = .leader → r' = r.pushEntry (some c) →
      Move i r r'
  | compact (index : Nat) (snapshot : Bytes) : i = .compact index snapshot →
      r.baseIndex < index → index ≤ r.commitIndex → r' = r.compact index snapshot → Move i r r'

/-- A call, broken into moves. -/
def Moves (i : Input) : Raft → Raft → Prop := Relation.ReflTransGen (Move i)

theorem Moves.refl {i : Input} (r : Raft) : Moves i r r := Relation.ReflTransGen.refl

theorem Move.moves {i : Input} {r r' : Raft} (h : Move i r r') : Moves i r r' :=
  Relation.ReflTransGen.single h

theorem Moves.trans {i : Input} {r s t : Raft} (h : Moves i r s) (h' : Moves i s t) :
    Moves i r t := Relation.ReflTransGen.trans h h'

theorem Moves.tail {i : Input} {r s t : Raft} (h : Moves i r s) (h' : Move i s t) :
    Moves i r t := Relation.ReflTransGen.tail h h'

/-- **Move rule.** What every move keeps, a call keeps. -/
theorem Moves.preserves {i : Input} {P : Raft → Prop}
    (hmove : ∀ r r', P r → Move i r r' → P r') {r r' : Raft} (h : Moves i r r') (hp : P r) :
    P r' := by
  induction h with
  | refl => exact hp
  | tail _ hm ih => exact hmove _ _ ih hm

end FiduciaBrain.Raft
