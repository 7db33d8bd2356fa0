import FiduciaBrain.Raft.Types
import Mathlib.Data.Finset.Card
import Mathlib.Logic.Function.Basic

/-!
# The engine

`src/raft.rs`, function by function. A `&mut self` method is a function from the engine to the
engine; a loop with early exits is a recursion on what it iterates over.
-/

namespace FiduciaBrain

/-- Do the entries run on from `prevLogIndex + 1`, none of them ahead of the sender's term? -/
def entriesAreContiguous (req : AppendEntriesReq) : Bool :=
  if req.term = 0 ∨ decide (req.prevLogIndex = 0) ≠ decide (req.prevLogTerm = 0) then false
  else go 0 req.prevLogTerm req.entries
where
  go (position previousTerm : Nat) : List LogEntry → Bool
    | [] => true
    | entry :: rest =>
      match (checkedAdd req.prevLogIndex 1).bind (checkedAdd · position) with
      | none => false
      | some expectedIndex =>
        if entry.index ≠ expectedIndex ∨ entry.term = 0 ∨ entry.term < previousTerm ∨
            entry.term > req.term then false
        else go (position + 1) entry.term rest

def snapshotMetadataIsValid (req : InstallSnapshotReq) : Bool :=
  0 < req.term && 0 < req.lastIncludedIndex && 0 < req.lastIncludedTerm &&
    req.lastIncludedTerm ≤ req.term

namespace Raft

/-! ## Views -/

/-- The current durable state. -/
def persistedSnapshot (r : Raft) : Persisted where
  currentTerm := r.currentTerm
  votedFor := r.votedFor
  commitIndex := r.commitIndex
  log := r.log
  baseIndex := r.baseIndex
  baseTerm := r.baseTerm
  snapshot := r.snapshot

def isLeader (r : Raft) : Bool := r.role = .leader

/-- `peers.len().div_ceil(2) + 1`. -/
def quorum (r : Raft) : Nat := (r.peers.length + 1) / 2 + 1

def lastIndex (r : Raft) : Nat := r.baseIndex + r.log.length

def lastTerm (r : Raft) : Nat := (r.log.getLast?.map LogEntry.term).getD r.baseTerm

/-- Slab position of a log index, `none` if it is compacted or beyond the end. -/
def logSlot (r : Raft) (index : Nat) : Option Nat :=
  if index ≤ r.baseIndex ∨ index > r.lastIndex then none else some (index - r.baseIndex - 1)

/-- Term at a log index: `baseTerm` at the snapshot boundary, 0 below it and beyond the log. -/
def termAt (r : Raft) (index : Nat) : Nat :=
  if index = r.baseIndex then r.baseTerm
  else ((r.logSlot index).bind (r.log[·]?) |>.map LogEntry.term).getD 0

/-! ## Timer and outbox -/

/-- One xorshift step. -/
def nextRand (r : Raft) : UInt64 × Raft :=
  let x := r.rng
  let x := x ^^^ (x <<< 13)
  let x := x ^^^ (x >>> 7)
  let x := x ^^^ (x <<< 17)
  (x, { r with rng := x })

def resetElectionTimer (r : Raft) : Raft :=
  let r := { r with electionElapsed := 0 }
  let min := max r.cfg.electionMinTicks 1
  let max := max r.cfg.electionMaxTicks min
  let span := max - min + 1
  let (x, r) := r.nextRand
  { r with randomizedElectionTimeout := min + x.toNat % span }

def send (r : Raft) (recipient : NodeId) (msg : RaftMessage) : Raft :=
  { r with out := r.out ++ [⟨recipient, msg⟩] }

/-- Send one and the same message to each peer in turn. -/
def sendAll (r : Raft) (msg : RaftMessage) : Raft := r.peers.foldl (fun r p => r.send p msg) r

/-- Construct a member from its durable state. -/
def new (id : NodeId) (peers : List NodeId) (cfg : RaftConfig) (seed : UInt64)
    (restored : Persisted) : Raft :=
  resetElectionTimer
    { id := id
      peers := peers
      cfg := cfg
      currentTerm := restored.currentTerm
      votedFor := restored.votedFor
      log := restored.log
      baseIndex := restored.baseIndex
      baseTerm := restored.baseTerm
      snapshot := restored.snapshot
      role := .follower
      commitIndex := restored.commitIndex
      lastApplied := restored.baseIndex
      leaderId := none
      pendingRestore := false
      votes := ∅
      ackedSinceCheck := ∅
      nextIndex := fun _ => none
      matchIndex := fun _ => none
      snapshotInflight := fun _ => none
      electionElapsed := 0
      heartbeatElapsed := 0
      randomizedElectionTimeout := 0
      rng := seed ||| 1
      out := []
      dirty := false }

/-! ## Replication -/

/-- Ship the current snapshot to a follower behind the log base. The `None` arm is the release
build's: it skips the peer. -/
def sendSnapshot (r : Raft) (peer : NodeId) : Raft :=
  match r.snapshot with
  | none => r
  | some data =>
    let req : InstallSnapshotReq :=
      { term := r.currentTerm
        leaderId := r.id
        lastIncludedIndex := r.baseIndex
        lastIncludedTerm := r.baseTerm
        data := data }
    { r with snapshotInflight := Function.update r.snapshotInflight peer (some r.baseIndex) }
      |>.send peer (.installSnapshot req)

def sendAppend (r : Raft) (peer : NodeId) : Raft :=
  let next := (r.nextIndex peer).getD (r.lastIndex + 1)
  if next ≤ r.baseIndex then r.sendSnapshot peer
  else
    let prevLogIndex := next - 1
    let req : AppendEntriesReq :=
      { term := r.currentTerm
        leaderId := r.id
        prevLogIndex := prevLogIndex
        prevLogTerm := r.termAt prevLogIndex
        entries := match r.logSlot next with
          | some slot => r.log.drop slot
          | none => []
        leaderCommit := r.commitIndex }
    r.send peer (.appendEntries req)

def broadcastAppend (r : Raft) : Raft := r.peers.foldl sendAppend r

/-- How many members, this one included, are known to hold the log up to `n`. -/
def replicaCount (r : Raft) (n : Nat) : Nat :=
  1 + r.peers.countP (fun peer => decide ((r.matchIndex peer).getD 0 ≥ n))

/-- The last index of the current term above `commitIndex` that a quorum holds. -/
def newCommit (r : Raft) : Nat :=
  (List.range' (r.commitIndex + 1) (r.lastIndex - r.commitIndex)).foldl
    (fun newCommit n =>
      if r.termAt n ≠ r.currentTerm then newCommit
      else if r.replicaCount n ≥ r.quorum then n
      else newCommit)
    r.commitIndex

def maybeAdvanceCommit (r : Raft) : Bool × Raft :=
  if r.newCommit > r.commitIndex then
    (true, { r with commitIndex := r.newCommit, dirty := true })
  else (false, r)

/-! ## Elections -/

def becomeFollower (r : Raft) (term : Nat) (leader : Option NodeId) : Raft :=
  let r := if term > r.currentTerm then
      { r with currentTerm := term, votedFor := none, dirty := true }
    else r
  { r with role := .follower, leaderId := leader, votes := ∅, snapshotInflight := fun _ => none }
    |>.resetElectionTimer

/-- Append an entry of the current term to the log. -/
def pushEntry (r : Raft) (command : Option Command) : Raft :=
  { r with
    log := r.log ++ [{ term := r.currentTerm, index := r.lastIndex + 1, command := command }]
    dirty := true }

def becomeLeader (r : Raft) : Raft :=
  let next := r.lastIndex + 1
  let r := { r with
    role := .leader
    leaderId := some r.id
    nextIndex := fun p => if p ∈ r.peers then some next else none
    matchIndex := fun p => if p ∈ r.peers then some 0 else none
    snapshotInflight := fun _ => none }
  -- the no-op that lets the leader commit what it inherited
  let r := r.pushEntry none
  { r with heartbeatElapsed := 0, ackedSinceCheck := ∅ }.resetElectionTimer.broadcastAppend

def maybeWinElection (r : Raft) : Raft :=
  if r.role = .candidate ∧ r.votes.card ≥ r.quorum then r.becomeLeader else r

/-- Bump the term, vote for self, solicit votes. -/
def startElection (r : Raft) : Raft :=
  let r := { r with
    currentTerm := r.currentTerm + 1
    votedFor := some r.id
    dirty := true
    role := .candidate
    leaderId := none }.resetElectionTimer
  let r := { r with votes := {r.id} }
  let req : RequestVoteReq :=
    { term := r.currentTerm
      candidateId := r.id
      lastLogIndex := r.lastIndex
      lastLogTerm := r.lastTerm
      preVote := false }
  (r.sendAll (.requestVote req)).maybeWinElection

def maybeWinPreElection (r : Raft) : Raft :=
  if r.role = .preCandidate ∧ r.votes.card ≥ r.quorum then r.startElection else r

/-- Begin a PreVote round: no term bump, no state change a peer can see. -/
def startPreElection (r : Raft) : Raft :=
  let r := { r.resetElectionTimer with role := .preCandidate, votes := {r.id} }
  let req : RequestVoteReq :=
    { term := r.currentTerm + 1
      candidateId := r.id
      lastLogIndex := r.lastIndex
      lastLogTerm := r.lastTerm
      preVote := true }
  (r.sendAll (.requestVote req)).maybeWinPreElection

/-! ## Time -/

/-- A leader's heartbeat on a tick. -/
def tickHeartbeat (r : Raft) : Raft :=
  let r := { r with heartbeatElapsed := r.heartbeatElapsed + 1 }
  if r.heartbeatElapsed ≥ r.cfg.heartbeatTicks then
    { r with heartbeatElapsed := 0 }.broadcastAppend
  else r

/-- A leader's check-quorum on a tick. -/
def tickCheckQuorum (r : Raft) : Raft :=
  let r := { r with electionElapsed := r.electionElapsed + 1 }
  if r.electionElapsed ≥ r.randomizedElectionTimeout then
    let reachable := r.ackedSinceCheck.card + 1
    let r := { r with ackedSinceCheck := ∅ }
    if reachable < r.quorum then r.becomeFollower r.currentTerm none else r.resetElectionTimer
  else r

def tick (r : Raft) : Raft :=
  if r.role = .leader then r.tickHeartbeat.tickCheckQuorum
  else
    let r := { r with electionElapsed := r.electionElapsed + 1 }
    if r.electionElapsed ≥ r.randomizedElectionTimeout then r.startPreElection else r

/-! ## Inbound -/

/-- Is the candidate's log at least as up to date as this one? -/
def logOk (r : Raft) (req : RequestVoteReq) : Bool :=
  req.lastLogTerm > r.lastTerm ||
    (req.lastLogTerm = r.lastTerm && req.lastLogIndex ≥ r.lastIndex)

/-- Record a real vote for `candidate`. -/
def recordVote (r : Raft) (candidate : NodeId) : Raft :=
  { r with votedFor := some candidate, dirty := true }.resetElectionTimer

def handleRequestVote (r : Raft) (candidate : NodeId) (req : RequestVoteReq) : Raft :=
  let respond (r : Raft) (granted : Bool) : Raft :=
    r.send candidate
      (.requestVoteResp { term := r.currentTerm, granted := granted, preVote := req.preVote })
  if req.term = 0 then respond r false
  else
    let r := if !req.preVote && req.term > r.currentTerm then r.becomeFollower req.term none
      else r
    if req.term < r.currentTerm then respond r false
    else if req.preVote then
      let noTrustedLeader := r.leaderId.isNone || r.electionElapsed ≥ r.cfg.electionMinTicks
      respond r (r.logOk req && noTrustedLeader)
    else
      let free := r.votedFor.isNone || r.votedFor == some candidate
      if free && r.logOk req && req.term = r.currentTerm then respond (r.recordVote candidate) true
      else respond r false

def handleVoteResp (r : Raft) (voter : NodeId) (resp : RequestVoteResp) : Raft :=
  if resp.term > r.currentTerm then r.becomeFollower resp.term none
  else if !resp.granted then r
  else if resp.preVote then
    if r.role = .preCandidate then
      { r with votes := insert voter r.votes }.maybeWinPreElection
    else r
  else if r.role = .candidate ∧ resp.term = r.currentTerm then
    { r with votes := insert voter r.votes }.maybeWinElection
  else r

/-- Drop the entries from `index` on, reporting whether it was safe to do so. -/
def truncateFrom (r : Raft) (index : Nat) : Bool × Raft :=
  if index ≤ r.commitIndex then (false, r)
  else
    match r.logSlot index with
    | some slot => (true, { r with log := r.log.take slot, dirty := true })
    | none => (true, r)

/-- The loop of `handle_append`: skip what is there, truncate at a conflict, push the rest.
Returns whether all entries were taken and the highest index proved equal. -/
def spliceEntries (r : Raft) (confirmed : Nat) : List LogEntry → Raft × Bool × Nat
  | [] => (r, true, confirmed)
  | entry :: rest =>
    if entry.index ≤ r.lastIndex then
      if r.termAt entry.index ≠ entry.term then
        match r.truncateFrom entry.index with
        | (false, r) => (r, false, confirmed)
        | (true, r) =>
          spliceEntries { r with log := r.log ++ [entry], dirty := true } entry.index rest
      else spliceEntries r entry.index rest
    else spliceEntries { r with log := r.log ++ [entry], dirty := true } entry.index rest

/-- Move the commit point up to what the request proved. -/
def commitThrough (r : Raft) (spliced : Bool) (commit : Nat) : Raft :=
  if spliced ∧ commit > r.commitIndex then { r with commitIndex := commit, dirty := true } else r

def handleAppend (r : Raft) (leader : NodeId) (req : AppendEntriesReq) : Raft :=
  let respond (r : Raft) (success : Bool) (matchIndex : Nat) : Raft :=
    r.send leader
      (.appendEntriesResp { term := r.currentTerm, success := success, matchIndex := matchIndex })
  if req.term < r.currentTerm then respond r false 0
  else
    let r := if req.term > r.currentTerm then r.becomeFollower req.term none else r
    if !entriesAreContiguous req then respond r false r.lastIndex
    else
      let r := r.becomeFollower req.term (some leader)
      if req.prevLogIndex > r.lastIndex then respond r false r.lastIndex
      else if req.prevLogIndex > 0 ∧ r.termAt req.prevLogIndex ≠ req.prevLogTerm then
        respond r false (req.prevLogIndex - 1)
      else
        let (r, spliced, confirmed) := r.spliceEntries req.prevLogIndex req.entries
        respond (r.commitThrough spliced (min req.leaderCommit confirmed)) spliced confirmed

/-- Take a peer's acknowledgement of the log up to `acknowledged` into the bookkeeping. -/
def recordMatch (r : Raft) (peer : NodeId) (acknowledged : Nat) : Raft :=
  let matched := max acknowledged ((r.matchIndex peer).getD 0)
  let r := { r with
    matchIndex := Function.update r.matchIndex peer (some matched)
    nextIndex := Function.update r.nextIndex peer (some (saturatingAdd matched 1)) }
  let (advanced, r) := r.maybeAdvanceCommit
  if advanced then r.broadcastAppend else r

def handleAppendResp (r : Raft) (peer : NodeId) (resp : AppendEntriesResp) : Raft :=
  if resp.term > r.currentTerm then r.becomeFollower resp.term none
  else if r.role ≠ .leader ∨ resp.term ≠ r.currentTerm then r
  else
    let r := { r with ackedSinceCheck := insert peer r.ackedSinceCheck }
    if resp.success then r.recordMatch peer (min resp.matchIndex r.lastIndex)
    else
      let hinted := max (saturatingAdd resp.matchIndex 1) 1
      let previous := (r.nextIndex peer).getD 1
      let next := min hinted (max (previous - 1) 1)
      if next < previous then
        { r with nextIndex := Function.update r.nextIndex peer (some next) }.sendAppend peer
      else { r with nextIndex := Function.update r.nextIndex peer (some previous) }

/-- Replace the log up to the snapshot, keeping a suffix consistent with its boundary. -/
def installSnapshot (r : Raft) (req : InstallSnapshotReq) : Raft :=
  let log :=
    if r.termAt req.lastIncludedIndex = req.lastIncludedTerm ∧
        req.lastIncludedIndex ≤ r.lastIndex then
      r.log.drop (req.lastIncludedIndex - r.baseIndex)
    else []
  { r with
    log := log
    baseIndex := req.lastIncludedIndex
    baseTerm := req.lastIncludedTerm
    snapshot := some req.data
    commitIndex := max r.commitIndex req.lastIncludedIndex
    lastApplied := req.lastIncludedIndex
    pendingRestore := true
    dirty := true }

def handleInstallSnapshot (r : Raft) (leader : NodeId) (req : InstallSnapshotReq) : Raft :=
  let respond (r : Raft) (success : Bool) (lastIncludedIndex : Nat) : Raft :=
    r.send leader (.installSnapshotResp
      { term := r.currentTerm, success := success, lastIncludedIndex := lastIncludedIndex })
  if req.term < r.currentTerm then respond r false 0
  else
    let r := if req.term > r.currentTerm then r.becomeFollower req.term none else r
    if !snapshotMetadataIsValid req then respond r false 0
    else
      let r := r.becomeFollower req.term (some leader)
      if req.lastIncludedIndex ≤ r.baseIndex ∨ req.lastIncludedIndex ≤ r.commitIndex then
        respond r true req.lastIncludedIndex
      else
        let r := r.installSnapshot req
        respond r true r.baseIndex

def handleInstallSnapshotResp (r : Raft) (peer : NodeId) (resp : InstallSnapshotResp) : Raft :=
  if resp.term > r.currentTerm then r.becomeFollower resp.term none
  else if r.role ≠ .leader ∨ resp.term ≠ r.currentTerm then r
  else
    let r := { r with ackedSinceCheck := insert peer r.ackedSinceCheck }
    if resp.success then
      let sent := (r.snapshotInflight peer).getD 0
      { r with snapshotInflight := Function.update r.snapshotInflight peer none }
        |>.recordMatch peer (min resp.lastIncludedIndex sent)
    else r

/-- Does the identity in the request body match the sender? -/
def bodyIdentityMatches (sender : NodeId) : RaftMessage → Bool
  | .requestVote req => req.candidateId == sender
  | .appendEntries req => req.leaderId == sender
  | .installSnapshot req => req.leaderId == sender
  | .requestVoteResp _ | .appendEntriesResp _ | .installSnapshotResp _ => true

/-- Handle one inbound message. -/
def step (r : Raft) (sender : NodeId) (msg : RaftMessage) : Raft :=
  if !(r.peers.contains sender) || !(bodyIdentityMatches sender msg) then r
  else
    match msg with
    | .requestVote req => r.handleRequestVote sender req
    | .requestVoteResp resp => r.handleVoteResp sender resp
    | .appendEntries req => r.handleAppend sender req
    | .appendEntriesResp resp => r.handleAppendResp sender resp
    | .installSnapshot req => r.handleInstallSnapshot sender req
    | .installSnapshotResp resp => r.handleInstallSnapshotResp sender resp

/-! ## Proposals, compaction, outbound -/

/-- Append a command to the log (leader only). -/
def propose (r : Raft) (command : Command) : Except (Option NodeId) Nat × Raft :=
  if r.role ≠ .leader then (.error r.leaderId, r)
  else
    let index := r.lastIndex + 1
    let r := r.pushEntry (some command)
    (.ok index, r.maybeAdvanceCommit.2.broadcastAppend)

/-- Fold the log up to `index` into `snapshot`. -/
def compact (r : Raft) (index : Nat) (snapshot : Bytes) : Raft :=
  if index ≤ r.baseIndex ∨ index > r.commitIndex then r
  else
    { r with
      log := r.log.drop (index - r.baseIndex)
      baseIndex := index
      baseTerm := r.termAt index
      snapshot := some snapshot
      dirty := true }

/-- The committed commands above `lastApplied`, with their indices. -/
def newlyCommitted (r : Raft) : List (Nat × Command) :=
  (List.range' (r.lastApplied + 1) (r.commitIndex - r.lastApplied)).filterMap fun index =>
    ((r.logSlot index).bind (r.log[·]?)).bind fun entry => entry.command.map (index, ·)

/-- Drain side effects. -/
def ready (r : Raft) : Ready × Raft :=
  ({ persist := if r.dirty then some r.persistedSnapshot else none
     restore := if r.pendingRestore then r.snapshot else none
     appliedFrom := r.lastApplied
     appliedUpto := max r.lastApplied r.commitIndex
     messages := r.out
     committed := r.newlyCommitted },
   { r with
     out := []
     dirty := false
     pendingRestore := false
     lastApplied := max r.lastApplied r.commitIndex })

end Raft

end FiduciaBrain
