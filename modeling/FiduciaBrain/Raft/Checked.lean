import FiduciaBrain.Raft.Bookkeeping
import FiduciaBrain.Raft.Clock
import FiduciaBrain.Infra.Room

/-!
# The engine with its checks on

`src/raft.rs` as a build with overflow checks and debug assertions runs it: a plain `+` or `-` on
`u64` values that does not fit fails, and so does `send_snapshot` without a snapshot. Saturating and
checked additions are what they are in the engine; sizes of collections are `usize` and always fit.

Each function computes what its unchecked counterpart does, or fails with `overflow` for lack of
room (`within_run`, `within_ready`). That `noSnapshot` never happens needs the bounds of `Books`.
-/

namespace FiduciaBrain

open Infra

inductive Fault
  | overflow
  | noSnapshot
  deriving DecidableEq, Repr

def addU64 (a b : Nat) : Except Fault Nat := if a + b ≤ u64Max then .ok (a + b) else .error .overflow

def subU64 (a b : Nat) : Except Fault Nat := if b ≤ a then .ok (a - b) else .error .overflow

namespace Raft.Checked

/-! ## Views and timer -/

def lastIndex (r : Raft) : Except Fault Nat := addU64 r.baseIndex r.log.length

def logSlot (r : Raft) (index : Nat) : Except Fault (Option Nat) :=
  if index ≤ r.baseIndex then .ok none
  else do
    let last ← lastIndex r
    if index > last then .ok none
    else do
      let offset ← subU64 index r.baseIndex
      let slot ← subU64 offset 1
      .ok (some slot)

def termAt (r : Raft) (index : Nat) : Except Fault Nat :=
  if index = r.baseIndex then .ok r.baseTerm
  else do
    let slot ← logSlot r index
    .ok ((slot.bind (r.log[·]?) |>.map LogEntry.term).getD 0)

def resetElectionTimer (r : Raft) : Except Fault Raft := do
  let r := { r with electionElapsed := 0 }
  let min := max r.cfg.electionMinTicks 1
  let max := max r.cfg.electionMaxTicks min
  let width ← subU64 max min
  let span ← addU64 width 1
  let (x, r) := r.nextRand
  let timeout ← addU64 min (x.toNat % span)
  .ok { r with randomizedElectionTimeout := timeout }

def new (id : NodeId) (peers : List NodeId) (cfg : RaftConfig) (seed : UInt64)
    (restored : Persisted) : Except Fault Raft :=
  resetElectionTimer
    { id := id
      peers := peers
      cfg := cfg
      currentTerm := restored.currentTerm
      votedFor := restored.votedFor
      log := restored.log
      baseIndex := restored.baseIndex
      baseTerm := restored.baseTerm
      snapshot := restored.snapshot
      role := .follower
      commitIndex := restored.commitIndex
      lastApplied := restored.baseIndex
      leaderId := none
      pendingRestore := false
      votes := ∅
      ackedSinceCheck := ∅
      nextIndex := fun _ => none
      matchIndex := fun _ => none
      snapshotInflight := fun _ => none
      electionElapsed := 0
      heartbeatElapsed := 0
      randomizedElectionTimeout := 0
      rng := seed ||| 1
      out := []
      dirty := false }

/-! ## Replication -/

def sendSnapshot (r : Raft) (peer : NodeId) : Except Fault Raft :=
  match r.snapshot with
  | none => .error .noSnapshot
  | some data =>
    let req : InstallSnapshotReq :=
      { term := r.currentTerm
        leaderId := r.id
        lastIncludedIndex := r.baseIndex
        lastIncludedTerm := r.baseTerm
        data := data }
    .ok ({ r with snapshotInflight := Function.update r.snapshotInflight peer (some r.baseIndex) }
      |>.send peer (.installSnapshot req))

/-- The default of `next` is computed whether it is needed or not. -/
def sendAppend (r : Raft) (peer : NodeId) : Except Fault Raft := do
  let last ← lastIndex r
  let default ← addU64 last 1
  let next := (r.nextIndex peer).getD default
  if next ≤ r.baseIndex then sendSnapshot r peer
  else do
    let prevLogIndex ← subU64 next 1
    let prevLogTerm ← termAt r prevLogIndex
    let slot ← logSlot r next
    let req : AppendEntriesReq :=
      { term := r.currentTerm
        leaderId := r.id
        prevLogIndex := prevLogIndex
        prevLogTerm := prevLogTerm
        entries := match slot with
          | some slot => r.log.drop slot
          | none => []
        leaderCommit := r.commitIndex }
    .ok (r.send peer (.appendEntries req))

def broadcastAppend (r : Raft) : Except Fault Raft := r.peers.foldlM sendAppend r

def newCommit (r : Raft) : Except Fault Nat := do
  let last ← lastIndex r
  let first ← addU64 r.commitIndex 1
  (List.range' first (last + 1 - first)).foldlM
    (fun newCommit n => do
      let term ← termAt r n
      if term ≠ r.currentTerm then .ok newCommit
      else if r.replicaCount n ≥ r.quorum then .ok n
      else .ok newCommit)
    r.commitIndex

def maybeAdvanceCommit (r : Raft) : Except Fault (Bool × Raft) := do
  let n ← newCommit r
  if n > r.commitIndex then .ok (true, { r with commitIndex := n, dirty := true })
  else .ok (false, r)

/-! ## Elections -/

def becomeFollower (r : Raft) (term : Nat) (leader : Option NodeId) : Except Fault Raft :=
  let r := if term > r.currentTerm then
      { r with currentTerm := term, votedFor := none, dirty := true }
    else r
  resetElectionTimer
    { r with role := .follower, leaderId := leader, votes := ∅, snapshotInflight := fun _ => none }

def pushEntry (r : Raft) (command : Option Command) : Except Fault Raft := do
  let last ← lastIndex r
  let index ← addU64 last 1
  .ok { r with
    log := r.log ++ [{ term := r.currentTerm, index := index, command := command }]
    dirty := true }

def becomeLeader (r : Raft) : Except Fault Raft := do
  let last ← lastIndex r
  let next ← addU64 last 1
  let r := { r with
    role := .leader
    leaderId := some r.id
    nextIndex := fun p => if p ∈ r.peers then some next else none
    matchIndex := fun p => if p ∈ r.peers then some 0 else none
    snapshotInflight := fun _ => none }
  let r ← pushEntry r none
  let r ← resetElectionTimer { r with heartbeatElapsed := 0, ackedSinceCheck := ∅ }
  broadcastAppend r

def maybeWinElection (r : Raft) : Except Fault Raft :=
  if r.role = .candidate ∧ r.votes.card ≥ r.quorum then becomeLeader r else .ok r

def startElection (r : Raft) : Except Fault Raft := do
  let term ← addU64 r.currentTerm 1
  let r ← resetElectionTimer { r with
    currentTerm := term
    votedFor := some r.id
    dirty := true
    role := .candidate
    leaderId := none }
  let r := { r with votes := {r.id} }
  let last ← lastIndex r
  let req : RequestVoteReq :=
    { term := r.currentTerm
      candidateId := r.id
      lastLogIndex := last
      lastLogTerm := r.lastTerm
      preVote := false }
  maybeWinElection (r.sendAll (.requestVote req))

def maybeWinPreElection (r : Raft) : Except Fault Raft :=
  if r.role = .preCandidate ∧ r.votes.card ≥ r.quorum then startElection r else .ok r

def startPreElection (r : Raft) : Except Fault Raft := do
  let r ← resetElectionTimer r
  let r := { r with role := .preCandidate, votes := {r.id} }
  let term ← addU64 r.currentTerm 1
  let last ← lastIndex r
  let req : RequestVoteReq :=
    { term := term
      candidateId := r.id
      lastLogIndex := last
      lastLogTerm := r.lastTerm
      preVote := true }
  maybeWinPreElection (r.sendAll (.requestVote req))

/-! ## Time -/

def tickHeartbeat (r : Raft) : Except Fault Raft := do
  let elapsed ← addU64 r.heartbeatElapsed 1
  let r := { r with heartbeatElapsed := elapsed }
  if r.heartbeatElapsed ≥ r.cfg.heartbeatTicks then broadcastAppend { r with heartbeatElapsed := 0 }
  else .ok r

def tickCheckQuorum (r : Raft) : Except Fault Raft := do
  let elapsed ← addU64 r.electionElapsed 1
  let r := { r with electionElapsed := elapsed }
  if r.electionElapsed ≥ r.randomizedElectionTimeout then
    let reachable := r.ackedSinceCheck.card + 1
    let r := { r with ackedSinceCheck := ∅ }
    if reachable < r.quorum then becomeFollower r r.currentTerm none else resetElectionTimer r
  else .ok r

def tick (r : Raft) : Except Fault Raft :=
  if r.role = .leader then tickHeartbeat r >>= tickCheckQuorum
  else do
    let elapsed ← addU64 r.electionElapsed 1
    let r := { r with electionElapsed := elapsed }
    if r.electionElapsed ≥ r.randomizedElectionTimeout then startPreElection r else .ok r

/-! ## Inbound -/

/-- The last index is looked at only when the last terms are equal. -/
def logOk (r : Raft) (req : RequestVoteReq) : Except Fault Bool :=
  if req.lastLogTerm > r.lastTerm then .ok true
  else if req.lastLogTerm = r.lastTerm then do
    let last ← lastIndex r
    .ok (decide (req.lastLogIndex ≥ last))
  else .ok false

def recordVote (r : Raft) (candidate : NodeId) : Except Fault Raft :=
  resetElectionTimer { r with votedFor := some candidate, dirty := true }

def handleRequestVote (r : Raft) (candidate : NodeId) (req : RequestVoteReq) : Except Fault Raft :=
  let respond (r : Raft) (granted : Bool) : Raft :=
    r.send candidate
      (.requestVoteResp { term := r.currentTerm, granted := granted, preVote := req.preVote })
  if req.term = 0 then .ok (respond r false)
  else do
    let r ← (if !req.preVote && req.term > r.currentTerm then becomeFollower r req.term none
      else .ok r)
    let logOk ← logOk r req
    if req.term < r.currentTerm then .ok (respond r false)
    else if req.preVote then
      let noTrustedLeader := r.leaderId.isNone || r.electionElapsed ≥ r.cfg.electionMinTicks
      .ok (respond r (logOk && noTrustedLeader))
    else
      let free := r.votedFor.isNone || r.votedFor == some candidate
      if free && logOk && req.term = r.currentTerm then do
        let r ← recordVote r candidate
        .ok (respond r true)
      else .ok (respond r false)

def handleVoteResp (r : Raft) (voter : NodeId) (resp : RequestVoteResp) : Except Fault Raft :=
  if resp.term > r.currentTerm then becomeFollower r resp.term none
  else if !resp.granted then .ok r
  else if resp.preVote then
    if r.role = .preCandidate then maybeWinPreElection { r with votes := insert voter r.votes }
    else .ok r
  else if r.role = .candidate ∧ resp.term = r.currentTerm then
    maybeWinElection { r with votes := insert voter r.votes }
  else .ok r

def truncateFrom (r : Raft) (index : Nat) : Except Fault (Bool × Raft) :=
  if index ≤ r.commitIndex then .ok (false, r)
  else do
    let slot ← logSlot r index
    match slot with
    | some slot => .ok (true, { r with log := r.log.take slot, dirty := true })
    | none => .ok (true, r)

def spliceEntries (r : Raft) (confirmed : Nat) : List LogEntry → Except Fault (Raft × Bool × Nat)
  | [] => .ok (r, true, confirmed)
  | entry :: rest => do
    let last ← lastIndex r
    if entry.index ≤ last then do
      let term ← termAt r entry.index
      if term ≠ entry.term then do
        let truncated ← truncateFrom r entry.index
        match truncated with
        | (false, r) => .ok (r, false, confirmed)
        | (true, r) =>
          spliceEntries { r with log := r.log ++ [entry], dirty := true } entry.index rest
      else spliceEntries r entry.index rest
    else spliceEntries { r with log := r.log ++ [entry], dirty := true } entry.index rest

def handleAppend (r : Raft) (leader : NodeId) (req : AppendEntriesReq) : Except Fault Raft :=
  let respond (r : Raft) (success : Bool) (matchIndex : Nat) : Raft :=
    r.send leader
      (.appendEntriesResp { term := r.currentTerm, success := success, matchIndex := matchIndex })
  if req.term < r.currentTerm then .ok (respond r false 0)
  else do
    let r ← (if req.term > r.currentTerm then becomeFollower r req.term none else .ok r)
    if !entriesAreContiguous req then do
      let last ← lastIndex r
      .ok (respond r false last)
    else do
      let r ← becomeFollower r req.term (some leader)
      let last ← lastIndex r
      if req.prevLogIndex > last then .ok (respond r false last)
      else do
        let prevTerm ← (if req.prevLogIndex > 0 then termAt r req.prevLogIndex else .ok 0)
        if req.prevLogIndex > 0 ∧ prevTerm ≠ req.prevLogTerm then
          .ok (respond r false (req.prevLogIndex - 1))
        else do
          let (r, spliced, confirmed) ← spliceEntries r req.prevLogIndex req.entries
          .ok (respond (r.commitThrough spliced (min req.leaderCommit confirmed)) spliced confirmed)

def recordMatch (r : Raft) (peer : NodeId) (acknowledged : Nat) : Except Fault Raft := do
  let matched := max acknowledged ((r.matchIndex peer).getD 0)
  let r := { r with
    matchIndex := Function.update r.matchIndex peer (some matched)
    nextIndex := Function.update r.nextIndex peer (some (saturatingAdd matched 1)) }
  let (advanced, r) ← maybeAdvanceCommit r
  if advanced then broadcastAppend r else .ok r

def handleAppendResp (r : Raft) (peer : NodeId) (resp : AppendEntriesResp) : Except Fault Raft :=
  if resp.term > r.currentTerm then becomeFollower r resp.term none
  else if r.role ≠ .leader ∨ resp.term ≠ r.currentTerm then .ok r
  else
    let r := { r with ackedSinceCheck := insert peer r.ackedSinceCheck }
    if resp.success then do
      let last ← lastIndex r
      recordMatch r peer (min resp.matchIndex last)
    else
      let hinted := max (saturatingAdd resp.matchIndex 1) 1
      let previous := (r.nextIndex peer).getD 1
      let next := min hinted (max (previous - 1) 1)
      if next < previous then
        sendAppend { r with nextIndex := Function.update r.nextIndex peer (some next) } peer
      else .ok { r with nextIndex := Function.update r.nextIndex peer (some previous) }

def installSnapshot (r : Raft) (req : InstallSnapshotReq) : Except Fault Raft := do
  let term ← termAt r req.lastIncludedIndex
  let keep ← (if term = req.lastIncludedTerm then do
      let last ← lastIndex r
      .ok (decide (req.lastIncludedIndex ≤ last))
    else .ok false)
  let log ← (if keep then do
      let keepFrom ← subU64 req.lastIncludedIndex r.baseIndex
      .ok (r.log.drop keepFrom)
    else .ok [])
  .ok { r with
    log := log
    baseIndex := req.lastIncludedIndex
    baseTerm := req.lastIncludedTerm
    snapshot := some req.data
    commitIndex := max r.commitIndex req.lastIncludedIndex
    lastApplied := req.lastIncludedIndex
    pendingRestore := true
    dirty := true }

def handleInstallSnapshot (r : Raft) (leader : NodeId) (req : InstallSnapshotReq) :
    Except Fault Raft :=
  let respond (r : Raft) (success : Bool) (lastIncludedIndex : Nat) : Raft :=
    r.send leader (.installSnapshotResp
      { term := r.currentTerm, success := success, lastIncludedIndex := lastIncludedIndex })
  if req.term < r.currentTerm then .ok (respond r false 0)
  else do
    let r ← (if req.term > r.currentTerm then becomeFollower r req.term none else .ok r)
    if !snapshotMetadataIsValid req then .ok (respond r false 0)
    else do
      let r ← becomeFollower r req.term (some leader)
      if req.lastIncludedIndex ≤ r.baseIndex ∨ req.lastIncludedIndex ≤ r.commitIndex then
        .ok (respond r true req.lastIncludedIndex)
      else do
        let r ← installSnapshot r req
        .ok (respond r true r.baseIndex)

def handleInstallSnapshotResp (r : Raft) (peer : NodeId) (resp : InstallSnapshotResp) :
    Except Fault Raft :=
  if resp.term > r.currentTerm then becomeFollower r resp.term none
  else if r.role ≠ .leader ∨ resp.term ≠ r.currentTerm then .ok r
  else
    let r := { r with ackedSinceCheck := insert peer r.ackedSinceCheck }
    if resp.success then
      let sent := (r.snapshotInflight peer).getD 0
      recordMatch { r with snapshotInflight := Function.update r.snapshotInflight peer none } peer
        (min resp.lastIncludedIndex sent)
    else .ok r

def step (r : Raft) (sender : NodeId) (msg : RaftMessage) : Except Fault Raft :=
  if !(r.peers.contains sender) || !(bodyIdentityMatches sender msg) then .ok r
  else
    match msg with
    | .requestVote req => handleRequestVote r sender req
    | .requestVoteResp resp => handleVoteResp r sender resp
    | .appendEntries req => handleAppend r sender req
    | .appendEntriesResp resp => handleAppendResp r sender resp
    | .installSnapshot req => handleInstallSnapshot r sender req
    | .installSnapshotResp resp => handleInstallSnapshotResp r sender resp

/-! ## Proposals, compaction, outbound -/

def propose (r : Raft) (command : Command) : Except Fault Raft :=
  if r.role ≠ .leader then .ok r
  else do
    let r ← pushEntry r (some command)
    let (_, r) ← maybeAdvanceCommit r
    broadcastAppend r

def compact (r : Raft) (index : Nat) (snapshot : Bytes) : Except Fault Raft :=
  if index ≤ r.baseIndex ∨ index > r.commitIndex then .ok r
  else do
    let term ← termAt r index
    let keepFrom ← subU64 index r.baseIndex
    .ok { r with
      log := r.log.drop keepFrom
      baseIndex := index
      baseTerm := term
      snapshot := some snapshot
      dirty := true }

/-- The engine after a call. -/
def run (r : Raft) : Input → Except Fault Raft
  | .tick => tick r
  | .step sender msg => step r sender msg
  | .propose command => propose r command
  | .compact index snapshot => compact r index snapshot

/-- The loop of `ready`, `n` entries from the end. -/
def applyLoop (r : Raft) : Nat → Except Fault Raft
  | 0 => .ok r
  | n + 1 => do
    let next ← addU64 r.lastApplied 1
    let r := { r with lastApplied := next }
    let _ ← logSlot r r.lastApplied
    applyLoop r n

/-- The engine after its side effects are drained. -/
def ready (r : Raft) : Except Fault Raft :=
  applyLoop { r with out := [], dirty := false, pendingRestore := false }
    (r.commitIndex - r.lastApplied)

end Raft.Checked

end FiduciaBrain
