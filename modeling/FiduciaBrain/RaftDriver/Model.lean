import FiduciaBrain.RaftDriver.Snapshot
import FiduciaBrain.RaftStore.Validate

/-!
# The driver

`RaftControlPlane` of `src/raft_driver.rs`. Any number of threads drive one engine. A call to the
engine and the `ready()` behind it happen under the engine lock, as one action; what the thread does
with the `Ready` is a drain, and each step of it that takes a lock of its own is an action of its
own, so the steps of different drains interleave in any order.

The engine lock is never held across actions. The IO lock and the lock on the watermark are, and the
state records who holds them. Three components of a drain record history and feed back into
nothing: `taken`, `unsaved` and `unapplied`.
-/

namespace FiduciaBrain

def RaftMessage.isResponse : RaftMessage → Bool
  | .requestVoteResp _ | .appendEntriesResp _ | .installSnapshotResp _ => true
  | .requestVote _ | .appendEntries _ | .installSnapshot _ => false

namespace RaftDriver

open RaftStore

/-- What stays the same while the member runs. -/
structure Setup where
  serde : SnapshotSerde
  compactLogThreshold : Nat

/-! ## State -/

/-- What a thread takes the engine lock for. -/
inductive Request
  | tick
  | deliver (sender : NodeId) (resp : RaftMessage)
  | inbound (sender : NodeId) (msg : RaftMessage)
  | propose (command : Command)
  deriving DecidableEq, Repr

/-- Where a thread stands with its drain, and what it holds there. -/
inductive Stage
  /-- `drain` is called -/
  | entered
  /-- waits for the IO lock -/
  | persisting
  /-- holds the IO lock and the state to save -/
  | saving (snapshot : Persisted)
  /-- at the apply section -/
  | applying
  /-- holds the watermark; the placement map is restored, the plan is not -/
  | restoring (plan : ScalePlan)
  /-- holds the watermark; `todo` is still to be applied -/
  | committing (todo : List (Nat × Command))
  /-- at the threshold test of `maybe_compact` -/
  | compacting
  | readingShards
  | readingPlan (shards : List ShardAssignment)
  | installing (data : Bytes)
  /-- about to hand its messages over -/
  | releasing
  /-- in `await_commit` -/
  | awaiting (index term : Nat)
  /-- `drain` returned `Ok` -/
  | replied (reply : Option RaftMessage)
  /-- `propose` returned -/
  | answered (result : Bool)
  /-- `drain` returned `Err` -/
  | failed
  deriving DecidableEq, Repr

/-- A thread with a `Ready` on its hands. -/
structure Drain where
  ready : Ready
  replyTo : Option NodeId
  waiter : Option (Nat × Nat)
  stage : Stage
  /-- the engine's durable state when the `Ready` was taken -/
  taken : Persisted
  /-- the save that the `Ready` asks for is not done -/
  unsaved : Bool
  /-- the batch or the restore in the `Ready` is not done -/
  unapplied : Bool
  deriving DecidableEq, Repr

/-- The control plane of one member. `store` is what a restart would recover. -/
structure Driver where
  engine : Raft
  store : Option Persisted
  available : Bool
  outboxOpen : Bool
  ioLock : Option Nat
  applyLock : Option Nat
  applyWatermark : Nat
  sm : StateMachine
  drains : List Drain

/-- Build the control plane of a member from what its store recovered. -/
def Driver.new (S : Setup) (id : NodeId) (peers : List NodeId) (cfg : RaftConfig) (seed : UInt64)
    (store : Option Persisted) (restored : Persisted) (sm : StateMachine) :
    Except String Driver := do
  match cfg.validate with
  | .error message => throw s!"invalid Raft timing configuration: {message}"
  | .ok () => pure ()
  let sm ← match restored.snapshot with
    | none => pure sm
    | some data =>
      match S.serde.decode data with
      | .error err =>
        throw s!"failed to restore the state machine from the WAL snapshot: {err}"
      | .ok snapshot =>
        pure { sm with
          placement := sm.placement.restoreFrom snapshot.shards
          plan := snapshot.plan }
  return {
    engine := Raft.new id peers cfg seed restored
    store := store
    available := true
    outboxOpen := true
    ioLock := none
    applyLock := none
    applyWatermark := restored.baseIndex
    sm := sm
    drains := [] }

/-! ## Calls to the engine -/

/-- `engine.ready()` behind a call, and the drain it starts. -/
def Driver.hand (d : Driver) (r : Raft) (replyTo : Option NodeId) (waiter : Option (Nat × Nat)) :
    Driver :=
  { d with
    engine := r.ready.2
    drains := d.drains ++ [{
      ready := r.ready.1
      replyTo := replyTo
      waiter := waiter
      stage := .entered
      taken := r.ready.2.persistedSnapshot
      unsaved := r.ready.1.persist.isSome
      unapplied := r.ready.1.restore.isSome || r.ready.1.appliedUpto > r.ready.1.appliedFrom }] }

/-- A thread takes the engine lock. It looked at `available` before that, so the member may have
become unavailable in between. A refused proposal starts no drain. -/
def Driver.call (d : Driver) : Request → Option Driver
  | .tick => some (d.hand d.engine.tick none none)
  | .deliver sender resp => some (d.hand (d.engine.step sender resp) none none)
  | .inbound sender msg => some (d.hand (d.engine.step sender msg) (some sender) none)
  | .propose command =>
    match d.engine.propose command with
    | (.error _, _) => none
    | (.ok index, r) => some (d.hand r none (some (index, r.currentTerm)))

/-! ## Steps of a drain -/

def Driver.goto (d : Driver) (k : Nat) (dr : Drain) (stage : Stage) : Driver :=
  { d with drains := d.drains.set k { dr with stage := stage } }

/-- `fail_closed`, and out. -/
def Driver.failClosed (d : Driver) (k : Nat) (dr : Drain) : Driver :=
  { d with available := false }.goto k dr .failed

/-- Does `RaftStore::save` return `Ok`? `ok` says whether its writes go through. -/
def saves (p : Persisted) (ok : Bool) : Bool := ok && decide (validatePersisted p = .ok ())

def Driver.enter (d : Driver) (k : Nat) (dr : Drain) : Driver :=
  if !d.available then d.goto k dr .failed
  else if dr.ready.persist.isSome && d.store.isSome then d.goto k dr .persisting
  else d.goto k dr .applying

/-- Take the IO lock and read the engine's latest durable state. -/
def Driver.lockIo (d : Driver) (k : Nat) (dr : Drain) : Option Driver :=
  if d.ioLock.isSome then none
  else if !d.available then some (d.goto k dr .failed)
  else some ({ d with ioLock := some k }.goto k dr (.saving d.engine.persistedSnapshot))

/-- `store.save`, and the IO lock is free again. -/
def Driver.save (d : Driver) (k : Nat) (dr : Drain) (snapshot : Persisted) (ok : Bool) : Driver :=
  let d := { d with ioLock := none }
  if saves snapshot ok then
    { d with store := some snapshot }.goto k { dr with unsaved := false } .applying
  else d.failClosed k dr

/-- Enter the apply section. A restore never waits; a batch waits for the watermark. -/
def Driver.enterApply (S : Setup) (d : Driver) (k : Nat) (dr : Drain) : Option Driver :=
  if dr.ready.restore.isNone && dr.ready.appliedUpto ≤ dr.ready.appliedFrom then
    some (d.goto k dr .compacting)
  else if d.applyLock.isSome then none
  else if !d.available then some (d.goto k dr .failed)
  else
    match dr.ready.restore with
    | some data =>
      if dr.ready.appliedUpto ≥ d.applyWatermark then
        match S.serde.decode data with
        | .error _ => some (d.failClosed k dr)
        | .ok snapshot =>
          some ({ d with
            applyLock := some k
            sm := { d.sm with placement := d.sm.placement.restoreFrom snapshot.shards }
            }.goto k dr (.restoring snapshot.plan))
      else some (d.goto k { dr with unapplied := false } .compacting)
    | none =>
      if d.applyWatermark < dr.ready.appliedFrom then none
      else
        some ({ d with applyLock := some k }.goto k dr
          (.committing (dr.ready.committed.filter fun c => c.1 > d.applyWatermark)))

/-- The second half of `restore_state_machine`. -/
def Driver.restorePlan (d : Driver) (k : Nat) (dr : Drain) (plan : ScalePlan) : Driver :=
  { d with sm := { d.sm with plan := plan } }.goto k dr (.committing dr.ready.committed)

/-- The loop over the committed commands; behind the last one the watermark moves. -/
def Driver.applyNext (d : Driver) (k : Nat) (dr : Drain) : List (Nat × Command) → Driver
  | (_, command) :: todo =>
    { d with sm := applyCommand d.sm command }.goto k dr (.committing todo)
  | [] =>
    { d with
      applyLock := none
      applyWatermark := if dr.ready.appliedUpto > d.applyWatermark then dr.ready.appliedUpto
        else d.applyWatermark }.goto k { dr with unapplied := false } .compacting

/-- The threshold test of `maybe_compact`. -/
def Driver.testCompact (S : Setup) (d : Driver) (k : Nat) (dr : Drain) : Driver :=
  if d.engine.log.length ≥ S.compactLogThreshold ∧ dr.ready.appliedUpto > d.engine.baseIndex then
    d.goto k dr .readingShards
  else d.goto k dr .releasing

/-- The second half of `snapshot_state_machine`. -/
def Driver.readPlan (S : Setup) (d : Driver) (k : Nat) (dr : Drain)
    (shards : List ShardAssignment) : Driver :=
  match S.serde.encode { shards := shards, plan := d.sm.plan } with
  | .error _ => d.failClosed k dr
  | .ok data => d.goto k dr (.installing data)

/-- Persist a compacted engine, then install it, under the IO lock and the engine lock. -/
def Driver.install (d : Driver) (k : Nat) (dr : Drain) (data : Bytes) (ok : Bool) :
    Option Driver :=
  let compacted := d.engine.compact dr.ready.appliedUpto data
  if d.store.isNone then some ({ d with engine := compacted }.goto k dr .releasing)
  else if d.ioLock.isSome then none
  else if !d.available then some (d.goto k dr .failed)
  else if saves compacted.persistedSnapshot ok then
    some ({ d with
      store := some compacted.persistedSnapshot
      engine := compacted }.goto k dr .releasing)
  else some (d.failClosed k dr)

/-- The reply for the caller, and the messages for the outbox. -/
def Drain.route (dr : Drain) : Option RaftMessage × List Addressed :=
  dr.ready.messages.foldl
    (fun routed addressed =>
      if routed.1.isNone && addressed.msg.isResponse && dr.replyTo == some addressed.recipient then
        (some addressed.msg, routed.2)
      else (routed.1, routed.2 ++ [addressed]))
    (none, [])

/-- Hand the messages over and return, or wait for the commit. -/
def Driver.release (d : Driver) (k : Nat) (dr : Drain) : Driver :=
  if !dr.route.2.isEmpty && !d.outboxOpen then d.failClosed k dr
  else
    match dr.waiter with
    | none => d.goto k dr (.replied dr.route.1)
    | some (index, term) => d.goto k dr (.awaiting index term)

/-- One look of `await_commit` at the engine; `inTime` says whether the deadline is ahead. -/
def Driver.awaitCommit (d : Driver) (k : Nat) (dr : Drain) (index term : Nat) (inTime : Bool) :
    Driver :=
  if d.engine.commitIndex ≥ index ∧ d.engine.currentTerm = term then d.goto k dr (.answered true)
  else if d.engine.currentTerm ≠ term ∨ d.engine.role ≠ .leader then d.goto k dr (.answered false)
  else if !inTime || !d.available then d.goto k dr (.answered false)
  else d

/-- The next step of drain `k`; `ok` says whether writes go through and deadlines are met. -/
def Driver.advance (S : Setup) (d : Driver) (k : Nat) (dr : Drain) (ok : Bool) : Option Driver :=
  match dr.stage with
  | .entered => some (d.enter k dr)
  | .persisting => d.lockIo k dr
  | .saving snapshot => some (d.save k dr snapshot ok)
  | .applying => d.enterApply S k dr
  | .restoring plan => some (d.restorePlan k dr plan)
  | .committing todo => some (d.applyNext k dr todo)
  | .compacting => some (d.testCompact S k dr)
  | .readingShards => some (d.goto k dr (.readingPlan d.sm.placement.snapshot))
  | .readingPlan shards => some (d.readPlan S k dr shards)
  | .installing data => d.install k dr data ok
  | .releasing => some (d.release k dr)
  | .awaiting index term => some (d.awaitCommit k dr index term ok)
  | .replied _ | .answered _ | .failed => none

/-! ## Actions -/

inductive Action
  | call (req : Request)
  | advance (k : Nat) (ok : Bool)
  /-- heartbeats, failure detection and policies: soft state beside the replicated part -/
  | soft (membership : Membership) (policies : Std.ExtTreeMap ShardId PlacementPolicy)
  | closeOutbox

/-- The driver after an action, if the action can happen. -/
def Driver.act (S : Setup) (d : Driver) : Action → Option Driver
  | .call req => d.call req
  | .advance k ok => d.drains[k]?.bind fun dr => d.advance S k dr ok
  | .soft membership policies =>
    some { d with
      sm := { d.sm with
        membership := membership
        placement := { d.sm.placement with policies := policies } } }
  | .closeOutbox => some { d with outboxOpen := false }

end RaftDriver

end FiduciaBrain
