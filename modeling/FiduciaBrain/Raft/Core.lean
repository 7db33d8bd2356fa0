import FiduciaBrain.Raft.Engine

/-!
# What safety depends on

`Core` is the engine without its clock, its outbox and the bookkeeping that only decides what is
sent next. The helpers that tick, send and rearm leave it alone, so a fact about the core passes
through them by rewriting with one lemma each.
-/

namespace FiduciaBrain.Raft

/-- The part of the engine that a timer or an outgoing message never changes. -/
structure Core where
  id : NodeId
  peers : List NodeId
  currentTerm : Nat
  votedFor : Option NodeId
  log : List LogEntry
  baseIndex : Nat
  baseTerm : Nat
  snapshot : Option Bytes
  role : Role
  commitIndex : Nat
  lastApplied : Nat
  pendingRestore : Bool
  votes : Finset NodeId
  matchIndex : NodeId → Option Nat
  dirty : Bool

def core (r : Raft) : Core where
  id := r.id
  peers := r.peers
  currentTerm := r.currentTerm
  votedFor := r.votedFor
  log := r.log
  baseIndex := r.baseIndex
  baseTerm := r.baseTerm
  snapshot := r.snapshot
  role := r.role
  commitIndex := r.commitIndex
  lastApplied := r.lastApplied
  pendingRestore := r.pendingRestore
  votes := r.votes
  matchIndex := r.matchIndex
  dirty := r.dirty

/-! ## Helpers that keep the core -/

@[simp] theorem core_resetElectionTimer (r : Raft) : r.resetElectionTimer.core = r.core := rfl

@[simp] theorem out_resetElectionTimer (r : Raft) : r.resetElectionTimer.out = r.out := rfl

@[simp] theorem core_send (r : Raft) (p : NodeId) (msg : RaftMessage) :
    (r.send p msg).core = r.core := rfl

@[simp] theorem out_send (r : Raft) (p : NodeId) (msg : RaftMessage) :
    (r.send p msg).out = r.out ++ [⟨p, msg⟩] := rfl

theorem core_foldl {f : Raft → NodeId → Raft} (hf : ∀ r p, (f r p).core = r.core)
    (l : List NodeId) (r : Raft) : (l.foldl f r).core = r.core := by
  induction l generalizing r with
  | nil => rfl
  | cons p rest ih => rw [List.foldl_cons, ih, hf]

@[simp] theorem core_sendAll (r : Raft) (msg : RaftMessage) : (r.sendAll msg).core = r.core :=
  core_foldl (f := fun r p => r.send p msg) (fun _ _ => rfl) _ _

@[simp] theorem core_sendSnapshot (r : Raft) (p : NodeId) : (r.sendSnapshot p).core = r.core := by
  unfold sendSnapshot
  split <;> rfl

@[simp] theorem core_sendAppend (r : Raft) (p : NodeId) : (r.sendAppend p).core = r.core := by
  unfold sendAppend
  simp only
  split
  · exact core_sendSnapshot r p
  · rfl

@[simp] theorem core_broadcastAppend (r : Raft) : r.broadcastAppend.core = r.core :=
  core_foldl core_sendAppend _ _

@[simp] theorem core_tickHeartbeat (r : Raft) : r.tickHeartbeat.core = r.core := by
  unfold tickHeartbeat
  simp only
  split
  · exact core_broadcastAppend _
  · rfl

/-! ## Messages the helpers send -/

theorem mem_out_sendAll {r : Raft} {msg : RaftMessage} {m : Addressed}
    (h : m ∈ (r.sendAll msg).out) : m ∈ r.out ∨ m.msg = msg := by
  have key : ∀ (l : List NodeId) (r : Raft), m ∈ (l.foldl (fun r p => r.send p msg) r).out →
      m ∈ r.out ∨ m.msg = msg := by
    intro l
    induction l with
    | nil => exact fun r h => Or.inl h
    | cons p rest ih =>
      intro r h
      rcases ih _ h with h | h
      · rcases List.mem_append.mp h with h | h
        · exact Or.inl h
        · exact Or.inr (by rw [List.mem_singleton.mp h])
      · exact Or.inr h
  exact key _ _ h

/-- A request that brings a peer up to date: the snapshot, or the log from some `next` on. -/
inductive Replication (r : Raft) : RaftMessage → Prop
  | snapshot (data : Bytes) : r.snapshot = some data → Replication r (.installSnapshot
      { term := r.currentTerm
        leaderId := r.id
        lastIncludedIndex := r.baseIndex
        lastIncludedTerm := r.baseTerm
        data := data })
  | append (next : Nat) : r.baseIndex < next → Replication r (.appendEntries
      { term := r.currentTerm
        leaderId := r.id
        prevLogIndex := next - 1
        prevLogTerm := r.termAt (next - 1)
        entries := match r.logSlot next with
          | some slot => r.log.drop slot
          | none => []
        leaderCommit := r.commitIndex })

theorem Replication.congr {r r' : Raft} (h : r.core = r'.core) {msg : RaftMessage}
    (hm : Replication r msg) : Replication r' msg := by
  injection h with hid _ hterm _ hlog hbase hbt hsnap _ hcommit
  have hlast : r.lastIndex = r'.lastIndex := by simp [lastIndex, hlog, hbase]
  have hslot : r.logSlot = r'.logSlot := by funext i; simp [logSlot, hlast, hbase]
  have hterm' : r.termAt = r'.termAt := by funext i; simp [termAt, hslot, hbase, hbt, hlog]
  cases hm with
  | snapshot data hd =>
    rw [hterm, hid, hbase, hbt]
    exact .snapshot data (hsnap ▸ hd)
  | append next hn =>
    rw [hterm, hid, hterm', hslot, hlog, hcommit]
    exact .append next (hbase ▸ hn)

theorem mem_out_sendAppend {r : Raft} {p : NodeId} {m : Addressed}
    (h : m ∈ (r.sendAppend p).out) : m ∈ r.out ∨ Replication r m.msg := by
  unfold sendAppend at h
  simp only at h
  split at h
  · unfold sendSnapshot at h
    split at h
    · exact Or.inl h
    · next data hd =>
      rcases List.mem_append.mp h with h | h
      · exact Or.inl h
      · rw [List.mem_singleton.mp h]
        exact Or.inr (.snapshot data hd)
  · next hn =>
    rcases List.mem_append.mp h with h | h
    · exact Or.inl h
    · rw [List.mem_singleton.mp h]
      exact Or.inr (.append _ (Nat.lt_of_not_le hn))

theorem mem_out_broadcastAppend {r : Raft} {m : Addressed} (h : m ∈ r.broadcastAppend.out) :
    m ∈ r.out ∨ Replication r m.msg := by
  have key : ∀ (l : List NodeId) (r' : Raft), r'.core = r.core →
      m ∈ (l.foldl sendAppend r').out → m ∈ r'.out ∨ Replication r m.msg := by
    intro l
    induction l with
    | nil => exact fun r' _ h => Or.inl h
    | cons p rest ih =>
      intro r' hc h
      rcases ih _ ((core_sendAppend r' p).trans hc) h with h | h
      · rcases mem_out_sendAppend h with h | h
        · exact Or.inl h
        · exact Or.inr (h.congr hc)
      · exact Or.inr h
  exact key _ r rfl h

end FiduciaBrain.Raft
