import FiduciaBrain.Raft.Checked

/-!
# The checked engine computes the engine

One lemma for each function: given that there is room, the checked function returns what the engine
computes. `within_run` and `within_ready` put them together for a call and a drain.
-/

namespace FiduciaBrain

open Infra

/-- The timing is made of `u64` values. -/
structure RaftConfig.Fits (cfg : RaftConfig) : Prop where
  min : cfg.electionMinTicks ≤ u64Max
  max : cfg.electionMaxTicks ≤ u64Max

theorem within_addU64 {room : Prop} {a b : Nat} (h : room → a + b ≤ u64Max) :
    Within .overflow room (addU64 a b) (a + b) := by
  unfold addU64
  split
  · exact .ok _ _ _
  · next hno => exact Or.inr ⟨rfl, fun hroom => hno (h hroom)⟩

theorem within_subU64 {room : Prop} {a b : Nat} (h : b ≤ a) :
    Within .overflow room (subU64 a b) (a - b) := Or.inl (if_pos h)

namespace Raft

variable {r : Raft} {room : Prop}

/-! ## Views and timer -/

theorem within_lastIndex (h : room → r.lastIndex ≤ u64Max) :
    Within .overflow room (Checked.lastIndex r) r.lastIndex := within_addU64 h

theorem within_logSlot (h : room → r.lastIndex ≤ u64Max) (index : Nat) :
    Within .overflow room (Checked.logSlot r index) (r.logSlot index) := by
  unfold Checked.logSlot
  split
  · next hb =>
    rw [logSlot_eq_none (Or.inl hb)]
    exact .ok _ _ _
  · next hb =>
    refine (within_lastIndex h).bind ?_
    split
    · next hl =>
      rw [logSlot_eq_none (Or.inr hl)]
      exact .ok _ _ _
    · next hl =>
      rw [logSlot_eq_some (Nat.lt_of_not_le hb) (Nat.not_lt.mp hl)]
      exact (within_subU64 (by omega)).bind ((within_subU64 (by omega)).bind (.ok _ _ _))

theorem within_termAt (h : room → r.lastIndex ≤ u64Max) (index : Nat) :
    Within .overflow room (Checked.termAt r index) (r.termAt index) := by
  unfold Checked.termAt termAt
  split
  · exact .ok _ _ _
  · exact (within_logSlot h index).bind (.ok _ _ _)

theorem within_resetElectionTimer (h : room → r.cfg.Fits) :
    Within .overflow room (Checked.resetElectionTimer r) r.resetElectionTimer := by
  have hspan : max r.cfg.electionMinTicks 1 ≤ max r.cfg.electionMaxTicks
      (max r.cfg.electionMinTicks 1) := Nat.le_max_right _ _
  have hpos : 1 ≤ max r.cfg.electionMinTicks 1 := Nat.le_max_right _ _
  have hmax : room → max r.cfg.electionMaxTicks (max r.cfg.electionMinTicks 1) ≤ u64Max :=
    fun hr => Nat.max_le.mpr ⟨(h hr).max, Nat.max_le.mpr ⟨(h hr).min, by decide⟩⟩
  have hmod : r.nextRand.1.toNat % (max r.cfg.electionMaxTicks (max r.cfg.electionMinTicks 1) -
      max r.cfg.electionMinTicks 1 + 1) < max r.cfg.electionMaxTicks (max r.cfg.electionMinTicks 1)
        - max r.cfg.electionMinTicks 1 + 1 := Nat.mod_lt _ (Nat.succ_pos _)
  unfold Checked.resetElectionTimer
  refine (within_subU64 hspan).bind ?_
  refine (within_addU64 fun hr => ?_).bind ?_
  · have := hmax hr
    show max r.cfg.electionMaxTicks _ - max r.cfg.electionMinTicks 1 + 1 ≤ u64Max
    omega
  refine (within_addU64 fun hr => ?_).bind (.ok _ _ _)
  have := hmax hr
  show max r.cfg.electionMinTicks 1 + r.nextRand.1.toNat % _ ≤ u64Max
  omega

theorem within_new {id : NodeId} {peers : List NodeId} {cfg : RaftConfig} {seed : UInt64}
    {restored : Persisted} (h : room → cfg.Fits) :
    Within .overflow room (Checked.new id peers cfg seed restored)
      (Raft.new id peers cfg seed restored) := within_resetElectionTimer h

/-! ## Replication -/

/-- Wherever the base lies above a peer's next index there is a snapshot to send. -/
structure Stocked (r : Raft) : Prop where
  base : r.snapshot = none → r.baseIndex = 0
  next : ∀ p ∈ r.peers, 1 ≤ (r.nextIndex p).getD 1

theorem Stocked.snapshot_ne_none (h : r.Stocked) {p : NodeId} (hp : p ∈ r.peers)
    (hb : (r.nextIndex p).getD (r.lastIndex + 1) ≤ r.baseIndex) : r.snapshot ≠ none := by
  intro hnone
  have hzero := h.base hnone
  have hnext := h.next p hp
  cases hn : r.nextIndex p with
  | none =>
    rw [hn, Option.getD_none] at hb
    omega
  | some n =>
    rw [hn, Option.getD_some] at hb hnext
    omega

theorem Stocked.congr {s : Raft} (hc : s.core = r.core) (hn : s.nextIndex = r.nextIndex)
    (h : r.Stocked) : s.Stocked where
  base := by
    rw [show s.snapshot = r.snapshot from congrArg Core.snapshot hc,
      show s.baseIndex = r.baseIndex from congrArg Core.baseIndex hc]
    exact h.base
  next := by
    rw [show s.peers = r.peers from congrArg Core.peers hc, hn]
    exact h.next

theorem within_sendAppend {p : NodeId} (h : room → r.lastIndex + 1 ≤ u64Max) (hs : r.Stocked)
    (hp : p ∈ r.peers) : Within .overflow room (Checked.sendAppend r p) (r.sendAppend p) := by
  have hlast : room → r.lastIndex ≤ u64Max := fun hr => (Nat.le_succ _).trans (h hr)
  unfold Checked.sendAppend sendAppend
  refine (within_lastIndex hlast).bind ((within_addU64 h).bind ?_)
  refine .ite (fun hb => ?_) (fun hb => ?_)
  · unfold Checked.sendSnapshot sendSnapshot
    cases hsnap : r.snapshot with
    | none => exact absurd hsnap (hs.snapshot_ne_none hp hb)
    | some data => exact .ok _ _ _
  · refine (within_subU64 (by omega)).bind ?_
    exact (within_termAt hlast _).bind ((within_logSlot hlast _).bind (.ok _ _ _))

theorem within_broadcastAppend (h : r.peers ≠ [] → room → r.lastIndex + 1 ≤ u64Max)
    (hs : r.Stocked) :
    Within .overflow room (Checked.broadcastAppend r) r.broadcastAppend := by
  unfold Checked.broadcastAppend broadcastAppend
  refine Within.foldlM (P := fun s => s.core = r.core ∧ s.office = r.office)
    (fun s p hp hs' => ⟨within_sendAppend ?_ ?_ ?_, ?_, ?_⟩) ⟨rfl, rfl⟩
  · have hlast : s.lastIndex = r.lastIndex := congrArg Core.lastIndex hs'.1
    rw [hlast]
    exact h (List.ne_nil_of_mem hp)
  · exact hs.congr hs'.1 (congrArg Office.nextIndex hs'.2)
  · rw [show s.peers = r.peers from congrArg Core.peers hs'.1]
    exact hp
  · exact (core_sendAppend s p).trans hs'.1
  · exact (office_sendAppend s p).trans hs'.2

theorem within_newCommit (h : room → r.lastIndex ≤ u64Max)
    (hc : room → r.commitIndex + 1 ≤ u64Max) :
    Within .overflow room (Checked.newCommit r) r.newCommit := by
  unfold Checked.newCommit newCommit
  refine (within_lastIndex h).bind ((within_addU64 hc).bind ?_)
  rw [show r.lastIndex + 1 - (r.commitIndex + 1) = r.lastIndex - r.commitIndex from by omega]
  refine Within.foldlM (P := fun _ => True) (fun acc n _ _ => ⟨?_, trivial⟩) trivial
  refine (within_termAt h n).bind (.ite (fun _ => .ok _ _ _) fun _ => ?_)
  exact .ite (fun _ => .ok _ _ _) (fun _ => .ok _ _ _)

theorem within_maybeAdvanceCommit (h : room → r.lastIndex ≤ u64Max)
    (hc : room → r.commitIndex + 1 ≤ u64Max) :
    Within .overflow room (Checked.maybeAdvanceCommit r) r.maybeAdvanceCommit := by
  unfold Checked.maybeAdvanceCommit maybeAdvanceCommit
  exact (within_newCommit h hc).bind (.ite (fun _ => .ok _ _ _) (fun _ => .ok _ _ _))

/-! ## Elections -/

theorem within_becomeFollower (h : room → r.cfg.Fits) (t : Nat) (l : Option NodeId) :
    Within .overflow room (Checked.becomeFollower r t l) (r.becomeFollower t l) := by
  unfold Checked.becomeFollower becomeFollower
  refine within_resetElectionTimer ?_
  split <;> exact h

theorem lastIndex_becomeFollower (r : Raft) (t : Nat) (l : Option NodeId) :
    (r.becomeFollower t l).lastIndex = r.lastIndex := by
  refine (congrArg Core.lastIndex (core_becomeFollower r t l)).trans ?_
  unfold Core.follow
  split <;> rfl

theorem within_pushEntry (h : room → r.lastIndex + 1 ≤ u64Max) (c : Option Command) :
    Within .overflow room (Checked.pushEntry r c) (r.pushEntry c) :=
  (within_lastIndex fun hr => (Nat.le_succ _).trans (h hr)).bind
    ((within_addU64 h).bind (.ok _ _ _))

theorem lastIndex_pushEntry (r : Raft) (c : Option Command) :
    (r.pushEntry c).lastIndex = r.lastIndex + 1 := by
  simp only [lastIndex, pushEntry, List.length_append, List.length_singleton]
  omega

/-- Room for one more entry, and to send it to somebody. -/
def Grows (r : Raft) : Prop :=
  r.lastIndex + 1 ≤ u64Max ∧ (r.peers ≠ [] → r.lastIndex + 2 ≤ u64Max)

theorem Grows.congr {s : Raft} (hc : s.core = r.core) (h : r.Grows) : s.Grows := by
  unfold Grows
  rw [show s.lastIndex = r.lastIndex from congrArg Core.lastIndex hc,
    show s.peers = r.peers from congrArg Core.peers hc]
  exact h

theorem within_becomeLeader (hcfg : room → r.cfg.Fits) (h : room → r.Grows)
    (hbase : r.snapshot = none → r.baseIndex = 0) :
    Within .overflow room (Checked.becomeLeader r) r.becomeLeader := by
  unfold Checked.becomeLeader becomeLeader
  have h1 : room → r.lastIndex + 1 ≤ u64Max := fun hr => (h hr).1
  refine (within_lastIndex fun hr => (Nat.le_succ _).trans (h1 hr)).bind
    ((within_addU64 h1).bind ?_)
  refine (within_pushEntry (r := { r with
    role := .leader
    leaderId := some r.id
    nextIndex := fun p => if p ∈ r.peers then some (r.lastIndex + 1) else none
    matchIndex := fun p => if p ∈ r.peers then some 0 else none
    snapshotInflight := fun _ => none }) h1 none).bind ?_
  refine Within.bind (within_resetElectionTimer ?_)
    (within_broadcastAppend (fun hpeers hr => ?_) ?_)
  · exact hcfg
  · have hlast := lastIndex_pushEntry { r with
      role := .leader
      leaderId := some r.id
      nextIndex := fun p => if p ∈ r.peers then some (r.lastIndex + 1) else none
      matchIndex := fun p => if p ∈ r.peers then some 0 else none
      snapshotInflight := fun _ => none } none
    refine (Nat.add_le_add_right hlast.le 1).trans ?_
    exact (h hr).2 hpeers
  · refine ⟨hbase, fun p hp => ?_⟩
    show 1 ≤ ((if p ∈ r.peers then some (r.lastIndex + 1) else none : Option Nat)).getD 1
    split
    · exact Nat.le_add_left _ _
    · exact Nat.le_refl _

theorem within_maybeWinElection (hcfg : room → r.cfg.Fits)
    (h : r.role = .candidate → r.quorum ≤ r.votes.card → room → r.Grows)
    (hbase : r.snapshot = none → r.baseIndex = 0) :
    Within .overflow room (Checked.maybeWinElection r) r.maybeWinElection :=
  .ite (fun hwin => within_becomeLeader hcfg (h hwin.1 hwin.2) hbase) (fun _ => .ok _ _ _)

theorem within_startElection (hcfg : room → r.cfg.Fits) (hlast : room → r.lastIndex ≤ u64Max)
    (h : r.peers = [] → room → r.lastIndex + 1 ≤ u64Max)
    (hterm : room → r.currentTerm + 1 ≤ u64Max) (hbase : r.snapshot = none → r.baseIndex = 0) :
    Within .overflow room (Checked.startElection r) r.startElection := by
  have hc := core_stand r
  have hpeers : r.stand.peers = r.peers := congrArg Core.peers hc
  have hlen : r.stand.lastIndex = r.lastIndex := congrArg Core.lastIndex hc
  unfold Checked.startElection
  refine (within_addU64 hterm).bind ?_
  refine Within.bind (within_resetElectionTimer ?_) (Within.bind (within_lastIndex ?_) ?_)
  · exact hcfg
  · exact hlast
  rw [startElection_eq]
  refine within_maybeWinElection (r := r.stand) (fun hr => ?_) (fun _ hq hr => ?_) ?_
  · rw [show r.stand.cfg = r.cfg from congrArg Office.cfg (office_sendAll _ _)]
    exact hcfg hr
  · rw [show r.stand.votes = {r.id} from congrArg Core.votes hc, Finset.card_singleton] at hq
    have hnil := hpeers.symm.trans (peers_eq_nil_of_quorum_le_one hq)
    unfold Grows
    rw [hlen, hpeers]
    exact ⟨h hnil hr, fun hne => absurd hnil hne⟩
  · rw [show r.stand.snapshot = r.snapshot from congrArg Core.snapshot hc,
      show r.stand.baseIndex = r.baseIndex from congrArg Core.baseIndex hc]
    exact hbase

theorem within_maybeWinPreElection (hcfg : room → r.cfg.Fits)
    (hlast : room → r.lastIndex ≤ u64Max) (h : r.peers = [] → room → r.lastIndex + 1 ≤ u64Max)
    (hterm : room → r.currentTerm + 1 ≤ u64Max) (hbase : r.snapshot = none → r.baseIndex = 0) :
    Within .overflow room (Checked.maybeWinPreElection r) r.maybeWinPreElection :=
  .ite (fun _ => within_startElection hcfg hlast h hterm hbase) (fun _ => .ok _ _ _)

theorem within_startPreElection (hcfg : room → r.cfg.Fits) (hlast : room → r.lastIndex ≤ u64Max)
    (h : r.peers = [] → room → r.lastIndex + 1 ≤ u64Max)
    (hterm : room → r.currentTerm + 1 ≤ u64Max) (hbase : r.snapshot = none → r.baseIndex = 0) :
    Within .overflow room (Checked.startPreElection r) r.startPreElection := by
  have hc := core_poll r
  have hlen : r.poll.lastIndex = r.lastIndex := congrArg Core.lastIndex hc
  unfold Checked.startPreElection
  refine (within_resetElectionTimer hcfg).bind ((within_addU64 hterm).bind ?_)
  refine (within_lastIndex hlast).bind ?_
  rw [startPreElection_eq]
  refine within_maybeWinPreElection (r := r.poll) ?_ ?_ ?_ ?_ ?_
  · rw [show r.poll.cfg = r.cfg from congrArg Office.cfg (office_sendAll _ _)]
    exact hcfg
  · rw [hlen]
    exact hlast
  · rw [hlen, show r.poll.peers = r.peers from congrArg Core.peers hc]
    exact h
  · rw [show r.poll.currentTerm = r.currentTerm from congrArg Core.currentTerm hc]
    exact hterm
  · rw [show r.poll.snapshot = r.snapshot from congrArg Core.snapshot hc,
      show r.poll.baseIndex = r.baseIndex from congrArg Core.baseIndex hc]
    exact hbase

/-! ## Time -/

theorem within_tickHeartbeat (h : room → r.heartbeatElapsed + 1 ≤ u64Max)
    (hl : r.peers ≠ [] → room → r.lastIndex + 1 ≤ u64Max) (hs : r.Stocked) :
    Within .overflow room (Checked.tickHeartbeat r) r.tickHeartbeat := by
  unfold Checked.tickHeartbeat tickHeartbeat
  refine (within_addU64 h).bind (.ite (fun _ => ?_) (fun _ => .ok _ _ _))
  exact within_broadcastAppend (r := { r with heartbeatElapsed := 0 }) hl
    (hs.congr (r := r) rfl rfl)

theorem within_tickCheckQuorum (hcfg : room → r.cfg.Fits)
    (h : room → r.electionElapsed + 1 ≤ u64Max) :
    Within .overflow room (Checked.tickCheckQuorum r) r.tickCheckQuorum := by
  unfold Checked.tickCheckQuorum tickCheckQuorum
  refine (within_addU64 h).bind (.ite (fun _ => .ite (fun _ => ?_) fun _ => ?_)
    (fun _ => .ok _ _ _))
  · refine within_becomeFollower ?_ _ _
    exact hcfg
  · refine within_resetElectionTimer ?_
    exact hcfg

theorem lastIndex_tickCheckQuorum (r : Raft) : r.tickCheckQuorum.lastIndex = r.lastIndex := by
  unfold tickCheckQuorum
  simp only
  split
  · split
    · exact lastIndex_becomeFollower _ _ _
    · rfl
  · rfl

theorem within_tick (hcfg : room → r.cfg.Fits) (hlast : room → r.lastIndex ≤ u64Max)
    (hbeat : room → r.heartbeatElapsed + 1 ≤ u64Max)
    (helapsed : room → r.electionElapsed + 1 ≤ u64Max)
    (hlead : r.role = .leader → r.peers ≠ [] → room → r.lastIndex + 1 ≤ u64Max)
    (halone : r.role ≠ .leader → r.randomizedElectionTimeout ≤ r.electionElapsed + 1 →
      r.peers = [] → room → r.lastIndex + 1 ≤ u64Max)
    (hterm : r.role ≠ .leader → r.randomizedElectionTimeout ≤ r.electionElapsed + 1 →
      room → r.currentTerm + 1 ≤ u64Max)
    (hbase : r.snapshot = none → r.baseIndex = 0) (hs : r.role = .leader → r.Stocked) :
    Within .overflow room (Checked.tick r) r.tick := by
  unfold Checked.tick tick
  refine .ite (fun hrole => ?_) (fun hrole => ?_)
  · have ho := office_tickHeartbeat r
    have hcfg' : r.tickHeartbeat.cfg = r.cfg := congrArg Office.cfg ho
    have helapsed' : r.tickHeartbeat.electionElapsed = r.electionElapsed :=
      congrArg Office.electionElapsed ho
    refine (within_tickHeartbeat hbeat (hlead hrole) (hs hrole)).bind
      (within_tickCheckQuorum ?_ ?_)
    · rw [hcfg']
      exact hcfg
    · rw [helapsed']
      exact helapsed
  · refine (within_addU64 helapsed).bind (.ite (fun hfire => ?_) (fun _ => .ok _ _ _))
    refine within_startPreElection ?_ ?_ ?_ ?_ ?_
    · exact hcfg
    · exact hlast
    · exact halone hrole hfire
    · exact hterm hrole hfire
    · exact hbase

/-! ## Votes -/

theorem within_logOk (h : room → r.lastIndex ≤ u64Max) (req : RequestVoteReq) :
    Within .overflow room (Checked.logOk r req) (r.logOk req) := by
  unfold Checked.logOk
  split
  · next hgt =>
    rw [show r.logOk req = true by simp [logOk, hgt]]
    exact .ok _ _ _
  · next hgt =>
    split
    · next heq =>
      rw [show r.logOk req = decide (req.lastLogIndex ≥ r.lastIndex) by simp [logOk, heq]]
      exact (within_lastIndex h).bind (.ok _ _ _)
    · next hne =>
      rw [show r.logOk req = false by simp [logOk, hgt, hne]]
      exact .ok _ _ _

theorem within_handleRequestVote (hcfg : room → r.cfg.Fits) (h : room → r.lastIndex ≤ u64Max)
    (c : NodeId) (req : RequestVoteReq) :
    Within .overflow room (Checked.handleRequestVote r c req) (r.handleRequestVote c req) := by
  unfold Checked.handleRequestVote handleRequestVote
  refine .ite (fun _ => .ok _ _ _) fun _ => ?_
  refine Within.bind (a := if (!req.preVote && decide (req.term > r.currentTerm)) = true
    then r.becomeFollower req.term none else r) ?_ ?_
  · exact .ite (fun _ => within_becomeFollower hcfg _ _) (fun _ => .ok _ _ _)
  have hf : (if (!req.preVote && decide (req.term > r.currentTerm)) = true
      then r.becomeFollower req.term none else r).lastIndex = r.lastIndex ∧
      (if (!req.preVote && decide (req.term > r.currentTerm)) = true
      then r.becomeFollower req.term none else r).cfg = r.cfg := by
    split
    · exact ⟨lastIndex_becomeFollower r req.term none, (Paced.becomeFollower r req.term none).cfg⟩
    · exact ⟨rfl, rfl⟩
  generalize (if (!req.preVote && decide (req.term > r.currentTerm)) = true
    then r.becomeFollower req.term none else r) = f at hf
  refine (within_logOk (fun hr => hf.1.le.trans (h hr)) req).bind ?_
  refine .ite (fun _ => .ok _ _ _) fun _ => .ite (fun _ => .ok _ _ _) fun _ => ?_
  refine .ite (fun _ => ?_) (fun _ => .ok _ _ _)
  refine Within.bind (a := f.recordVote c) (within_resetElectionTimer ?_) (.ok _ _ _)
  intro hr
  show f.cfg.Fits
  rw [hf.2]
  exact hcfg hr

theorem within_handleVoteResp (hcfg : room → r.cfg.Fits) (hlast : room → r.lastIndex ≤ u64Max)
    {v : NodeId} (hv : v ∈ r.peers) {resp : RequestVoteResp}
    (hterm : r.role = .preCandidate → room → r.currentTerm + 1 ≤ u64Max)
    (hwin : resp.granted = true → resp.preVote = false → r.role = .candidate →
      resp.term = r.currentTerm → r.quorum ≤ (insert v r.votes).card → room → r.Grows)
    (hbase : r.snapshot = none → r.baseIndex = 0) :
    Within .overflow room (Checked.handleVoteResp r v resp) (r.handleVoteResp v resp) := by
  unfold Checked.handleVoteResp handleVoteResp
  refine .ite (fun _ => within_becomeFollower hcfg _ _) fun _ => ?_
  refine .ite (fun _ => .ok _ _ _) fun hg => .ite (fun _ => ?_) fun hpre => ?_
  · refine .ite (fun hrole => ?_) (fun _ => .ok _ _ _)
    refine within_maybeWinPreElection ?_ ?_ ?_ ?_ ?_
    · exact hcfg
    · exact hlast
    · exact fun hnil => absurd hnil (List.ne_nil_of_mem hv)
    · exact hterm hrole
    · exact hbase
  · refine .ite (fun hrole => ?_) (fun _ => .ok _ _ _)
    refine within_maybeWinElection ?_ ?_ ?_
    · exact hcfg
    · exact fun _ hq => hwin (by simpa using hg) (by simpa using hpre) hrole.1 hrole.2 hq
    · exact hbase

/-! ## Appends -/

/-- The check computes the indices it compares with, so what passes fits. -/
theorem index_le_of_contiguous {req : AppendEntriesReq} (h : entriesAreContiguous req = true) :
    ∀ e ∈ req.entries, e.index ≤ u64Max := by
  have key : ∀ (l : List LogEntry) (position previousTerm : Nat),
      entriesAreContiguous.go req position previousTerm l = true → ∀ e ∈ l, e.index ≤ u64Max := by
    intro l
    induction l with
    | nil => exact fun _ _ _ _ he => absurd he (List.not_mem_nil)
    | cons x rest ih =>
      intro position previousTerm h e he
      rw [entriesAreContiguous.go] at h
      split at h
      · cases h
      · next expectedIndex hexp =>
        split at h
        · cases h
        · next hne =>
          simp only [not_or, Decidable.not_not] at hne
          rcases List.mem_cons.mp he with rfl | he
          · simp only [checkedAdd, Option.bind_eq_some_iff] at hexp
            obtain ⟨first, _, h2⟩ := hexp
            split at h2 <;> simp at h2
            omega
          · exact ih _ _ h e he
  unfold entriesAreContiguous at h
  split at h
  · cases h
  · exact key _ _ _ h

theorem within_truncateFrom (h : room → r.lastIndex ≤ u64Max) (index : Nat) :
    Within .overflow room (Checked.truncateFrom r index) (r.truncateFrom index) := by
  unfold Checked.truncateFrom truncateFrom
  refine .ite (fun _ => .ok _ _ _) fun _ => (within_logSlot h index).bind ?_
  cases r.logSlot index with
  | some slot => exact .ok _ _ _
  | none => exact .ok _ _ _

/-- The loop pushes an entry only behind the end of the log or in the place of another, so the log
ends where it did or at an entry of the request. -/
theorem within_spliceEntries (entries : List LogEntry) :
    ∀ (r : Raft) (confirmed : Nat), r.baseIndex ≤ r.commitIndex →
      (room → r.lastIndex ≤ u64Max) → (room → ∀ e ∈ entries, e.index ≤ u64Max) →
      Within .overflow room (Checked.spliceEntries r confirmed entries)
        (r.spliceEntries confirmed entries) := by
  induction entries with
  | nil => exact fun r confirmed _ _ _ => .ok _ _ _
  | cons e rest ih =>
    intro r confirmed hbc hlast hent
    have hrest : room → ∀ e ∈ rest, e.index ≤ u64Max :=
      fun hr x hx => hent hr x (List.mem_cons_of_mem _ hx)
    have he : room → e.index ≤ u64Max := fun hr => hent hr e (List.mem_cons_self ..)
    unfold Checked.spliceEntries spliceEntries
    refine (within_lastIndex hlast).bind (.ite (fun hin => ?_) fun hout => ?_)
    · refine (within_termAt hlast e.index).bind (.ite (fun _ => ?_) fun _ => ih r _ hbc hlast hrest)
      refine (within_truncateFrom hlast e.index).bind ?_
      by_cases hcommit : e.index ≤ r.commitIndex
      · rw [show r.truncateFrom e.index = (false, r) from if_pos hcommit]
        exact .ok _ _ _
      · have hbase : r.baseIndex < e.index := by omega
        rw [show r.truncateFrom e.index = (true,
          { r with log := r.log.take (e.index - r.baseIndex - 1), dirty := true }) by
            rw [truncateFrom, if_neg hcommit, logSlot_eq_some hbase hin]]
        have hlen : ({ r with
            log := r.log.take (e.index - r.baseIndex - 1) ++ [e]
            dirty := true } : Raft).lastIndex = e.index := by
          simp only [lastIndex, List.length_append, List.length_take, List.length_singleton] at hin ⊢
          omega
        exact ih { r with
          log := r.log.take (e.index - r.baseIndex - 1) ++ [e]
          dirty := true } _ hbc (fun hr => hlen.le.trans (he hr)) hrest
    · refine ih _ _ hbc (fun hr => ?_) hrest
      have hpush : ({ r with log := r.log ++ [e], dirty := true } : Raft).lastIndex =
          r.lastIndex + 1 := by
        simp only [lastIndex, List.length_append, List.length_singleton]
        omega
      have := he hr
      rw [hpush]
      omega

theorem within_adopt (hcfg : room → r.cfg.Fits) (t : Nat) :
    Within .overflow room (if t > r.currentTerm then Checked.becomeFollower r t none else .ok r)
      (r.adopt t) :=
  .ite (fun _ => within_becomeFollower hcfg t none) (fun _ => .ok _ _ _)

theorem lastIndex_adopt (r : Raft) (t : Nat) : (r.adopt t).lastIndex = r.lastIndex := by
  unfold adopt
  split
  · exact lastIndex_becomeFollower r t none
  · rfl

theorem within_handleAppend (hcfg : room → r.cfg.Fits) (h : room → r.lastIndex ≤ u64Max)
    (hbc : r.baseIndex ≤ r.commitIndex) (l : NodeId) (req : AppendEntriesReq) :
    Within .overflow room (Checked.handleAppend r l req) (r.handleAppend l req) := by
  unfold Checked.handleAppend handleAppend
  simp only
  refine .ite (fun _ => .ok _ _ _) fun hstale => ?_
  have hle : r.currentTerm ≤ req.term := Nat.not_lt.mp hstale
  refine (within_adopt hcfg req.term).bind ?_
  rw [show (if req.term > r.currentTerm then r.becomeFollower req.term none else r)
    = r.adopt req.term from rfl]
  refine .ite (fun _ => ?_) fun hcont => ?_
  · refine (within_lastIndex fun hr => ?_).bind (.ok _ _ _)
    rw [lastIndex_adopt]
    exact h hr
  · obtain ⟨hb, hc, hlast⟩ := bounds_adopt_becomeFollower hle (some l)
    refine (within_becomeFollower (r := r.adopt req.term) (fun hr => ?_) _ _).bind ?_
    · have hsame : (r.adopt req.term).cfg = r.cfg := (Paced.adopt r req.term).cfg
      rw [hsame]
      exact hcfg hr
    generalize (r.adopt req.term).becomeFollower req.term (some l) = f at hb hc hlast
    have hf : room → f.lastIndex ≤ u64Max := fun hr => hlast.le.trans (h hr)
    refine (within_lastIndex hf).bind (.ite (fun _ => .ok _ _ _) fun _ => ?_)
    refine Within.bind (a := if req.prevLogIndex > 0 then f.termAt req.prevLogIndex else 0)
      (.ite (fun _ => within_termAt hf _) (fun _ => .ok _ _ _)) ?_
    have hcond : (req.prevLogIndex > 0 ∧
        (if req.prevLogIndex > 0 then f.termAt req.prevLogIndex else 0) ≠ req.prevLogTerm) ↔
        (req.prevLogIndex > 0 ∧ f.termAt req.prevLogIndex ≠ req.prevLogTerm) :=
      and_congr_right fun hpos => by rw [if_pos hpos]
    simp only [hcond]
    refine .ite (fun _ => .ok _ _ _) fun _ => ?_
    have hent := @index_le_of_contiguous req (by simpa using hcont)
    exact (within_spliceEntries req.entries f req.prevLogIndex (by omega) hf fun _ => hent).bind
      (.ok _ _ _)

/-! ## Responses -/

theorem Stocked.noteMatch (hs : r.Stocked) (p : NodeId) (n : Nat) : (r.noteMatch p n).Stocked where
  base := hs.base
  next := by
    intro q hq
    show 1 ≤ (Function.update r.nextIndex p _ q).getD 1
    rcases eq_or_ne q p with rfl | hne
    · rw [Function.update_self]
      exact saturatingAdd_one_pos _
    · rw [Function.update_of_ne hne]
      exact hs.next q hq

theorem Stocked.maybeAdvanceCommit (hs : r.Stocked) : r.maybeAdvanceCommit.2.Stocked := by
  unfold Raft.maybeAdvanceCommit
  split
  · exact ⟨hs.base, hs.next⟩
  · exact hs

theorem lastIndex_maybeAdvanceCommit (r : Raft) :
    r.maybeAdvanceCommit.2.lastIndex = r.lastIndex := by
  unfold maybeAdvanceCommit
  split <;> rfl

theorem peers_maybeAdvanceCommit (r : Raft) : r.maybeAdvanceCommit.2.peers = r.peers := by
  unfold maybeAdvanceCommit
  split <;> rfl

theorem within_recordMatch (h : room → r.lastIndex + 1 ≤ u64Max) (hcl : r.commitIndex ≤ r.lastIndex)
    (hs : r.Stocked) (p : NodeId) (n : Nat) :
    Within .overflow room (Checked.recordMatch r p n) (r.recordMatch p n) := by
  have hlast : room → r.lastIndex ≤ u64Max := fun hr => (Nat.le_succ _).trans (h hr)
  unfold Checked.recordMatch recordMatch
  refine (within_maybeAdvanceCommit (r := r.noteMatch p n) hlast fun hr => ?_).bind ?_
  · exact (Nat.succ_le_succ hcl).trans (h hr)
  · refine .ite (fun _ => ?_) (fun _ => .ok _ _ _)
    refine within_broadcastAppend (r := (r.noteMatch p n).maybeAdvanceCommit.2) (fun _ hr => ?_)
      (hs.noteMatch p n).maybeAdvanceCommit
    rw [lastIndex_maybeAdvanceCommit]
    exact h hr

theorem within_handleAppendResp (hcfg : room → r.cfg.Fits)
    (h : r.role = .leader → room → r.lastIndex + 1 ≤ u64Max) (hcl : r.commitIndex ≤ r.lastIndex)
    (hs : r.role = .leader → r.Stocked) {p : NodeId} (hp : p ∈ r.peers)
    (resp : AppendEntriesResp) :
    Within .overflow room (Checked.handleAppendResp r p resp) (r.handleAppendResp p resp) := by
  unfold Checked.handleAppendResp handleAppendResp
  refine .ite (fun _ => within_becomeFollower hcfg _ _) fun _ => ?_
  refine .ite (fun _ => .ok _ _ _) fun hcur => ?_
  have hl : r.role = .leader := by
    by_contra hne
    exact hcur (Or.inl hne)
  have hs' : ({ r with ackedSinceCheck := insert p r.ackedSinceCheck } : Raft).Stocked :=
    (hs hl).congr (r := r) rfl rfl
  refine .ite (fun _ => ?_) fun _ => .ite (fun _ => ?_) (fun _ => .ok _ _ _)
  · refine Within.bind (within_lastIndex fun hr => ?_)
      (within_recordMatch (r := { r with ackedSinceCheck := insert p r.ackedSinceCheck }) ?_ hcl hs'
        p _)
    · exact (Nat.le_succ _).trans (h hl hr)
    · exact h hl
  · refine within_sendAppend ?_ ⟨hs'.base, fun q hq => ?_⟩ hp
    · exact h hl
    · show 1 ≤ (Function.update r.nextIndex p _ q).getD 1
      rcases eq_or_ne q p with rfl | hne
      · rw [Function.update_self, Option.getD_some]
        have := saturatingAdd_one_pos resp.matchIndex
        omega
      · rw [Function.update_of_ne hne]
        exact (hs hl).next q hq

theorem within_installSnapshot (h : room → r.lastIndex ≤ u64Max) {req : InstallSnapshotReq}
    (hb : r.baseIndex ≤ req.lastIncludedIndex) :
    Within .overflow room (Checked.installSnapshot r req) (r.installSnapshot req) := by
  unfold Checked.installSnapshot installSnapshot
  refine (within_termAt h _).bind ?_
  refine Within.bind (a := decide (r.termAt req.lastIncludedIndex = req.lastIncludedTerm ∧
    req.lastIncludedIndex ≤ r.lastIndex)) ?_ ?_
  · split
    · next heq =>
      rw [show decide (r.termAt req.lastIncludedIndex = req.lastIncludedTerm ∧
        req.lastIncludedIndex ≤ r.lastIndex) = decide (req.lastIncludedIndex ≤ r.lastIndex) by
          simp [heq]]
      exact (within_lastIndex h).bind (.ok _ _ _)
    · next hne =>
      rw [show decide (r.termAt req.lastIncludedIndex = req.lastIncludedTerm ∧
        req.lastIncludedIndex ≤ r.lastIndex) = false by simp [hne]]
      exact .ok _ _ _
  · simp only [decide_eq_true_eq]
    refine Within.bind (a := if r.termAt req.lastIncludedIndex = req.lastIncludedTerm ∧
      req.lastIncludedIndex ≤ r.lastIndex then r.log.drop (req.lastIncludedIndex - r.baseIndex)
      else []) ?_ (.ok _ _ _)
    exact .ite (fun _ => (within_subU64 hb).bind (.ok _ _ _)) (fun _ => .ok _ _ _)

theorem within_handleInstallSnapshot (hcfg : room → r.cfg.Fits) (h : room → r.lastIndex ≤ u64Max)
    (l : NodeId) (req : InstallSnapshotReq) :
    Within .overflow room (Checked.handleInstallSnapshot r l req)
      (r.handleInstallSnapshot l req) := by
  unfold Checked.handleInstallSnapshot handleInstallSnapshot
  simp only
  refine .ite (fun _ => .ok _ _ _) fun hstale => ?_
  have hle : r.currentTerm ≤ req.term := Nat.not_lt.mp hstale
  refine (within_adopt hcfg req.term).bind ?_
  rw [show (if req.term > r.currentTerm then r.becomeFollower req.term none else r)
    = r.adopt req.term from rfl]
  refine .ite (fun _ => .ok _ _ _) fun _ => ?_
  obtain ⟨hb, hc, hlast⟩ := bounds_adopt_becomeFollower hle (some l)
  refine (within_becomeFollower (r := r.adopt req.term) (fun hr => ?_) _ _).bind ?_
  · have hsame : (r.adopt req.term).cfg = r.cfg := (Paced.adopt r req.term).cfg
    rw [hsame]
    exact hcfg hr
  generalize (r.adopt req.term).becomeFollower req.term (some l) = f at hb hc hlast
  refine .ite (fun _ => .ok _ _ _) fun hnew => ?_
  exact (within_installSnapshot (fun hr => hlast.le.trans (h hr)) (by omega)).bind (.ok _ _ _)

theorem within_handleInstallSnapshotResp (hcfg : room → r.cfg.Fits)
    (h : r.role = .leader → room → r.lastIndex + 1 ≤ u64Max) (hcl : r.commitIndex ≤ r.lastIndex)
    (hs : r.role = .leader → r.Stocked) (p : NodeId) (resp : InstallSnapshotResp) :
    Within .overflow room (Checked.handleInstallSnapshotResp r p resp)
      (r.handleInstallSnapshotResp p resp) := by
  unfold Checked.handleInstallSnapshotResp handleInstallSnapshotResp
  refine .ite (fun _ => within_becomeFollower hcfg _ _) fun _ => ?_
  refine .ite (fun _ => .ok _ _ _) fun hcur => ?_
  have hl : r.role = .leader := by
    by_contra hne
    exact hcur (Or.inl hne)
  refine .ite (fun _ => ?_) (fun _ => .ok _ _ _)
  refine within_recordMatch (r := { r with
    ackedSinceCheck := insert p r.ackedSinceCheck
    snapshotInflight := Function.update r.snapshotInflight p none }) ?_ hcl
    ((hs hl).congr (r := r) rfl rfl) p _
  exact h hl

/-! ## Calls and drains -/

/-- The call is the vote the member lacked to lead, or it needs no vote but its own. -/
def Wins (r : Raft) : Input → Prop
  | .tick => r.peers = [] ∧ r.role ≠ .leader ∧
      r.randomizedElectionTimeout ≤ r.electionElapsed + 1
  | .step v (.requestVoteResp resp) => v ∈ r.peers ∧ resp.granted = true ∧ resp.preVote = false ∧
      r.role = .candidate ∧ resp.term = r.currentTerm ∧ r.quorum ≤ (insert v r.votes).card
  | _ => False

/-- The room a call with input `i` needs. -/
structure HasRoom (i : Input) (r : Raft) : Prop where
  cfg : r.cfg.Fits
  last : r.lastIndex ≤ u64Max
  /-- A leader looks one index ahead when it sends. -/
  lead : r.role = .leader → r.peers ≠ [] → r.lastIndex + 1 ≤ u64Max
  heartbeat : i = .tick → r.heartbeatElapsed + 1 ≤ u64Max
  election : i = .tick → r.electionElapsed + 1 ≤ u64Max
  /-- A pre-election names the next term. -/
  poll : i = .tick → r.role ≠ .leader → r.randomizedElectionTimeout ≤ r.electionElapsed + 1 →
    r.currentTerm + 1 ≤ u64Max
  stand : r.role = .preCandidate → r.currentTerm + 1 ≤ u64Max
  grow : r.Wins i ∨ r.role = .leader ∧ (∃ c, i = .propose c) → r.Grows

theorem Books.stocked (hw : r.WellFormed) (hb : r.Books) (hl : r.role = .leader) : r.Stocked where
  base := hw.base_zero
  next := fun p hp => by
    obtain ⟨_, n, _, hn, _, h1, _⟩ := hb.tables hl p hp
    rw [hn, Option.getD_some]
    exact h1

/-- **A checked call computes the call, or lacks room.** -/
theorem within_run (hw : r.WellFormed) (hb : r.Books) (i : Input) :
    Within .overflow (r.HasRoom i) (Checked.run r i) (r.run i) := by
  have hcfg : r.HasRoom i → r.cfg.Fits := fun h => h.cfg
  have hlast : r.HasRoom i → r.lastIndex ≤ u64Max := fun h => h.last
  cases i with
  | tick =>
    exact within_tick hcfg hlast (fun h => h.heartbeat rfl) (fun h => h.election rfl)
      (fun hl hne h => h.lead hl hne)
      (fun hl hfire hnil h => (h.grow (Or.inl ⟨hnil, hl, hfire⟩)).1)
      (fun hl hfire h => h.poll rfl hl hfire) hw.base_zero (hb.stocked hw)
  | step p msg =>
    show Within _ _ (Checked.step r p msg) (r.step p msg)
    unfold Checked.step step
    refine .ite (fun _ => .ok _ _ _) fun hno => ?_
    have hp : p ∈ r.peers := by
      by_contra hp
      exact hno (by simp [hp])
    cases msg with
    | requestVote req => exact within_handleRequestVote hcfg hlast p req
    | requestVoteResp resp =>
      exact within_handleVoteResp hcfg hlast hp (fun hr h => h.stand hr)
        (fun hg hpre hr hterm hq h => h.grow (Or.inl ⟨hp, hg, hpre, hr, hterm, hq⟩)) hw.base_zero
    | appendEntries req => exact within_handleAppend hcfg hlast hw.base_le_commit p req
    | appendEntriesResp resp =>
      exact within_handleAppendResp hcfg (fun hl h => h.lead hl (List.ne_nil_of_mem hp))
        hw.commit_le_last (hb.stocked hw) hp resp
    | installSnapshot req => exact within_handleInstallSnapshot hcfg hlast p req
    | installSnapshotResp resp =>
      exact within_handleInstallSnapshotResp hcfg (fun hl h => h.lead hl (List.ne_nil_of_mem hp))
        hw.commit_le_last (hb.stocked hw) p resp
  | propose c =>
    show Within _ _ (Checked.propose r c) (r.propose c).2
    unfold Checked.propose propose
    split
    · exact .ok _ _ _
    · next hl =>
      have hl' : r.role = .leader := by simpa using hl
      have hgrow : r.HasRoom (.propose c) → r.Grows := fun h => h.grow (Or.inr ⟨hl', c, rfl⟩)
      have hlen := lastIndex_pushEntry r (some c)
      have hcommit := hw.commit_le_last
      refine (within_pushEntry (fun h => (hgrow h).1) (some c)).bind ?_
      refine (within_maybeAdvanceCommit (fun h => ?_) fun h => ?_).bind
        (within_broadcastAppend (r := (r.pushEntry (some c)).maybeAdvanceCommit.2)
          (fun hpeers h => ?_) (Stocked.maybeAdvanceCommit ?_))
      · have := (hgrow h).1
        omega
      · have := (hgrow h).1
        show r.commitIndex + 1 ≤ u64Max
        omega
      · rw [peers_maybeAdvanceCommit] at hpeers
        rw [lastIndex_maybeAdvanceCommit, hlen]
        exact (hgrow h).2 hpeers
      · exact ⟨(hb.stocked hw hl').base, (hb.stocked hw hl').next⟩
  | compact index snapshot =>
    show Within _ _ (Checked.compact r index snapshot) (r.compact index snapshot)
    unfold Checked.compact compact
    refine .ite (fun _ => .ok _ _ _) fun hno => ?_
    exact (within_termAt hlast index).bind ((within_subU64 (by omega)).bind (.ok _ _ _))

theorem within_applyLoop (n : Nat) : ∀ r : Raft, (room → r.lastIndex ≤ u64Max) →
    (room → r.lastApplied + n ≤ u64Max) →
    Within .overflow room (Checked.applyLoop r n) { r with lastApplied := r.lastApplied + n } := by
  induction n with
  | zero => exact fun r _ _ => .ok _ _ _
  | succ n ih =>
    intro r hlast happlied
    unfold Checked.applyLoop
    refine (within_addU64 fun h => ?_).bind ?_
    · have := happlied h
      omega
    · refine (within_logSlot (r := { r with lastApplied := r.lastApplied + 1 }) hlast _).bind ?_
      have hnext := ih { r with lastApplied := r.lastApplied + 1 } hlast fun h => by
        have := happlied h
        show r.lastApplied + 1 + n ≤ u64Max
        omega
      rw [show r.lastApplied + (n + 1) = r.lastApplied + 1 + n by omega]
      exact hnext

/-- **A checked drain computes the drain, or lacks room.** -/
theorem within_ready (hw : r.WellFormed) (hlast : room → r.lastIndex ≤ u64Max) :
    Within .overflow room (Checked.ready r) r.ready.2 := by
  have hcommit := hw.commit_le_last
  have hready : r.ready.2 = { r with
      out := []
      dirty := false
      pendingRestore := false
      lastApplied := r.lastApplied + (r.commitIndex - r.lastApplied) } := by
    unfold ready
    rw [show max r.lastApplied r.commitIndex =
      r.lastApplied + (r.commitIndex - r.lastApplied) by omega]
  rw [hready]
  refine within_applyLoop _ { r with out := [], dirty := false, pendingRestore := false } hlast
    fun h => ?_
  have := hlast h
  have happlied : r.lastApplied ≤ r.commitIndex := hw.applied_le
  show r.lastApplied + (r.commitIndex - r.lastApplied) ≤ u64Max
  omega

end Raft

end FiduciaBrain
