import FiduciaBrain.Raft.CheckedRun
import FiduciaBrain.Raft.Calls
import FiduciaBrain.RaftStore.Validate

/-!
# What a member sends is what a member accepts

Sender and receiver check each other nowhere in the code: `send_append` reads the previous term off
a log that may have been compacted, at an index that peers drive, and the receiver refuses what does
not run on. `emitted_passes`: every message a call puts in the outbox passes the receiver's checks.
-/

namespace FiduciaBrain

/-- The structural checks a member makes of a request before it looks at its own state. -/
def RaftMessage.passes : RaftMessage → Bool
  | .appendEntries req => entriesAreContiguous req
  | .installSnapshot req => snapshotMetadataIsValid req
  | .requestVote req => req.term ≠ 0
  | .requestVoteResp _ | .appendEntriesResp _ | .installSnapshotResp _ => true

/-- What the append check asks for is all it asks for. -/
theorem contiguous_of_logValid {req : AppendEntriesReq} (hterm : req.term ≠ 0)
    (hprev : req.prevLogIndex = 0 ↔ req.prevLogTerm = 0)
    (hv : LogValid req.term req.prevLogIndex req.prevLogTerm req.entries)
    (hceil : req.prevLogIndex + req.entries.length ≤ u64Max) : entriesAreContiguous req = true := by
  have key : ∀ (l : List LogEntry) (position previousTerm : Nat),
      req.prevLogIndex + position + l.length ≤ u64Max →
      LogValid req.term (req.prevLogIndex + position) previousTerm l →
      entriesAreContiguous.go req position previousTerm l = true := by
    intro l
    induction l with
    | nil => exact fun _ _ _ _ => rfl
    | cons e rest ih =>
      intro position previousTerm hlen hv
      obtain ⟨hidx, hnz, hle, hmax, hrest⟩ := hv
      rw [List.length_cons] at hlen
      have hexp : (checkedAdd req.prevLogIndex 1).bind (checkedAdd · position) =
          some (req.prevLogIndex + 1 + position) := by
        rw [checkedAdd, if_pos (by omega), Option.bind_some, checkedAdd, if_pos (by omega)]
      rw [entriesAreContiguous.go, hexp]
      simp only
      rw [if_neg (by omega)]
      exact ih (position + 1) e.term (by omega) hrest
  unfold entriesAreContiguous
  rw [if_neg]
  · exact key _ _ _ (by omega) hv
  · simp only [not_or, ne_eq, Decidable.not_not, decide_eq_decide]
    exact ⟨hterm, hprev⟩

namespace Raft

variable {r r' : Raft}

/-! ## Requests that pass -/

/-- Every next index of a peer is one `send_append` can start from. -/
structure Ranged (r : Raft) : Prop where
  wellFormed : r.WellFormed
  leads : r.role = .leader
  next : ∀ p ∈ r.peers, ∃ n, r.nextIndex p = some n ∧ 1 ≤ n ∧ n ≤ r.lastIndex + 1
  ceil : r.lastIndex ≤ u64Max

theorem Ranged.congr {s : Raft} (hc : s.core = r.core) (hn : s.nextIndex = r.nextIndex)
    (h : r.Ranged) : s.Ranged where
  wellFormed := by
    rw [WellFormed, hc]
    exact h.wellFormed
  leads := (congrArg Core.role hc).trans h.leads
  next := by
    rw [show s.peers = r.peers from congrArg Core.peers hc, hn,
      show s.lastIndex = r.lastIndex from congrArg Core.lastIndex hc]
    exact h.next
  ceil := (congrArg Core.lastIndex hc).le.trans h.ceil

theorem Books.ranged (hb : r.Books) (hw : r.WellFormed) (hl : r.role = .leader)
    (hceil : r.lastIndex ≤ u64Max) : r.Ranged where
  wellFormed := hw
  leads := hl
  next := fun p hp => by
    obtain ⟨_, n, _, hn, _, h1, hle⟩ := hb.tables hl p hp
    exact ⟨n, hn, h1, hle⟩
  ceil := hceil

/-- The term in front of an index that the log reaches is zero at the very beginning only. -/
theorem termAt_eq_zero_iff (h : r.WellFormed) {i : Nat} (hb : r.baseIndex ≤ i)
    (hl : i ≤ r.lastIndex) : i = 0 ↔ r.termAt i = 0 := by
  rcases Nat.lt_or_eq_of_le hb with hlt | rfl
  · have hlive := (h.termAt_live hlt hl).1
    constructor
    · intro h0
      omega
    · exact fun h0 => absurd h0 hlive
  · rw [termAt_base]
    exact h.base

/-- The append of a leader from a next index in range. -/
theorem Ranged.append_passes (h : r.Ranged) {n : Nat} (hb : r.baseIndex < n)
    (hn : n ≤ r.lastIndex + 1) : RaftMessage.passes (.appendEntries
      { term := r.currentTerm
        leaderId := r.id
        prevLogIndex := n - 1
        prevLogTerm := r.termAt (n - 1)
        entries := match r.logSlot n with
          | some slot => r.log.drop slot
          | none => []
        leaderCommit := r.commitIndex }) = true := by
  have hterm : r.currentTerm ≠ 0 := h.wellFormed.term (Or.inr h.leads)
  have hlen : r.lastIndex = r.baseIndex + r.log.length := rfl
  have hceil := h.ceil
  have hprev := termAt_eq_zero_iff h.wellFormed (i := n - 1) (by omega) (by omega)
  refine contiguous_of_logValid hterm hprev ?_ ?_
  · show LogValid r.currentTerm (n - 1) (r.termAt (n - 1)) _
    rcases Nat.lt_or_ge r.lastIndex n with hgt | hle
    · rw [logSlot_eq_none (Or.inr hgt)]
      trivial
    · rw [logSlot_eq_some hb hle]
      rcases Nat.lt_or_eq_of_le (Nat.le_sub_one_of_lt hb) with hlt | heq
      · have hd := h.wellFormed.log_drop hlt (by omega)
        rwa [show n - 1 - r.baseIndex = n - r.baseIndex - 1 by omega] at hd
      · rw [← heq, termAt_base, show n - r.baseIndex - 1 = 0 by omega]
        exact h.wellFormed.log_valid
  · show n - 1 + List.length _ ≤ u64Max
    rcases Nat.lt_or_ge r.lastIndex n with hgt | hle
    · rw [logSlot_eq_none (Or.inr hgt)]
      simp only [List.length_nil]
      omega
    · rw [logSlot_eq_some hb hle]
      simp only [List.length_drop]
      omega

/-- The snapshot of a leader. -/
theorem Ranged.snapshot_passes (h : r.Ranged) {data : Bytes} (hd : r.snapshot = some data) :
    RaftMessage.passes (.installSnapshot
      { term := r.currentTerm
        leaderId := r.id
        lastIncludedIndex := r.baseIndex
        lastIncludedTerm := r.baseTerm
        data := data }) = true := by
  have hterm : r.currentTerm ≠ 0 := h.wellFormed.term (Or.inr h.leads)
  have hbase : 0 < r.baseIndex := h.wellFormed.snapshot.mp (by
    show r.snapshot ≠ none
    rw [hd]
    simp)
  have hbt : r.baseTerm ≠ 0 := fun h0 => absurd (h.wellFormed.base.mpr h0) (Nat.ne_of_gt hbase)
  have hle : r.baseTerm ≤ r.currentTerm := h.wellFormed.baseTerm_le
  simp only [RaftMessage.passes, snapshotMetadataIsValid, Bool.and_eq_true, decide_eq_true_eq]
  exact ⟨⟨⟨Nat.pos_of_ne_zero hterm, hbase⟩, Nat.pos_of_ne_zero hbt⟩, hle⟩

/-! ## What is added to the outbox -/

/-- Everything added to the outbox passes. -/
def Emits (r r' : Raft) : Prop := ∀ m ∈ r'.out, m ∈ r.out ∨ m.msg.passes = true

namespace Emits

theorem of_out (h : r'.out = r.out) : Emits r r' := fun _ hm => Or.inl (h ▸ hm)

theorem trans {s t : Raft} (h : Emits r s) (h' : Emits s t) : Emits r t :=
  fun m hm => (h' m hm).elim (h m) Or.inr

theorem send {s : Raft} (h : Emits r s) (p : NodeId) {msg : RaftMessage}
    (hm : msg.passes = true) : Emits r (s.send p msg) := by
  intro m hmem
  rcases List.mem_append.mp hmem with hmem | hmem
  · exact h m hmem
  · rw [List.mem_singleton.mp hmem]
    exact Or.inr hm

theorem sendAll (r : Raft) {msg : RaftMessage} (hm : msg.passes = true) :
    Emits r (r.sendAll msg) := by
  intro m hmem
  rcases mem_out_sendAll hmem with hold | heq
  · exact Or.inl hold
  · rw [heq]
    exact Or.inr hm

theorem sendAppend (h : r.Ranged) {p : NodeId} (hp : p ∈ r.peers) : Emits r (r.sendAppend p) := by
  obtain ⟨n, hn, h1, hle⟩ := h.next p hp
  intro m hm
  unfold Raft.sendAppend at hm
  simp only [hn, Option.getD_some] at hm
  split at hm
  · unfold sendSnapshot at hm
    split at hm
    · exact Or.inl hm
    · next data hd =>
      rcases List.mem_append.mp hm with hm | hm
      · exact Or.inl hm
      · rw [List.mem_singleton.mp hm]
        exact Or.inr (h.snapshot_passes hd)
  · next hb =>
    rcases List.mem_append.mp hm with hm | hm
    · exact Or.inl hm
    · rw [List.mem_singleton.mp hm]
      exact Or.inr (h.append_passes (Nat.lt_of_not_le hb) hle)

theorem broadcastAppend (h : r.Ranged) : Emits r r.broadcastAppend := by
  have key : ∀ (l : List NodeId) (s : Raft), (∀ p ∈ l, p ∈ r.peers) → s.core = r.core →
      s.nextIndex = r.nextIndex → Emits r s → Emits r (l.foldl Raft.sendAppend s) := by
    intro l
    induction l with
    | nil => exact fun _ _ _ _ h => h
    | cons p rest ih =>
      intro s hl hc hn hs
      have hp : p ∈ s.peers := by
        rw [show s.peers = r.peers from congrArg Core.peers hc]
        exact hl p (List.mem_cons_self ..)
      refine ih _ (fun q hq => hl q (List.mem_cons_of_mem _ hq)) ((core_sendAppend s p).trans hc)
        ((congrArg Office.nextIndex (office_sendAppend s p)).trans hn) ?_
      exact hs.trans (sendAppend (h.congr hc hn) hp)
  exact key r.peers r (fun _ hp => hp) rfl rfl (of_out rfl)

end Emits

/-! ## Calls -/

/-- A state behind a broadcast is in range if the one after it is. -/
theorem emits_broadcastAppend (h : r.broadcastAppend.Ranged) : Emits r r.broadcastAppend :=
  .broadcastAppend (h.congr (core_broadcastAppend r).symm
    (congrArg Office.nextIndex (office_broadcastAppend r)).symm)

theorem emits_poll (r : Raft) : Emits r r.poll := .sendAll _ (by simp [RaftMessage.passes])

theorem emits_stand (r : Raft) : Emits r r.stand := fun m hm =>
  (mem_out_stand hm).imp_right fun heq => by simp [heq, RaftMessage.passes]

/-- The state behind a send is in range if the one after it is. -/
theorem emits_sendAppend {p : NodeId} (hp : p ∈ r.peers) (h : (r.sendAppend p).Ranged) :
    Emits r (r.sendAppend p) :=
  .sendAppend (h.congr (core_sendAppend r p).symm
    (congrArg Office.nextIndex (office_sendAppend r p)).symm) hp

theorem emits_maybeWinElection (h : r.maybeWinElection.role = .leader → r.maybeWinElection.Ranged) :
    Emits r r.maybeWinElection := by
  unfold maybeWinElection at h ⊢
  split
  · next hwin =>
    rw [if_pos hwin] at h
    exact emits_broadcastAppend (h (congrArg Core.role (core_becomeLeader r)))
  · exact .of_out rfl

theorem emits_maybeWinPreElection
    (h : r.maybeWinPreElection.role = .leader → r.maybeWinPreElection.Ranged) :
    Emits r r.maybeWinPreElection := by
  unfold maybeWinPreElection at h ⊢
  split
  · next hwin =>
    rw [if_pos hwin, startElection_eq] at h
    rw [startElection_eq]
    exact (emits_stand r).trans (emits_maybeWinElection h)
  · exact .of_out rfl

theorem out_tickCheckQuorum (r : Raft) : r.tickCheckQuorum.out = r.out := by
  unfold tickCheckQuorum
  simp only
  split
  · split
    · exact out_becomeFollower _ _ _
    · rfl
  · rfl

theorem emits_tick (hw : r.WellFormed) (hb : r.Books) (hceil : r.tick.lastIndex ≤ u64Max)
    (h : r.tick.role = .leader → r.tick.Ranged) : Emits r r.tick := by
  by_cases hl : r.role = .leader
  · have htick : r.tick = r.tickHeartbeat.tickCheckQuorum := if_pos hl
    have hbeat : r.tickHeartbeat.lastIndex = r.lastIndex :=
      congrArg Core.lastIndex (core_tickHeartbeat r)
    rw [htick, lastIndex_tickCheckQuorum, hbeat] at hceil
    rw [htick]
    refine Emits.trans ?_ (.of_out (out_tickCheckQuorum _))
    unfold tickHeartbeat
    simp only
    split
    · have hr : ({ r with heartbeatElapsed := 0 } : Raft).Ranged :=
        (hb.ranged hw hl hceil).congr (r := r) rfl rfl
      exact Emits.trans (s := { r with heartbeatElapsed := 0 }) (.of_out rfl) (.broadcastAppend hr)
    · exact .of_out rfl
  · unfold tick at h ⊢
    rw [if_neg hl] at h ⊢
    simp only at h ⊢
    split
    · next hclose =>
      rw [if_pos hclose, startPreElection_eq] at h
      rw [startPreElection_eq]
      exact Emits.trans (s := { r with electionElapsed := r.electionElapsed + 1 }) (.of_out rfl)
        ((emits_poll _).trans (emits_maybeWinPreElection h))
    · exact .of_out rfl

theorem emits_handleVoteResp {v : NodeId} {resp : RequestVoteResp}
    (h : (r.handleVoteResp v resp).role = .leader → (r.handleVoteResp v resp).Ranged) :
    Emits r (r.handleVoteResp v resp) := by
  unfold handleVoteResp at h ⊢
  split
  · exact .of_out (out_becomeFollower r resp.term none)
  next hterm =>
  rw [if_neg hterm] at h
  split
  · exact .of_out rfl
  next hg =>
  rw [if_neg hg] at h
  split
  · next hpre =>
    rw [if_pos hpre] at h
    split
    · next hrole =>
      rw [if_pos hrole] at h
      exact Emits.trans (s := { r with votes := insert v r.votes }) (.of_out rfl)
        (emits_maybeWinPreElection h)
    · exact .of_out rfl
  · next hpre =>
    rw [if_neg hpre] at h
    split
    · next hrole =>
      rw [if_pos hrole] at h
      exact Emits.trans (s := { r with votes := insert v r.votes }) (.of_out rfl)
        (emits_maybeWinElection h)
    · exact .of_out rfl

theorem emits_recordMatch {p : NodeId} {n : Nat} (hl : r.role = .leader)
    (h : (r.recordMatch p n).role = .leader → (r.recordMatch p n).Ranged) :
    Emits r (r.recordMatch p n) := by
  have heq : r.recordMatch p n = if (r.noteMatch p n).maybeAdvanceCommit.1 then
      (r.noteMatch p n).maybeAdvanceCommit.2.broadcastAppend
    else (r.noteMatch p n).maybeAdvanceCommit.2 := rfl
  have hout : (r.noteMatch p n).maybeAdvanceCommit.2.out = r.out := by
    unfold maybeAdvanceCommit
    split <;> rfl
  rw [heq] at h ⊢
  split
  · next hadv =>
    rw [if_pos hadv] at h
    refine Emits.trans (.of_out hout) (emits_broadcastAppend (h ?_))
    refine (congrArg Core.role (core_broadcastAppend _)).trans ?_
    exact role_maybeAdvanceCommit.trans hl
  · exact .of_out hout

theorem emits_handleAppendResp {p : NodeId} {resp : AppendEntriesResp} (hp : p ∈ r.peers)
    (h : (r.handleAppendResp p resp).role = .leader → (r.handleAppendResp p resp).Ranged) :
    Emits r (r.handleAppendResp p resp) := by
  unfold handleAppendResp at h ⊢
  simp only at h ⊢
  split
  · exact .of_out (out_becomeFollower r resp.term none)
  next hterm =>
  rw [if_neg hterm] at h
  split
  · exact .of_out rfl
  next hcur =>
  rw [if_neg hcur] at h
  have hl : r.role = .leader := by
    by_contra hne
    exact hcur (Or.inl hne)
  split
  · next hs =>
    rw [if_pos hs] at h
    exact Emits.trans (s := { r with ackedSinceCheck := insert p r.ackedSinceCheck }) (.of_out rfl)
      (emits_recordMatch hl h)
  · next hs =>
    rw [if_neg hs] at h
    split
    · next hlt =>
      rw [if_pos hlt] at h
      refine Emits.trans (s := { r with
        ackedSinceCheck := insert p r.ackedSinceCheck
        nextIndex := _ }) (.of_out rfl) (emits_sendAppend hp (h ?_))
      exact (congrArg Core.role (core_sendAppend _ _)).trans hl
    · exact .of_out rfl

theorem emits_handleInstallSnapshotResp {p : NodeId} {resp : InstallSnapshotResp}
    (h : (r.handleInstallSnapshotResp p resp).role = .leader →
      (r.handleInstallSnapshotResp p resp).Ranged) :
    Emits r (r.handleInstallSnapshotResp p resp) := by
  unfold handleInstallSnapshotResp at h ⊢
  simp only at h ⊢
  split
  · exact .of_out (out_becomeFollower r resp.term none)
  next hterm =>
  rw [if_neg hterm] at h
  split
  · exact .of_out rfl
  next hcur =>
  rw [if_neg hcur] at h
  have hl : r.role = .leader := by
    by_contra hne
    exact hcur (Or.inl hne)
  split
  · next hs =>
    rw [if_pos hs] at h
    exact Emits.trans (s := { r with
      ackedSinceCheck := insert p r.ackedSinceCheck
      snapshotInflight := Function.update r.snapshotInflight p none }) (.of_out rfl)
      (emits_recordMatch hl h)
  · exact .of_out rfl

/-- A request gets responses only. -/
theorem emits_handleRequestVote (r : Raft) (c : NodeId) (req : RequestVoteReq) :
    Emits r (r.handleRequestVote c req) := by
  have hadopt : Emits r (if (!req.preVote && decide (req.term > r.currentTerm)) = true
      then r.becomeFollower req.term none else r) := by
    split
    · exact .of_out (out_becomeFollower r req.term none)
    · exact .of_out rfl
  unfold handleRequestVote
  simp only
  generalize (if (!req.preVote && decide (req.term > r.currentTerm)) = true
      then r.becomeFollower req.term none else r) = f at hadopt
  split
  · exact (Emits.of_out rfl).send c rfl
  · split
    · exact hadopt.send c rfl
    · split
      · exact hadopt.send c rfl
      · split
        · exact (hadopt.trans (s := f) (.of_out rfl)).send c rfl
        · exact hadopt.send c rfl

theorem emits_handleAppend (r : Raft) (l : NodeId) (req : AppendEntriesReq) :
    Emits r (r.handleAppend l req) := by
  unfold handleAppend
  simp only
  split
  · exact (Emits.of_out rfl).send l rfl
  rw [show (if req.term > r.currentTerm then r.becomeFollower req.term none else r)
    = r.adopt req.term from rfl]
  split
  · exact (Emits.of_out (out_adopt r req.term)).send l rfl
  · have hf : ((r.adopt req.term).becomeFollower req.term (some l)).out = r.out :=
      (out_becomeFollower _ _ _).trans (out_adopt r req.term)
    generalize (r.adopt req.term).becomeFollower req.term (some l) = f at hf
    split
    · exact (Emits.of_out hf).send l rfl
    · split
      · exact (Emits.of_out hf).send l rfl
      · refine (Emits.of_out ?_).send l rfl
        exact (out_commitThrough _ _ _).trans ((out_spliceEntries _ _).trans hf)

theorem emits_handleInstallSnapshot (r : Raft) (l : NodeId) (req : InstallSnapshotReq) :
    Emits r (r.handleInstallSnapshot l req) := by
  unfold handleInstallSnapshot
  simp only
  split
  · exact (Emits.of_out rfl).send l rfl
  rw [show (if req.term > r.currentTerm then r.becomeFollower req.term none else r)
    = r.adopt req.term from rfl]
  split
  · exact (Emits.of_out (out_adopt r req.term)).send l rfl
  · have hf : ((r.adopt req.term).becomeFollower req.term (some l)).out = r.out :=
      (out_becomeFollower _ _ _).trans (out_adopt r req.term)
    generalize (r.adopt req.term).becomeFollower req.term (some l) = f at hf
    split <;> exact (Emits.of_out hf).send l rfl

theorem emits_propose {c : Command}
    (h : (r.propose c).2.role = .leader → (r.propose c).2.Ranged) : Emits r (r.propose c).2 := by
  unfold propose at h ⊢
  split
  · exact .of_out rfl
  · next hl =>
    rw [if_neg hl] at h
    have hl' : r.role = .leader := by simpa using hl
    have hout : (r.pushEntry (some c)).maybeAdvanceCommit.2.out = r.out := by
      unfold maybeAdvanceCommit
      split <;> rfl
    refine Emits.trans (.of_out hout) (emits_broadcastAppend (h ?_))
    exact (congrArg Core.role (core_broadcastAppend _)).trans
      ((role_maybeAdvanceCommit (r := r.pushEntry (some c))).trans hl')

theorem emits_run (hw : r.WellFormed) (hb : r.Books) {i : Input} (ha : r.Admissible i)
    (hceil : (r.run i).lastIndex ≤ u64Max) : Emits r (r.run i) := by
  have h : (r.run i).role = .leader → (r.run i).Ranged :=
    fun hl => (hb.run hw i).ranged (hw.run ha) hl hceil
  cases i with
  | tick => exact emits_tick hw hb hceil h
  | step p msg =>
    have hstep : r.run (.step p msg) = r.step p msg := rfl
    rcases step_cases r p msg with ⟨hp, _, heq⟩ | ⟨_, heq⟩
    · rw [hstep, heq] at h ⊢
      cases msg with
      | requestVote req => exact emits_handleRequestVote r p req
      | requestVoteResp resp => exact emits_handleVoteResp h
      | appendEntries req => exact emits_handleAppend r p req
      | appendEntriesResp resp => exact emits_handleAppendResp hp h
      | installSnapshot req => exact emits_handleInstallSnapshot r p req
      | installSnapshotResp resp => exact emits_handleInstallSnapshotResp h
    · rw [hstep, heq]
      exact .of_out rfl
  | propose c => exact emits_propose h
  | compact index snapshot =>
    refine .of_out ?_
    show (r.compact index snapshot).out = r.out
    unfold compact
    split <;> rfl

/-! ## Every reachable engine -/

open Infra in
theorem books_of_reachable (h : (engineSystem fun p => validatePersisted p = .ok ()).Reachable r) :
    r.Books := by
  have key : r.WellFormed ∧ r.Books := by
    refine h.invariant (P := fun r => r.WellFormed ∧ r.Books) ?_ fun s t _ hs hstep => ?_
    · rintro _ ⟨id, peers, cfg, seed, p, hp, rfl⟩
      exact ⟨wellFormed_new (validatePersisted_ok_iff.mp hp).1, books_new ..⟩
    · refine ⟨hstep.wellFormed hs.1, ?_⟩
      cases hstep with
      | call i _ => exact hs.2.run hs.1 i
      | ready => exact hs.2.ready
  exact key.2

/--
**Every request a member sends is one a member accepts, and a snapshot is there to send.** Whatever
calls and messages led here, a call that leaves the log below the ceiling adds only messages that
pass the receiver's checks, and neither a call nor a drain reaches `send_snapshot` without a
snapshot.
-/
theorem emitted_passes
    (h : (engineSystem fun p => validatePersisted p = .ok ()).Reachable r) {i : Input}
    (ha : r.Admissible i) (hceil : (r.run i).lastIndex ≤ u64Max) :
    (∀ m ∈ (r.run i).out, m ∈ r.out ∨ m.msg.passes = true) ∧
      Checked.run r i ≠ .error .noSnapshot ∧ Checked.ready r ≠ .error .noSnapshot := by
  have hw := wellFormed_of_reachable h
  have hb := books_of_reachable h
  exact ⟨emits_run hw hb ha hceil, (within_run hw hb i).ne_error (by decide),
    (@within_ready r (r.lastIndex ≤ u64Max) hw fun h => h).ne_error (by decide)⟩

open Infra in
theorem reachable_duoLeader :
    (engineSystem fun p => validatePersisted p = .ok ()).Reachable duoLeader :=
  ⟨duoStart, ⟨_, _, _, _, _, by decide, rfl⟩, steps_calls (by decide) duoStart⟩

theorem emitted_passes_duoLeader :
    (∀ m ∈ (duoLeader.run (.propose (.forgetNode "node-9"))).out,
      m ∈ duoLeader.out ∨ m.msg.passes = true) ∧
      Checked.run duoLeader (.propose (.forgetNode "node-9")) ≠ .error .noSnapshot ∧
      Checked.ready duoLeader ≠ .error .noSnapshot :=
  emitted_passes reachable_duoLeader trivial (by decide +kernel)

end Raft

end FiduciaBrain
