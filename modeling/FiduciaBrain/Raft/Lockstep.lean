import FiduciaBrain.Raft.Canvass

/-!
# Members that time out in lockstep

A valid configuration may give all members one election timeout, with nothing to draw. A member
whose timer runs then never counts up to `election_min_ticks`, because that is when it polls and the
count restarts, and while it counts less it denies every pre-vote as long as it has a leader on
record. The poll itself does not clear that record. So a member that trusts a leader stays loyal to
it (`Loyal`) whatever harmless messages it hears.
-/

namespace FiduciaBrain

/-- A valid configuration that leaves nothing to the draw. -/
def RaftConfig.Lockstep (cfg : RaftConfig) : Prop :=
  cfg.validate = .ok () ∧ cfg.electionMaxTicks = cfg.electionMinTicks

instance (cfg : RaftConfig) : Decidable cfg.Lockstep := inferInstanceAs (Decidable (_ ∧ _))

theorem RaftConfig.Lockstep.pos {cfg : RaftConfig} (h : cfg.Lockstep) : 1 < cfg.electionMinTicks := by
  have hv := h.1
  unfold validate at hv
  split at hv
  · cases hv
  split at hv
  · cases hv
  · omega

theorem RaftConfig.Lockstep.draws {cfg : RaftConfig} (h : cfg.Lockstep) {timeout : Nat}
    (hd : cfg.Draws timeout) : timeout = cfg.electionMinTicks := by
  obtain ⟨hlo, hhi⟩ := hd
  have hpos := h.pos
  rw [h.2] at hhi
  omega

namespace Raft

variable {r r' : Raft} {t : Nat}

/-- Is a message of no later term, and no granted pre-vote? -/
def Harmless (t : Nat) : RaftMessage → Prop
  | .requestVote req => req.preVote = true ∨ req.term ≤ t
  | .requestVoteResp resp => resp.term ≤ t ∧ (resp.granted = true → resp.preVote = false)
  | .appendEntries req => req.term ≤ t
  | .appendEntriesResp resp => resp.term ≤ t
  | .installSnapshot req => req.term ≤ t
  | .installSnapshotResp resp => resp.term ≤ t

instance (t : Nat) : (msg : RaftMessage) → Decidable (Harmless t msg)
  | .requestVote req => inferInstanceAs (Decidable (req.preVote = true ∨ req.term ≤ t))
  | .requestVoteResp resp =>
      inferInstanceAs (Decidable (resp.term ≤ t ∧ (resp.granted = true → resp.preVote = false)))
  | .appendEntries req => inferInstanceAs (Decidable (req.term ≤ t))
  | .appendEntriesResp resp => inferInstanceAs (Decidable (resp.term ≤ t))
  | .installSnapshot req => inferInstanceAs (Decidable (req.term ≤ t))
  | .installSnapshotResp resp => inferInstanceAs (Decidable (resp.term ≤ t))

/-- What a member's loyalty is about. -/
structure Stance where
  id : NodeId
  peers : List NodeId
  cfg : RaftConfig
  currentTerm : Nat
  role : Role
  leaderId : Option NodeId
  votes : Finset NodeId
  electionElapsed : Nat
  randomizedElectionTimeout : Nat

def stance (r : Raft) : Stance where
  id := r.id
  peers := r.peers
  cfg := r.cfg
  currentTerm := r.currentTerm
  role := r.role
  leaderId := r.leaderId
  votes := r.votes
  electionElapsed := r.electionElapsed
  randomizedElectionTimeout := r.randomizedElectionTimeout

/-- A member of term `t` that has a leader on record and does not run for the office. -/
structure Loyal (t : Nat) (c : Stance) : Prop where
  lockstep : c.cfg.Lockstep
  peers : c.peers ≠ []
  term : c.currentTerm = t
  leader : c.leaderId ≠ none
  role : c.role = .follower ∨ c.role = .preCandidate
  timeout : c.randomizedElectionTimeout = c.cfg.electionMinTicks
  elapsed : c.electionElapsed < c.cfg.electionMinTicks

/-- After a call: still loyal, and nothing but harmless messages more in the outbox. -/
def Stays (t : Nat) (r r' : Raft) : Prop :=
  Loyal t r'.stance ∧ ∀ m ∈ r'.out, m ∈ r.out ∨ Harmless t m.msg

namespace Stays

theorem of_eq (h : Loyal t r.stance) (hs : r'.stance = r.stance) (ho : r'.out = r.out) :
    Stays t r r' := ⟨hs ▸ h, fun _ hm => Or.inl (ho ▸ hm)⟩

theorem send (h : Stays t r r') {p : NodeId} {msg : RaftMessage} (hm : Harmless t msg) :
    Stays t r (r'.send p msg) := by
  refine ⟨h.1, fun m hmem => ?_⟩
  rcases List.mem_append.mp hmem with hmem | hmem
  · exact h.2 m hmem
  · exact Or.inr (by rw [List.mem_singleton.mp hmem]; exact hm)

end Stays

theorem sendAll_frame (r : Raft) (msg : RaftMessage) : (r.sendAll msg).stance = r.stance := by
  have key : ∀ (l : List NodeId) (s : Raft),
      (l.foldl (fun r p => r.send p msg) s).stance = s.stance := by
    intro l
    induction l with
    | nil => exact fun _ => rfl
    | cons p rest ih => exact fun s => ih (s.send p msg)
  exact key r.peers r

theorem Loyal.not_leader (h : Loyal t r.stance) : r.role ≠ .leader := by
  have hrole := h.role
  simp only [stance] at hrole
  rcases hrole with hrole | hrole <;> simp [hrole]

/-- A loyal member whose timer restarts. -/
theorem Loyal.rearm {s : Raft} (h : Loyal t r.stance) (hp : s.peers = r.peers) (hc : s.cfg = r.cfg)
    (ht : s.currentTerm = r.currentTerm) (hl : s.leaderId ≠ none)
    (hrole : s.role = .follower ∨ s.role = .preCandidate) :
    Loyal t s.resetElectionTimer.stance := by
  obtain ⟨timeout, hdraw, hoffice⟩ := office_resetElectionTimer s
  have htimeout : s.resetElectionTimer.randomizedElectionTimeout = timeout :=
    congrArg Office.randomizedElectionTimeout hoffice
  refine ⟨?_, ?_, ht.trans h.term, hl, hrole, ?_, ?_⟩
  · show s.cfg.Lockstep
    rw [hc]
    exact h.lockstep
  · show s.peers ≠ []
    rw [hp]
    exact h.peers
  · show s.resetElectionTimer.randomizedElectionTimeout = s.cfg.electionMinTicks
    rw [htimeout]
    exact RaftConfig.Lockstep.draws (hc ▸ h.lockstep) hdraw
  · show 0 < s.cfg.electionMinTicks
    rw [hc]
    have := h.lockstep.pos
    exact Nat.lt_of_lt_of_le Nat.one_pos this.le

/-! ## Ticking -/

theorem stays_tick (h : Loyal t r.stance) : Stays t r r.tick := by
  have hq : 1 < r.quorum := one_lt_quorum h.peers
  by_cases hopen : r.electionElapsed + 1 < r.randomizedElectionTimeout
  · rw [tick_of_open h.not_leader hopen]
    refine ⟨⟨h.lockstep, h.peers, h.term, h.leader, h.role, h.timeout, ?_⟩, fun _ => Or.inl⟩
    exact hopen.trans_eq h.timeout
  · rw [tick_of_closes h.not_leader (Nat.not_lt.mp hopen) hq]
    refine ⟨?_, fun m hm => ?_⟩
    · unfold poll
      rw [sendAll_frame]
      exact h.rearm (s := { r with
        electionElapsed := r.electionElapsed + 1
        role := .preCandidate
        votes := {r.id} }) rfl rfl rfl h.leader (Or.inr rfl)
    · rcases mem_out_poll hm with hm | ⟨req, hreq, hpre⟩
      · exact Or.inl hm
      · exact Or.inr (by rw [hreq]; exact Or.inl hpre)

/-! ## Hearing -/

/-- A loyal member denies every pre-vote. -/
theorem handleRequestVote_denied (h : Loyal t r.stance) {c : NodeId} {req : RequestVoteReq}
    (hpre : req.preVote = true) : r.handleRequestVote c req = r.send c
      (.requestVoteResp { term := r.currentTerm, granted := false, preVote := true }) := by
  have hleader : r.leaderId.isNone = false := by
    cases hl : r.leaderId with
    | none => exact absurd hl h.leader
    | some _ => rfl
  have helapsed : ¬ r.electionElapsed ≥ r.cfg.electionMinTicks := Nat.not_le.mpr h.elapsed
  unfold handleRequestVote
  simp only [hpre, Bool.not_true, Bool.false_and, Bool.false_eq_true, if_false, if_true, hleader,
    helapsed, decide_false, Bool.or_self, Bool.and_false]
  split
  · rfl
  · split <;> rfl

theorem stays_handleRequestVote (h : Loyal t r.stance) (c : NodeId) {req : RequestVoteReq}
    (hm : Harmless t (.requestVote req)) : Stays t r (r.handleRequestVote c req) := by
  have hterm : r.currentTerm = t := h.term
  have hsame : Stays t r r := .of_eq h rfl rfl
  by_cases hpre : req.preVote = true
  · rw [handleRequestVote_denied h hpre]
    exact hsame.send ⟨hterm.le, fun hno => nomatch hno⟩
  · have hle : req.term ≤ t := hm.resolve_left hpre
    have hfalse : req.preVote = false := Bool.eq_false_iff.mpr hpre
    have hanswer : ∀ g, Harmless t (.requestVoteResp
        { term := r.currentTerm, granted := g, preVote := req.preVote }) :=
      fun _ => ⟨hterm.le, fun _ => hfalse⟩
    unfold handleRequestVote
    simp only
    rw [show (if (!req.preVote && decide (req.term > r.currentTerm)) = true then
      r.becomeFollower req.term none else r) = r from if_neg (by
        rw [Bool.and_eq_true, decide_eq_true_eq]
        omega), if_neg hpre]
    split
    · exact hsame.send (hanswer _)
    split
    · exact hsame.send (hanswer _)
    split
    · have hvoted : Stays t r (r.recordVote c) :=
        ⟨h.rearm (s := { r with votedFor := some c, dirty := true }) rfl rfl rfl h.leader h.role,
          fun _ => Or.inl⟩
      exact hvoted.send (hanswer _)
    · exact hsame.send (hanswer _)

theorem handleVoteResp_loyal (h : Loyal t r.stance) (v : NodeId) {resp : RequestVoteResp}
    (hm : Harmless t (.requestVoteResp resp)) : r.handleVoteResp v resp = r := by
  have hterm : r.currentTerm = t := h.term
  obtain ⟨hle, hreal⟩ := hm
  unfold handleVoteResp
  rw [if_neg (by omega)]
  cases hg : resp.granted with
  | false => rfl
  | true =>
    have hrole : r.role ≠ .candidate := by
      have := h.role
      simp only [stance] at this
      rcases this with h | h <;> simp [h]
    simp only [hreal hg, Bool.not_true, Bool.false_eq_true, if_false, hrole, false_and]

theorem stays_follow (h : Loyal t r.stance) (l : NodeId) :
    Stays t r (r.becomeFollower t (some l)) := by
  have hterm : r.currentTerm = t := h.term
  refine ⟨?_, fun _ hm => Or.inl (by rwa [out_becomeFollower] at hm)⟩
  unfold becomeFollower
  rw [if_neg (by omega)]
  exact h.rearm (s := { r with
    role := .follower
    leaderId := some l
    votes := ∅
    snapshotInflight := fun _ => none }) rfl rfl rfl (by simp) (Or.inl rfl)

theorem stays_handleAppend (h : Loyal t r.stance) (l : NodeId) {req : AppendEntriesReq}
    (hle : req.term ≤ t) : Stays t r (r.handleAppend l req) := by
  have hterm : r.currentTerm = t := h.term
  have hsame : Stays t r r := .of_eq h rfl rfl
  unfold handleAppend
  simp only
  split
  · exact hsame.send hterm.le
  next hcur =>
  have heq : req.term = t := by omega
  rw [show (if req.term > r.currentTerm then r.becomeFollower req.term none else r) = r from
    if_neg (by omega)]
  split
  · exact hsame.send hterm.le
  rw [heq]
  have hf := stays_follow h l
  generalize r.becomeFollower t (some l) = f at hf
  have hfterm : f.currentTerm = t := hf.1.term
  split
  · exact hf.send hfterm.le
  split
  · exact hf.send hfterm.le
  obtain ⟨log, dirty, hsplice⟩ := spliceEntries_frame req.entries f req.prevLogIndex
  obtain ⟨commit, dirty', hcommit⟩ := commitThrough_frame (f.spliceEntries req.prevLogIndex
    req.entries).1 (f.spliceEntries req.prevLogIndex req.entries).2.1
    (min req.leaderCommit (f.spliceEntries req.prevLogIndex req.entries).2.2)
  rw [hsplice] at hcommit
  refine Stays.send ?_ ?_
  · rw [hsplice, hcommit]
    exact ⟨hf.1, hf.2⟩
  · rw [hsplice, hcommit]
    exact hfterm.le

theorem stays_handleInstallSnapshot (h : Loyal t r.stance) (l : NodeId) {req : InstallSnapshotReq}
    (hle : req.term ≤ t) : Stays t r (r.handleInstallSnapshot l req) := by
  have hterm : r.currentTerm = t := h.term
  have hsame : Stays t r r := .of_eq h rfl rfl
  unfold handleInstallSnapshot
  simp only
  split
  · exact hsame.send hterm.le
  next hcur =>
  have heq : req.term = t := by omega
  rw [show (if req.term > r.currentTerm then r.becomeFollower req.term none else r) = r from
    if_neg (by omega)]
  split
  · exact hsame.send hterm.le
  rw [heq]
  have hf := stays_follow h l
  generalize r.becomeFollower t (some l) = f at hf
  have hfterm : f.currentTerm = t := hf.1.term
  split
  · exact hf.send hfterm.le
  · have hinstalled : Stays t r (f.installSnapshot req) := ⟨hf.1, hf.2⟩
    exact hinstalled.send hfterm.le

/-- **A loyal member stays loyal.** -/
theorem stays_run (h : Loyal t r.stance) {i : Input}
    (hi : ∀ p msg, i = .step p msg → Harmless t msg) (hc : ∀ n data, i ≠ .compact n data) :
    Stays t r (r.run i) := by
  have hsame : Stays t r r := .of_eq h rfl rfl
  cases i with
  | tick => exact stays_tick h
  | propose c =>
    have heq : r.run (.propose c) = r := by
      show (r.propose c).2 = r
      rw [propose, if_pos h.not_leader]
    rw [heq]
    exact hsame
  | compact n data => exact absurd rfl (hc n data)
  | step p msg =>
    have hm := hi p msg rfl
    have hterm : r.currentTerm = t := h.term
    show Stays t r (r.step p msg)
    rcases r.step_cases p msg with ⟨_, _, heq⟩ | ⟨_, heq⟩
    · rw [heq]
      cases msg with
      | requestVote req => exact stays_handleRequestVote h p hm
      | requestVoteResp resp =>
        rw [show r.handle p (.requestVoteResp resp) = r from handleVoteResp_loyal h p hm]
        exact hsame
      | appendEntries req => exact stays_handleAppend h p hm
      | appendEntriesResp resp =>
        have hle : resp.term ≤ t := hm
        rw [show r.handle p (.appendEntriesResp resp) = r by
          show r.handleAppendResp p resp = r
          rw [handleAppendResp, if_neg (by omega), if_pos (Or.inl h.not_leader)]]
        exact hsame
      | installSnapshot req => exact stays_handleInstallSnapshot h p hm
      | installSnapshotResp resp =>
        have hle : resp.term ≤ t := hm
        rw [show r.handle p (.installSnapshotResp resp) = r by
          show r.handleInstallSnapshotResp p resp = r
          rw [handleInstallSnapshotResp, if_neg (by omega), if_pos (Or.inl h.not_leader)]]
        exact hsame
    · rw [heq]
      exact hsame

/-! ## Timers -/

/-- Off office, a member's timer has not run out. -/
def Armed (r : Raft) : Prop := r.role ≠ .leader →
  r.cfg.Draws r.randomizedElectionTimeout ∧ r.electionElapsed < r.randomizedElectionTimeout

namespace Armed

theorem of_leader (h : r.role = .leader) : Armed r := fun hno => absurd h hno

theorem resetElectionTimer (r : Raft) : Armed r.resetElectionTimer := by
  obtain ⟨timeout, hdraw, hoffice⟩ := office_resetElectionTimer r
  have htimeout : r.resetElectionTimer.randomizedElectionTimeout = timeout :=
    congrArg Office.randomizedElectionTimeout hoffice
  intro _
  rw [htimeout]
  refine ⟨hdraw, ?_⟩
  show 0 < timeout
  have := hdraw.1
  omega

theorem of_stance {s : Raft} (h : Armed s) (hs : r.stance = s.stance) : Armed r := by
  injection hs with _ _ hcfg _ hrole _ _ helapsed htimeout
  unfold Armed
  rw [hrole, hcfg, helapsed, htimeout]
  exact h

theorem becomeFollower (r : Raft) (t : Nat) (l : Option NodeId) : Armed (r.becomeFollower t l) :=
  resetElectionTimer _

theorem adopt (h : Armed r) (t : Nat) : Armed (r.adopt t) := by
  unfold Raft.adopt
  split
  · exact becomeFollower r t none
  · exact h

theorem poll (r : Raft) : Armed r.poll :=
  of_stance (s := ({ r with role := .preCandidate, votes := {r.id} } : Raft).resetElectionTimer)
    (resetElectionTimer _) (sendAll_frame _ _)

theorem stand (r : Raft) : Armed r.stand :=
  of_stance (s := ({ r with
    currentTerm := r.currentTerm + 1
    votedFor := some r.id
    dirty := true
    role := .candidate
    leaderId := none
    votes := {r.id} } : Raft).resetElectionTimer) (resetElectionTimer _) (sendAll_frame _ _)

theorem maybeWinElection (h : Armed r) : Armed r.maybeWinElection := by
  rcases maybeWinElection_cases r with heq | hl
  · rw [heq]
    exact h
  · exact of_leader hl

theorem maybeWinPreElection (h : Armed r) : Armed r.maybeWinPreElection := by
  rcases maybeWinPreElection_cases r with heq | heq | hl
  · rw [heq]
    exact h
  · rw [heq]
    exact stand r
  · exact of_leader hl

theorem tick (h : Armed r) : Armed r.tick := by
  unfold Raft.tick
  split
  · next hl =>
    unfold tickCheckQuorum
    simp only
    split
    · split
      · exact becomeFollower _ _ _
      · exact resetElectionTimer _
    · refine of_leader ?_
      show r.tickHeartbeat.role = .leader
      rw [show r.tickHeartbeat.role = r.role from congrArg Core.role (core_tickHeartbeat r)]
      exact hl
  · next hl =>
    simp only
    split
    · rw [startPreElection_eq]
      exact (poll _).maybeWinPreElection
    · next hopen =>
      intro _
      exact ⟨(h hl).1, Nat.not_le.mp hopen⟩

theorem handleRequestVote (h : Armed r) (c : NodeId) (req : RequestVoteReq) :
    Armed (r.handleRequestVote c req) := by
  have hadopt : Armed (if (!req.preVote && decide (req.term > r.currentTerm)) = true
      then r.becomeFollower req.term none else r) := by
    split
    · exact becomeFollower r req.term none
    · exact h
  unfold Raft.handleRequestVote
  simp only
  generalize (if (!req.preVote && decide (req.term > r.currentTerm)) = true
      then r.becomeFollower req.term none else r) = f at hadopt
  split
  · exact h
  split
  · exact hadopt
  split
  · exact hadopt
  split
  · exact (resetElectionTimer { f with votedFor := some c, dirty := true }).of_stance rfl
  · exact hadopt

theorem handleVoteResp (h : Armed r) (v : NodeId) (resp : RequestVoteResp) :
    Armed (r.handleVoteResp v resp) := by
  have htally : Armed { r with votes := insert v r.votes } := h
  unfold Raft.handleVoteResp
  split
  · exact becomeFollower r resp.term none
  split
  · exact h
  split
  · split
    · exact htally.maybeWinPreElection
    · exact h
  · split
    · exact htally.maybeWinElection
    · exact h

theorem handleAppend (h : Armed r) (l : NodeId) (req : AppendEntriesReq) :
    Armed (r.handleAppend l req) := by
  unfold Raft.handleAppend
  simp only
  split
  · exact h
  rw [show (if req.term > r.currentTerm then r.becomeFollower req.term none else r)
    = r.adopt req.term from rfl]
  split
  · exact h.adopt req.term
  have hf := becomeFollower (r.adopt req.term) req.term (some l)
  generalize (r.adopt req.term).becomeFollower req.term (some l) = f at hf
  split
  · exact hf
  split
  · exact hf
  obtain ⟨log, dirty, hsplice⟩ := spliceEntries_frame req.entries f req.prevLogIndex
  obtain ⟨commit, dirty', hcommit⟩ := commitThrough_frame (f.spliceEntries req.prevLogIndex
    req.entries).1 (f.spliceEntries req.prevLogIndex req.entries).2.1
    (min req.leaderCommit (f.spliceEntries req.prevLogIndex req.entries).2.2)
  rw [hsplice] at hcommit
  refine hf.of_stance ?_
  rw [hsplice, hcommit]
  rfl

theorem handleInstallSnapshot (h : Armed r) (l : NodeId) (req : InstallSnapshotReq) :
    Armed (r.handleInstallSnapshot l req) := by
  unfold Raft.handleInstallSnapshot
  simp only
  split
  · exact h
  rw [show (if req.term > r.currentTerm then r.becomeFollower req.term none else r)
    = r.adopt req.term from rfl]
  split
  · exact h.adopt req.term
  have hf := becomeFollower (r.adopt req.term) req.term (some l)
  generalize (r.adopt req.term).becomeFollower req.term (some l) = f at hf
  split
  · exact hf
  · exact hf.of_stance rfl

theorem recordMatch (hl : r.role = .leader) (p : NodeId) (n : Nat) : Armed (r.recordMatch p n) := by
  refine of_leader ?_
  rw [show (r.recordMatch p n).role = (r.noteMatch p n).maybeAdvanceCommit.2.role from
    congrArg Core.role (recordMatch_frame r p n).1, role_maybeAdvanceCommit]
  exact hl

theorem handleAppendResp (h : Armed r) (p : NodeId) (resp : AppendEntriesResp) :
    Armed (r.handleAppendResp p resp) := by
  unfold Raft.handleAppendResp
  simp only
  split
  · exact becomeFollower r resp.term none
  split
  · exact h
  next hl =>
  have hrole : r.role = .leader := by
    by_contra hno
    exact hl (Or.inl hno)
  split
  · exact recordMatch (r := { r with ackedSinceCheck := insert p r.ackedSinceCheck }) hrole p _
  split
  · refine of_leader ?_
    rw [show ∀ g : Raft, (g.sendAppend p).role = g.role from
      fun g => congrArg Core.role (core_sendAppend g p)]
    exact hrole
  · exact of_leader hrole

theorem handleInstallSnapshotResp (h : Armed r) (p : NodeId) (resp : InstallSnapshotResp) :
    Armed (r.handleInstallSnapshotResp p resp) := by
  unfold Raft.handleInstallSnapshotResp
  simp only
  split
  · exact becomeFollower r resp.term none
  split
  · exact h
  next hl =>
  have hrole : r.role = .leader := by
    by_contra hno
    exact hl (Or.inl hno)
  split
  · exact recordMatch (r := { r with
      ackedSinceCheck := insert p r.ackedSinceCheck
      snapshotInflight := Function.update r.snapshotInflight p none }) hrole p _
  · exact of_leader hrole

theorem propose (h : Armed r) (c : Command) : Armed (r.propose c).2 := by
  unfold Raft.propose
  split
  · exact h
  · next hl =>
    refine of_leader ?_
    show (r.pushEntry (some c)).maybeAdvanceCommit.2.broadcastAppend.role = .leader
    rw [show ∀ g : Raft, g.broadcastAppend.role = g.role from
      fun g => congrArg Core.role (core_broadcastAppend g), role_maybeAdvanceCommit]
    exact not_not.mp hl

theorem compact (h : Armed r) (n : Nat) (data : Bytes) : Armed (r.compact n data) := by
  unfold Raft.compact
  split
  · exact h
  · exact h.of_stance rfl

theorem run (h : Armed r) (i : Input) : Armed (r.run i) := by
  cases i with
  | tick => exact h.tick
  | propose c => exact h.propose c
  | compact n data => exact h.compact n data
  | step p msg =>
    show Armed (r.step p msg)
    rcases r.step_cases p msg with ⟨_, _, heq⟩ | ⟨_, heq⟩
    · rw [heq]
      cases msg with
      | requestVote req => exact h.handleRequestVote p req
      | requestVoteResp resp => exact h.handleVoteResp p resp
      | appendEntries req => exact h.handleAppend p req
      | appendEntriesResp resp => exact h.handleAppendResp p resp
      | installSnapshot req => exact h.handleInstallSnapshot p req
      | installSnapshotResp resp => exact h.handleInstallSnapshotResp p resp
    · rw [heq]
      exact h

end Armed

end Raft

end FiduciaBrain
