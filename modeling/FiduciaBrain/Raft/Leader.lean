import FiduciaBrain.Raft.Handlers

/-!
# What a call does to a leader

A leader keeps more than its core: what to send each peer next, which peers answered in the current
check window, and the window's clock. `leader_run` lists once everything a call can do to all of
it, and `elected_run` how a member comes to lead.
-/

namespace FiduciaBrain

/-- A timeout that `reset_election_timer` can draw. -/
def RaftConfig.Draws (cfg : RaftConfig) (timeout : Nat) : Prop :=
  max cfg.electionMinTicks 1 ≤ timeout ∧
    timeout ≤ max cfg.electionMaxTicks (max cfg.electionMinTicks 1)

namespace Raft

/-- What a leader keeps beside its core. -/
structure Office where
  cfg : RaftConfig
  nextIndex : NodeId → Option Nat
  ackedSinceCheck : Finset NodeId
  electionElapsed : Nat
  randomizedElectionTimeout : Nat

def office (r : Raft) : Office where
  cfg := r.cfg
  nextIndex := r.nextIndex
  ackedSinceCheck := r.ackedSinceCheck
  electionElapsed := r.electionElapsed
  randomizedElectionTimeout := r.randomizedElectionTimeout

/-! ## Helpers that keep the office -/

@[simp] theorem office_send (r : Raft) (p : NodeId) (msg : RaftMessage) :
    (r.send p msg).office = r.office := rfl

theorem office_foldl {f : Raft → NodeId → Raft} (hf : ∀ r p, (f r p).office = r.office)
    (l : List NodeId) (r : Raft) : (l.foldl f r).office = r.office := by
  induction l generalizing r with
  | nil => rfl
  | cons p rest ih => rw [List.foldl_cons, ih, hf]

@[simp] theorem office_sendAll (r : Raft) (msg : RaftMessage) :
    (r.sendAll msg).office = r.office :=
  office_foldl (f := fun r p => r.send p msg) (fun _ _ => rfl) _ _

@[simp] theorem office_sendAppend (r : Raft) (p : NodeId) : (r.sendAppend p).office = r.office := by
  unfold sendAppend
  simp only
  split
  · unfold sendSnapshot
    split <;> rfl
  · rfl

@[simp] theorem office_broadcastAppend (r : Raft) : r.broadcastAppend.office = r.office :=
  office_foldl office_sendAppend _ _

@[simp] theorem office_tickHeartbeat (r : Raft) : r.tickHeartbeat.office = r.office := by
  unfold tickHeartbeat
  simp only
  split
  · exact office_broadcastAppend _
  · rfl

@[simp] theorem office_maybeAdvanceCommit (r : Raft) :
    r.maybeAdvanceCommit.2.office = r.office := by
  unfold maybeAdvanceCommit
  split <;> rfl

/-- The timer starts over with a timeout of its range. -/
theorem office_resetElectionTimer (r : Raft) : ∃ timeout, r.cfg.Draws timeout ∧
    r.resetElectionTimer.office =
      { r.office with electionElapsed := 0, randomizedElectionTimeout := timeout } := by
  refine ⟨_, ?_, rfl⟩
  have hspan := Nat.mod_lt (r.nextRand.1.toNat)
    (Nat.zero_lt_succ (max r.cfg.electionMaxTicks (max r.cfg.electionMinTicks 1) -
      max r.cfg.electionMinTicks 1))
  rw [Nat.succ_eq_add_one] at hspan
  constructor
  · exact Nat.le_add_right _ _
  · show max r.cfg.electionMinTicks 1 + r.nextRand.1.toNat %
      (max r.cfg.electionMaxTicks (max r.cfg.electionMinTicks 1) -
        max r.cfg.electionMinTicks 1 + 1) ≤ _
    omega

/-! ## Snapshots on their way -/

/-- Any snapshot recorded as sent to a peer between `r` and `r'` was the current one. -/
def Shipped (r r' : Raft) : Prop :=
  ∀ p i, r'.snapshotInflight p = some i → r.snapshotInflight p = some i ∨ i = r.baseIndex

namespace Shipped

theorem of_eq {r r' : Raft} (h : r'.snapshotInflight = r.snapshotInflight) : Shipped r r' :=
  fun p i hi => Or.inl (by rw [← h]; exact hi)

theorem sendAppend (r : Raft) (p : NodeId) : Shipped r (r.sendAppend p) := by
  intro q i hi
  unfold Raft.sendAppend at hi
  simp only at hi
  split at hi
  · unfold sendSnapshot at hi
    split at hi
    · exact Or.inl hi
    · rcases eq_or_ne q p with rfl | hne
      · refine Or.inr ?_
        simpa [send, Function.update_self] using hi.symm
      · refine Or.inl ?_
        simpa [send, Function.update_of_ne hne] using hi
  · exact Or.inl hi

theorem broadcastAppend (r : Raft) : Shipped r r.broadcastAppend := by
  have key : ∀ (l : List NodeId) (s : Raft), s.core = r.core → Shipped r s →
      Shipped r (l.foldl Raft.sendAppend s) := by
    intro l
    induction l with
    | nil => exact fun _ _ h => h
    | cons p rest ih =>
      intro s hc hs
      refine ih _ ((core_sendAppend s p).trans hc) fun q i hi => ?_
      rcases sendAppend s p q i hi with hi | hi
      · exact hs q i hi
      · exact Or.inr (hi.trans (congrArg Core.baseIndex hc))
  exact key _ r rfl (of_eq rfl)

theorem tickHeartbeat (r : Raft) : Shipped r r.tickHeartbeat := by
  unfold Raft.tickHeartbeat
  simp only
  split
  · exact broadcastAppend { r with heartbeatElapsed := 0 }
  · exact of_eq rfl

end Shipped

/-! ## Commits -/

theorem newCommit_ge (r : Raft) : r.commitIndex ≤ r.newCommit := by
  unfold newCommit
  refine List.foldlRecOn (motive := fun n => r.commitIndex ≤ n) _ _ (Nat.le_refl _)
    fun acc hacc n hn => ?_
  have hrange := List.mem_range'_1.mp hn
  split
  · exact hacc
  · split
    · omega
    · exact hacc

theorem core_maybeAdvanceCommit (r : Raft) : ∃ d, r.maybeAdvanceCommit.2.core =
    { r.core with commitIndex := r.newCommit, dirty := d } := by
  unfold maybeAdvanceCommit
  split
  · exact ⟨true, rfl⟩
  · next h =>
    have hn : r.newCommit = r.commitIndex := Nat.le_antisymm (Nat.not_lt.mp h) (newCommit_ge r)
    refine ⟨r.dirty, ?_⟩
    rw [hn]
    rfl

/-- The commit rule reads the core only. -/
theorem newCommit_congr {r s : Raft} (h : r.core = s.core) : r.newCommit = s.newCommit := by
  injection h with _ hpeers hterm _ hlog hbase hbt _ _ hcommit _ _ _ hmatch _
  have hlast : r.lastIndex = s.lastIndex := by simp only [lastIndex, hlog, hbase]
  have hslot : r.logSlot = s.logSlot := by funext i; simp only [logSlot, hlast, hbase]
  have hat : r.termAt = s.termAt := by funext i; simp only [termAt, hslot, hbase, hbt, hlog]
  have hcount : r.replicaCount = s.replicaCount := by
    funext n
    simp only [replicaCount, hpeers, hmatch]
  have hquorum : r.quorum = s.quorum := by simp only [quorum, hpeers]
  simp only [newCommit, hcommit, hlast, hat, hterm, hcount, hquorum]

theorem core_maybeAdvanceCommit_congr {r s : Raft} (h : r.core = s.core) :
    r.maybeAdvanceCommit.2.core = s.maybeAdvanceCommit.2.core := by
  have hn := newCommit_congr h
  have hcommit : r.commitIndex = s.commitIndex := congrArg Core.commitIndex h
  unfold maybeAdvanceCommit
  rw [hn, hcommit]
  split
  · exact congrArg (fun c : Core => { c with commitIndex := s.newCommit, dirty := true }) h
  · exact h

/-! ## Calls at a leader -/

/-- An append or snapshot response of term `t`. -/
def AnswersIn (t : Nat) : RaftMessage → Prop
  | .appendEntriesResp resp => resp.term = t
  | .installSnapshotResp resp => resp.term = t
  | _ => False

/-- `recordMatch` up to the commit rule. -/
def noteMatch (r : Raft) (peer : NodeId) (acknowledged : Nat) : Raft :=
  let matched := max acknowledged ((r.matchIndex peer).getD 0)
  { r with
    matchIndex := Function.update r.matchIndex peer (some matched)
    nextIndex := Function.update r.nextIndex peer (some (saturatingAdd matched 1)) }

/-- Where a refusal that hints at `hint` moves `nextIndex`. -/
def rewound (r : Raft) (peer : NodeId) (hint : Nat) : Nat :=
  let previous := (r.nextIndex peer).getD 1
  min previous (min (max (saturatingAdd hint 1) 1) (max (previous - 1) 1))

/-- What a call with input `i` can do to a leader. -/
inductive LeaderCall (i : Input) (r r' : Raft) : Prop
  | ignored : r'.core = r.core → r'.office = r.office →
      r'.snapshotInflight = r.snapshotInflight →
      (∀ p msg, i = .step p msg → p ∈ r.peers → ¬ AnswersIn r.currentTerm msg) → i ≠ .tick →
      LeaderCall i r r'
  | beat : i = .tick → r.electionElapsed + 1 < r.randomizedElectionTimeout → r'.core = r.core →
      r'.office = { r.office with electionElapsed := r.electionElapsed + 1 } → Shipped r r' →
      LeaderCall i r r'
  | kept (timeout : Nat) : i = .tick → r.randomizedElectionTimeout ≤ r.electionElapsed + 1 →
      r.quorum ≤ r.ackedSinceCheck.card + 1 → r.cfg.Draws timeout → r'.core = r.core →
      r'.office = { r.office with
        ackedSinceCheck := ∅
        electionElapsed := 0
        randomizedElectionTimeout := timeout } → Shipped r r' → LeaderCall i r r'
  | deposed : i = .tick → r.randomizedElectionTimeout ≤ r.electionElapsed + 1 →
      r.ackedSinceCheck.card + 1 < r.quorum → r'.core = r.core.follow r.currentTerm →
      LeaderCall i r r'
  | resigned (p : NodeId) (msg : RaftMessage) : i = .step p msg → p ∈ r.peers →
      r'.role = .follower → LeaderCall i r r'
  | voted (c : NodeId) (req : RequestVoteReq) : i = .step c (.requestVote req) → c ∈ r.peers →
      r.votedFor = none ∨ r.votedFor = some c →
      r'.core = { r.core with votedFor := some c, dirty := true } → r'.nextIndex = r.nextIndex →
      r'.snapshotInflight = r.snapshotInflight → LeaderCall i r r'
  | refused (p : NodeId) (resp : InstallSnapshotResp) : i = .step p (.installSnapshotResp resp) →
      p ∈ r.peers → resp.term = r.currentTerm → resp.success = false → r'.core = r.core →
      r'.office = { r.office with ackedSinceCheck := insert p r.ackedSinceCheck } →
      r'.snapshotInflight = r.snapshotInflight → LeaderCall i r r'
  | acknowledged (p : NodeId) (msg : RaftMessage) (n : Nat) : i = .step p msg → p ∈ r.peers →
      AnswersIn r.currentTerm msg → Acknowledges r.currentTerm n msg →
      n ≤ max r.lastIndex ((r.snapshotInflight p).getD 0) →
      r'.core = (r.noteMatch p n).maybeAdvanceCommit.2.core →
      r'.office = { (r.noteMatch p n).office with
        ackedSinceCheck := insert p r.ackedSinceCheck } → Shipped r r' → LeaderCall i r r'
  | rewound (p : NodeId) (resp : AppendEntriesResp) : i = .step p (.appendEntriesResp resp) →
      p ∈ r.peers → resp.term = r.currentTerm → resp.success = false → r'.core = r.core →
      r'.office = { r.office with
        ackedSinceCheck := insert p r.ackedSinceCheck
        nextIndex := Function.update r.nextIndex p (some (r.rewound p resp.matchIndex)) } →
      Shipped r r' → LeaderCall i r r'
  | proposed (c : Command) : i = .propose c →
      r'.core = (r.pushEntry (some c)).maybeAdvanceCommit.2.core → r'.office = r.office →
      Shipped r r' → LeaderCall i r r'
  | compacted (index : Nat) (snapshot : Bytes) : i = .compact index snapshot →
      r.baseIndex < index → index ≤ r.commitIndex → r' = r.compact index snapshot →
      LeaderCall i r r'

variable {r : Raft}

theorem leaderCall_tick (hl : r.role = .leader) : LeaderCall .tick r r.tick := by
  unfold tick
  rw [if_pos hl]
  have hc := core_tickHeartbeat r
  have ho := office_tickHeartbeat r
  have hs := Shipped.tickHeartbeat r
  have helapsed : r.tickHeartbeat.electionElapsed = r.electionElapsed :=
    congrArg Office.electionElapsed ho
  have htimeout : r.tickHeartbeat.randomizedElectionTimeout = r.randomizedElectionTimeout :=
    congrArg Office.randomizedElectionTimeout ho
  have hacked : r.tickHeartbeat.ackedSinceCheck = r.ackedSinceCheck :=
    congrArg Office.ackedSinceCheck ho
  have hcfg : r.tickHeartbeat.cfg = r.cfg := congrArg Office.cfg ho
  have hpeers : r.tickHeartbeat.peers = r.peers := congrArg Core.peers hc
  have hterm : r.tickHeartbeat.currentTerm = r.currentTerm := congrArg Core.currentTerm hc
  unfold tickCheckQuorum
  simp only
  split
  · next hclose =>
    rw [helapsed, htimeout] at hclose
    split
    · next hfew =>
      have hfew' : r.ackedSinceCheck.card + 1 < r.quorum := by
        simpa only [hacked, quorum, hpeers] using hfew
      refine .deposed rfl hclose hfew' ?_
      rw [core_becomeFollower, ← hterm, ← hc]
      rfl
    · next hmany =>
      have hmany' : r.quorum ≤ r.ackedSinceCheck.card + 1 := by
        simpa only [hacked, quorum, hpeers, not_lt] using hmany
      generalize hg : ({ r.tickHeartbeat with
        electionElapsed := r.tickHeartbeat.electionElapsed + 1
        ackedSinceCheck := ∅ } : Raft) = g
      obtain ⟨timeout, hdraw, hoffice⟩ := office_resetElectionTimer g
      have hgcfg : g.cfg = r.cfg := by rw [← hg]; exact hcfg
      refine .kept timeout rfl hclose hmany' (hgcfg ▸ hdraw) ?_ ?_ ?_
      · rw [core_resetElectionTimer, ← hg]
        exact hc
      · rw [hoffice, ← hg, ← ho]
        rfl
      · intro p x hx
        rw [show g.resetElectionTimer.snapshotInflight = r.tickHeartbeat.snapshotInflight by
          rw [← hg]; rfl] at hx
        exact hs p x hx
  · next hopen =>
    rw [helapsed, htimeout] at hopen
    refine .beat rfl (Nat.lt_of_not_le hopen) hc ?_ hs
    rw [← ho, ← helapsed]
    rfl

/-! ## Requests at a leader -/

theorem truncateFrom_frame (r : Raft) (index : Nat) : ∃ log dirty,
    (r.truncateFrom index).2 = { r with log := log, dirty := dirty } := by
  unfold truncateFrom
  split
  · exact ⟨r.log, r.dirty, rfl⟩
  · split
    · exact ⟨_, true, rfl⟩
    · exact ⟨r.log, r.dirty, rfl⟩

/-- The loop of an append touches the log and nothing else. -/
theorem spliceEntries_frame (entries : List LogEntry) (r : Raft) (confirmed : Nat) :
    ∃ log dirty, (r.spliceEntries confirmed entries).1 = { r with log := log, dirty := dirty } := by
  induction entries generalizing r confirmed with
  | nil => exact ⟨r.log, r.dirty, rfl⟩
  | cons e rest ih =>
    -- what is pushed onto a log that differs from `r`'s at most
    have push : ∀ log dirty, ∃ log' dirty', (({ r with log := log ++ [e], dirty := dirty } :
        Raft).spliceEntries e.index rest).1 = { r with log := log', dirty := dirty' } := by
      intro log dirty
      obtain ⟨log', dirty', heq⟩ := ih { r with log := log ++ [e], dirty := dirty } e.index
      exact ⟨log', dirty', heq⟩
    obtain ⟨log, dirty, ht⟩ := truncateFrom_frame r e.index
    unfold spliceEntries
    split
    · split
      · generalize r.truncateFrom e.index = t at ht
        obtain ⟨ok, g⟩ := t
        simp only at ht
        subst ht
        cases ok with
        | false => exact ⟨log, dirty, rfl⟩
        | true => exact push log true
      · exact ih _ _
    · exact push r.log true

theorem commitThrough_frame (r : Raft) (spliced : Bool) (n : Nat) : ∃ commitIndex dirty,
    r.commitThrough spliced n = { r with commitIndex := commitIndex, dirty := dirty } := by
  unfold commitThrough
  split
  · exact ⟨n, true, rfl⟩
  · exact ⟨r.commitIndex, r.dirty, rfl⟩

theorem out_spliceEntries (entries : List LogEntry) (k : Nat) :
    (r.spliceEntries k entries).1.out = r.out := by
  obtain ⟨_, _, heq⟩ := spliceEntries_frame entries r k
  rw [heq]

/-- An append keeps the role and the term of whoever handles it. -/
theorem splice_frame (r : Raft) (entries : List LogEntry) (k n : Nat) (spliced : Bool) :
    ((r.spliceEntries k entries).1.commitThrough spliced n).role = r.role ∧
      ((r.spliceEntries k entries).1.commitThrough spliced n).currentTerm = r.currentTerm := by
  obtain ⟨_, _, heq⟩ := spliceEntries_frame entries r k
  obtain ⟨_, _, hcommit⟩ := commitThrough_frame (r.spliceEntries k entries).1 spliced n
  rw [hcommit, heq]
  exact ⟨rfl, rfl⟩

theorem role_adopt (r : Raft) (t : Nat) : r.adopt t = r ∨ (r.adopt t).role = .follower := by
  unfold adopt
  split
  · exact Or.inr (role_becomeFollower t none)
  · exact Or.inl rfl

theorem leaderCall_send {i : Input} (p : NodeId) (msg : RaftMessage)
    (hans : ∀ p msg, i = .step p msg → p ∈ r.peers → ¬ AnswersIn r.currentTerm msg)
    (hi : i ≠ .tick) : LeaderCall i r (r.send p msg) := .ignored rfl rfl rfl hans hi

theorem leaderCall_handleRequestVote {c : NodeId} {req : RequestVoteReq} (hc : c ∈ r.peers) :
    LeaderCall (.step c (.requestVote req)) r (r.handleRequestVote c req) := by
  have hidle : ∀ p msg, Input.step c (.requestVote req) = .step p msg → p ∈ r.peers →
      ¬ AnswersIn r.currentTerm msg := by
    intro p msg heq _ hans
    cases heq
    exact hans
  have htick : Input.step c (.requestVote req) ≠ .tick := by
    intro h
    cases h
  unfold handleRequestVote
  simp only
  split
  · exact leaderCall_send c _ hidle htick
  by_cases hadopt : (!req.preVote && decide (req.term > r.currentTerm)) = true
  · rw [if_pos hadopt]
    have hrole := role_becomeFollower (r := r) req.term none
    generalize r.becomeFollower req.term none = f at hrole
    refine .resigned c _ rfl hc ?_
    split
    · exact hrole
    · split
      · exact hrole
      · split <;> exact hrole
  · rw [if_neg hadopt]
    split
    · exact leaderCall_send c _ hidle htick
    · split
      · exact leaderCall_send c _ hidle htick
      · split
        · next hg =>
          simp only [Bool.and_eq_true, Bool.or_eq_true, Option.isNone_iff_eq_none, beq_iff_eq]
            at hg
          exact .voted c req rfl hc hg.1.1 rfl rfl rfl
        · exact leaderCall_send c _ hidle htick

theorem leaderCall_handleVoteResp (hl : r.role = .leader) {v : NodeId} {resp : RequestVoteResp}
    (hv : v ∈ r.peers) :
    LeaderCall (.step v (.requestVoteResp resp)) r (r.handleVoteResp v resp) := by
  unfold handleVoteResp
  split
  · exact .resigned v _ rfl hv (role_becomeFollower resp.term none)
  have hsame : LeaderCall (.step v (.requestVoteResp resp)) r r := by
    refine .ignored rfl rfl rfl (fun p msg heq _ hans => ?_) (fun h => ?_)
    · cases heq
      exact hans
    · cases h
  split
  · exact hsame
  · rw [hl]
    simp only [reduceCtorEq, if_false, false_and, ite_self]
    exact hsame

theorem leaderCall_handleAppend {l : NodeId} {req : AppendEntriesReq} (hp : l ∈ r.peers) :
    LeaderCall (.step l (.appendEntries req)) r (r.handleAppend l req) := by
  have hsend : ∀ msg, LeaderCall (.step l (.appendEntries req)) r (r.send l msg) := by
    refine fun msg => leaderCall_send l msg (fun p msg heq _ hans => ?_) (fun h => ?_)
    · cases heq
      exact hans
    · cases h
  unfold handleAppend
  simp only
  split
  · exact hsend _
  rw [show (if req.term > r.currentTerm then r.becomeFollower req.term none else r)
    = r.adopt req.term from rfl]
  split
  · -- a malformed request deposes by its term at most
    rcases role_adopt r req.term with heq | hrole
    · rw [heq]
      exact hsend _
    · exact .resigned l _ rfl hp hrole
  · have hrole := role_becomeFollower (r := r.adopt req.term) req.term (some l)
    generalize (r.adopt req.term).becomeFollower req.term (some l) = f at hrole
    refine .resigned l _ rfl hp ?_
    split
    · exact hrole
    · split
      · exact hrole
      · exact (splice_frame _ _ _ _ _).1.trans hrole

theorem leaderCall_handleInstallSnapshot {l : NodeId} {req : InstallSnapshotReq}
    (hp : l ∈ r.peers) :
    LeaderCall (.step l (.installSnapshot req)) r (r.handleInstallSnapshot l req) := by
  have hsend : ∀ msg, LeaderCall (.step l (.installSnapshot req)) r (r.send l msg) := by
    refine fun msg => leaderCall_send l msg (fun p msg heq _ hans => ?_) (fun h => ?_)
    · cases heq
      exact hans
    · cases h
  unfold handleInstallSnapshot
  simp only
  split
  · exact hsend _
  rw [show (if req.term > r.currentTerm then r.becomeFollower req.term none else r)
    = r.adopt req.term from rfl]
  split
  · rcases role_adopt r req.term with heq | hrole
    · rw [heq]
      exact hsend _
    · exact .resigned l _ rfl hp hrole
  · have hrole := role_becomeFollower (r := r.adopt req.term) req.term (some l)
    generalize (r.adopt req.term).becomeFollower req.term (some l) = f at hrole
    refine .resigned l _ rfl hp ?_
    split <;> exact hrole

/-! ## Responses at a leader -/

theorem recordMatch_frame (r : Raft) (p : NodeId) (n : Nat) :
    (r.recordMatch p n).core = (r.noteMatch p n).maybeAdvanceCommit.2.core ∧
      (r.recordMatch p n).office = (r.noteMatch p n).office ∧
      Shipped r (r.recordMatch p n) := by
  have heq : r.recordMatch p n = if (r.noteMatch p n).maybeAdvanceCommit.1 then
      (r.noteMatch p n).maybeAdvanceCommit.2.broadcastAppend
    else (r.noteMatch p n).maybeAdvanceCommit.2 := rfl
  have hinflight : (r.noteMatch p n).maybeAdvanceCommit.2.snapshotInflight = r.snapshotInflight := by
    unfold maybeAdvanceCommit
    split <;> rfl
  have hbase : (r.noteMatch p n).maybeAdvanceCommit.2.baseIndex = r.baseIndex := by
    unfold maybeAdvanceCommit
    split <;> rfl
  rw [heq]
  split
  · refine ⟨core_broadcastAppend _, ?_, fun q x hx => ?_⟩
    · rw [office_broadcastAppend, office_maybeAdvanceCommit]
    · rcases Shipped.broadcastAppend _ q x hx with hx | hx
      · exact Or.inl (by rw [← hinflight]; exact hx)
      · exact Or.inr (hx.trans hbase)
  · exact ⟨rfl, office_maybeAdvanceCommit _, .of_eq hinflight⟩

theorem leaderCall_handleAppendResp (hl : r.role = .leader) {p : NodeId} {resp : AppendEntriesResp}
    (hp : p ∈ r.peers) :
    LeaderCall (.step p (.appendEntriesResp resp)) r (r.handleAppendResp p resp) := by
  unfold handleAppendResp
  simp only
  split
  · exact .resigned p _ rfl hp (role_becomeFollower resp.term none)
  split
  · next hterm =>
    refine .ignored rfl rfl rfl (fun q msg heq _ hans => ?_) (fun h => ?_)
    · cases heq
      exact hterm.elim (· hl) (· hans)
    · cases h
  next hterm =>
  have hterm' : resp.term = r.currentTerm := by
    simp only [ne_eq, not_or, Decidable.not_not] at hterm
    exact hterm.2
  split
  · next hs =>
    obtain ⟨hc, ho, hship⟩ := recordMatch_frame
      { r with ackedSinceCheck := insert p r.ackedSinceCheck } p (min resp.matchIndex r.lastIndex)
    exact .acknowledged p _ (min resp.matchIndex r.lastIndex) rfl hp hterm'
      (.append hs hterm' (Nat.min_le_left _ _))
      ((Nat.min_le_right _ _).trans (Nat.le_max_left _ _))
      (hc.trans (core_maybeAdvanceCommit_congr rfl)) ho hship
  · next hs =>
    have hsucc : resp.success = false := by simpa using hs
    have hnext : r.rewound p resp.matchIndex = min ((r.nextIndex p).getD 1)
        (min (max (saturatingAdd resp.matchIndex 1) 1) (max ((r.nextIndex p).getD 1 - 1) 1)) := rfl
    split
    · next hlt =>
      have hmin := hnext.trans (Nat.min_eq_right hlt.le)
      refine .rewound p resp rfl hp hterm' hsucc (core_sendAppend _ _) ?_ (Shipped.sendAppend _ _)
      rw [office_sendAppend, hmin]
      rfl
    · next hge =>
      have hmin := hnext.trans (Nat.min_eq_left (Nat.not_lt.mp hge))
      refine .rewound p resp rfl hp hterm' hsucc rfl ?_ (.of_eq rfl)
      rw [hmin]
      rfl

theorem leaderCall_handleInstallSnapshotResp (hl : r.role = .leader) {p : NodeId}
    {resp : InstallSnapshotResp} (hp : p ∈ r.peers) :
    LeaderCall (.step p (.installSnapshotResp resp)) r (r.handleInstallSnapshotResp p resp) := by
  unfold handleInstallSnapshotResp
  simp only
  split
  · exact .resigned p _ rfl hp (role_becomeFollower resp.term none)
  split
  · next hterm =>
    refine .ignored rfl rfl rfl (fun q msg heq _ hans => ?_) (fun h => ?_)
    · cases heq
      exact hterm.elim (· hl) (· hans)
    · cases h
  next hterm =>
  have hterm' : resp.term = r.currentTerm := by
    simp only [ne_eq, not_or, Decidable.not_not] at hterm
    exact hterm.2
  split
  · next hs =>
    obtain ⟨hc, ho, hship⟩ := recordMatch_frame
      { r with
        ackedSinceCheck := insert p r.ackedSinceCheck
        snapshotInflight := Function.update r.snapshotInflight p none }
      p (min resp.lastIncludedIndex ((r.snapshotInflight p).getD 0))
    refine .acknowledged p _ (min resp.lastIncludedIndex ((r.snapshotInflight p).getD 0)) rfl hp
      hterm' (.snapshot hs hterm' (Nat.min_le_left _ _))
      ((Nat.min_le_right _ _).trans (Nat.le_max_right _ _))
      (hc.trans (core_maybeAdvanceCommit_congr rfl)) ho fun q x hx => ?_
    -- the record of the snapshot that was answered is gone
    rcases hship q x hx with hx | hx
    · rcases eq_or_ne q p with rfl | hne
      · simp [Function.update_self] at hx
      · exact Or.inl (by simpa [Function.update_of_ne hne] using hx)
    · exact Or.inr hx
  · next hs => exact .refused p resp rfl hp hterm' (by simpa using hs) rfl rfl rfl

/-! ## Every call at a leader -/

/-- The dispatch of `step`. -/
def handle (r : Raft) (sender : NodeId) : RaftMessage → Raft
  | .requestVote req => r.handleRequestVote sender req
  | .requestVoteResp resp => r.handleVoteResp sender resp
  | .appendEntries req => r.handleAppend sender req
  | .appendEntriesResp resp => r.handleAppendResp sender resp
  | .installSnapshot req => r.handleInstallSnapshot sender req
  | .installSnapshotResp resp => r.handleInstallSnapshotResp sender resp

theorem step_cases (r : Raft) (sender : NodeId) (msg : RaftMessage) :
    (sender ∈ r.peers ∧ bodyIdentityMatches sender msg = true ∧
        r.step sender msg = r.handle sender msg) ∨
      ¬ (sender ∈ r.peers ∧ bodyIdentityMatches sender msg = true) ∧ r.step sender msg = r := by
  by_cases h : sender ∈ r.peers ∧ bodyIdentityMatches sender msg = true
  · refine Or.inl ⟨h.1, h.2, ?_⟩
    unfold step
    rw [if_neg (by simp [h.1, h.2])]
    cases msg <;> rfl
  · refine Or.inr ⟨h, ?_⟩
    unfold step
    refine if_pos ?_
    rw [Bool.or_eq_true, Bool.not_eq_true', Bool.not_eq_true', List.contains_eq_mem,
      decide_eq_false_iff_not]
    by_cases hp : sender ∈ r.peers
    · exact Or.inr (Bool.eq_false_iff.mpr fun hb => h ⟨hp, hb⟩)
    · exact Or.inl hp

theorem leaderCall_propose (hl : r.role = .leader) (c : Command) :
    LeaderCall (.propose c) r (r.propose c).2 := by
  unfold propose
  rw [if_neg (by simpa using hl)]
  have hinflight : (r.pushEntry (some c)).maybeAdvanceCommit.2.snapshotInflight =
      r.snapshotInflight := by
    unfold maybeAdvanceCommit
    split <;> rfl
  have hbase : (r.pushEntry (some c)).maybeAdvanceCommit.2.baseIndex = r.baseIndex := by
    unfold maybeAdvanceCommit
    split <;> rfl
  refine .proposed c rfl (core_broadcastAppend _) ?_ fun q x hx => ?_
  · rw [office_broadcastAppend, office_maybeAdvanceCommit]
    rfl
  · rcases Shipped.broadcastAppend _ q x hx with hx | hx
    · exact Or.inl (by rw [← hinflight]; exact hx)
    · exact Or.inr (hx.trans hbase)

/-- **What any call can do to a leader.** -/
theorem leader_run (hl : r.role = .leader) (i : Input) : LeaderCall i r (r.run i) := by
  cases i with
  | tick => exact leaderCall_tick hl
  | step p msg =>
    show LeaderCall _ r (r.step p msg)
    rcases step_cases r p msg with ⟨hp, _, hstep⟩ | ⟨hno, hstep⟩
    · rw [hstep]
      cases msg with
      | requestVote req => exact leaderCall_handleRequestVote hp
      | requestVoteResp resp => exact leaderCall_handleVoteResp hl hp
      | appendEntries req => exact leaderCall_handleAppend hp
      | appendEntriesResp resp => exact leaderCall_handleAppendResp hl hp
      | installSnapshot req => exact leaderCall_handleInstallSnapshot hp
      | installSnapshotResp resp => exact leaderCall_handleInstallSnapshotResp hl hp
    · rw [hstep]
      refine .ignored rfl rfl rfl (fun q msg' heq hq hans => ?_) (fun h => ?_)
      · cases heq
        -- a response carries no identity of its own
        refine hno ⟨hq, ?_⟩
        cases msg <;> first | rfl | exact hans.elim
      · cases h
  | propose c => exact leaderCall_propose hl c
  | compact index snapshot =>
    show LeaderCall _ r (r.compact index snapshot)
    by_cases h : index ≤ r.baseIndex ∨ index > r.commitIndex
    · rw [compact, if_pos h]
      refine .ignored rfl rfl rfl (fun q msg' heq => ?_) (fun h => ?_)
      · cases heq
      · cases h
    · obtain ⟨hb, hc⟩ := not_or.mp h
      exact .compacted index snapshot rfl (Nat.lt_of_not_le hb) (Nat.not_lt.mp hc) rfl

/-- A call that does not depose keeps the role, the term and the votes. -/
theorem LeaderCall.role_kept {i : Input} {r' : Raft} (h : LeaderCall i r r') :
    r'.role = r.role ∧ r'.currentTerm = r.currentTerm ∧ r'.votes = r.votes ∨
      r'.role = .follower := by
  have same : ∀ {c : Core}, r'.core = c → c.role = r.role → c.currentTerm = r.currentTerm →
      c.votes = r.votes → r'.role = r.role ∧ r'.currentTerm = r.currentTerm ∧ r'.votes = r.votes ∨
        r'.role = .follower := by
    intro c hc hrole hterm hvotes
    subst hc
    exact Or.inl ⟨hrole, hterm, hvotes⟩
  cases h with
  | ignored hc => exact same hc rfl rfl rfl
  | beat _ _ hc => exact same hc rfl rfl rfl
  | kept _ _ _ _ _ hc => exact same hc rfl rfl rfl
  | deposed _ _ _ hc =>
    rw [Core.follow_of_le (c := r.core) (Nat.le_refl r.currentTerm)] at hc
    exact Or.inr (congrArg Core.role hc)
  | resigned _ _ _ _ hrole => exact Or.inr hrole
  | voted _ _ _ _ _ hc => exact same hc rfl rfl rfl
  | refused _ _ _ _ _ _ hc => exact same hc rfl rfl rfl
  | acknowledged q _ n _ _ _ _ _ hc =>
    obtain ⟨d, hcore⟩ := core_maybeAdvanceCommit (r.noteMatch q n)
    exact same (hc.trans hcore) rfl rfl rfl
  | rewound _ _ _ _ _ _ hc => exact same hc rfl rfl rfl
  | proposed c _ hc =>
    obtain ⟨d, hcore⟩ := core_maybeAdvanceCommit (r.pushEntry (some c))
    exact same (hc.trans hcore) rfl rfl rfl
  | compacted index snapshot _ hb hcommit heq =>
    rw [heq, compact, if_neg (by omega)]
    exact Or.inl ⟨rfl, rfl, rfl⟩

/-! ## Coming to lead -/

/-- How a call with input `i` came to make a member lead: it was the last vote the member lacked, or
the member's timer ran out and it needs no other vote. -/
inductive Elected (i : Input) (r r' : Raft) : Prop
  | tally (v : NodeId) (resp : RequestVoteResp) : i = .step v (.requestVoteResp resp) →
      v ∈ r.peers → resp.granted = true → resp.preVote = false → r.role = .candidate →
      resp.term = r.currentTerm → r.quorum ≤ (insert v r.votes).card →
      r' = ({ r with votes := insert v r.votes } : Raft).becomeLeader → Elected i r r'
  | alone (s : Raft) : i = .tick → r.peers = [] →
      r.randomizedElectionTimeout ≤ r.electionElapsed + 1 →
      s.core = { r.core with role := .preCandidate, votes := {r.id} } → s.cfg = r.cfg →
      r' = s.stand.becomeLeader → Elected i r r'

/-- Only a member without peers wins an election with its own vote. -/
theorem peers_eq_nil_of_quorum_le_one (h : r.quorum ≤ 1) : r.peers = [] := by
  unfold quorum at h
  exact List.length_eq_zero_iff.mp (by omega)

theorem maybeWinElection_leader (hl : r.role ≠ .leader) (h : r.maybeWinElection.role = .leader) :
    r.quorum ≤ r.votes.card ∧ r.maybeWinElection = r.becomeLeader := by
  unfold maybeWinElection at h ⊢
  split
  · next hwin => exact ⟨hwin.2, rfl⟩
  · next hno =>
    rw [if_neg hno] at h
    exact absurd h hl

theorem maybeWinPreElection_leader (hl : r.role ≠ .leader)
    (h : r.maybeWinPreElection.role = .leader) :
    r.peers = [] ∧ r.maybeWinPreElection = r.stand.becomeLeader := by
  unfold maybeWinPreElection at h ⊢
  split
  · next hwin =>
    have hc := core_stand r
    rw [if_pos hwin, startElection_eq] at h
    rw [startElection_eq]
    have hrole : r.stand.role = .candidate := congrArg Core.role hc
    obtain ⟨hq, heq⟩ := maybeWinElection_leader (by rw [hrole]; simp) h
    rw [show r.stand.votes = {r.id} from congrArg Core.votes hc, Finset.card_singleton] at hq
    refine ⟨?_, heq⟩
    rw [← show r.stand.peers = r.peers from congrArg Core.peers hc]
    exact peers_eq_nil_of_quorum_le_one hq
  · next hno =>
    rw [if_neg hno] at h
    exact absurd h hl

theorem maybeWinElection_cases (r : Raft) :
    r.maybeWinElection = r ∨ r.maybeWinElection.role = .leader := by
  unfold maybeWinElection
  split
  · exact Or.inr (congrArg Core.role (core_becomeLeader r))
  · exact Or.inl rfl

theorem maybeWinPreElection_cases (r : Raft) : r.maybeWinPreElection = r ∨
    r.maybeWinPreElection = r.stand ∨ r.maybeWinPreElection.role = .leader := by
  unfold maybeWinPreElection
  split
  · rw [startElection_eq]
    exact Or.inr (maybeWinElection_cases r.stand)
  · exact Or.inl rfl

/-- A tick at a member that does not lead: its timer runs on, or it polls. -/
theorem tick_cases (hl : r.role ≠ .leader) :
    (r.electionElapsed + 1 < r.randomizedElectionTimeout ∧
        r.tick = { r with electionElapsed := r.electionElapsed + 1 }) ∨
      (r.randomizedElectionTimeout ≤ r.electionElapsed + 1 ∧ ∃ g : Raft,
        r.tick = g.maybeWinPreElection ∧
        g.core = { r.core with role := .preCandidate, votes := {r.id} } ∧ g.cfg = r.cfg ∧
        ∀ m ∈ g.out, m ∈ r.out ∨ ∃ req, m.msg = .requestVote req ∧ req.preVote = true) := by
  unfold tick
  rw [if_neg hl]
  simp only
  split
  · next hclose =>
    refine Or.inr ⟨hclose, ({ r with electionElapsed := r.electionElapsed + 1 } : Raft).poll,
      startPreElection_eq _, ?_, ?_, fun m hm => mem_out_poll hm⟩
    · rw [core_poll]
      rfl
    · exact congrArg Office.cfg (office_sendAll _ _)
  · next hopen => exact Or.inl ⟨Nat.lt_of_not_le hopen, rfl⟩

theorem elected_tick (hl : r.role ≠ .leader) (h : r.tick.role = .leader) :
    Elected .tick r r.tick := by
  rcases tick_cases hl with ⟨_, htick⟩ | ⟨hclose, g, htick, hcore, hcfg, _⟩
  · rw [htick] at h
    exact absurd h hl
  · rw [htick] at h ⊢
    have hrole : g.role = .preCandidate := congrArg Core.role hcore
    obtain ⟨hnil, heq⟩ := maybeWinPreElection_leader (r := g) (by rw [hrole]; simp) h
    rw [show g.peers = r.peers from congrArg Core.peers hcore] at hnil
    exact .alone g rfl hnil hclose hcore hcfg heq

theorem elected_handleVoteResp (hl : r.role ≠ .leader) {v : NodeId} (hv : v ∈ r.peers)
    {resp : RequestVoteResp} (h : (r.handleVoteResp v resp).role = .leader) :
    Elected (.step v (.requestVoteResp resp)) r (r.handleVoteResp v resp) := by
  unfold handleVoteResp at h ⊢
  split
  · next hterm =>
    rw [if_pos hterm, role_becomeFollower] at h
    cases h
  next hterm =>
  rw [if_neg hterm] at h
  split
  · next hg =>
    rw [if_pos hg] at h
    exact absurd h hl
  next hg =>
  rw [if_neg hg] at h
  split
  · next hpre =>
    rw [if_pos hpre] at h
    split
    · next hrole =>
      rw [if_pos hrole] at h
      -- a member with a peer has more votes to win after the pre-election
      obtain ⟨hnil, _⟩ := maybeWinPreElection_leader
        (r := { r with votes := insert v r.votes }) hl h
      exact absurd hnil (List.ne_nil_of_mem hv)
    · next hrole =>
      rw [if_neg hrole] at h
      exact absurd h hl
  · next hpre =>
    rw [if_neg hpre] at h
    split
    · next hrole =>
      rw [if_pos hrole] at h
      obtain ⟨hq, heq⟩ := maybeWinElection_leader (r := { r with votes := insert v r.votes }) hl h
      exact .tally v resp rfl hv (by simpa using hg) (by simpa using hpre) hrole.1 hrole.2 hq heq
    · next hrole =>
      rw [if_neg hrole] at h
      exact absurd h hl

/-- A response to an append or a snapshot leaves a member that does not lead alone, or deposes. -/
theorem response_kept (hl : r.role ≠ .leader) (p : NodeId) :
    (∀ resp, r.handleAppendResp p resp = r ∨ (r.handleAppendResp p resp).role = .follower) ∧
      ∀ resp, r.handleInstallSnapshotResp p resp = r ∨
        (r.handleInstallSnapshotResp p resp).role = .follower := by
  constructor
  · intro resp
    unfold handleAppendResp
    split
    · exact Or.inr (role_becomeFollower _ _)
    · exact Or.inl (if_pos (Or.inl hl))
  · intro resp
    unfold handleInstallSnapshotResp
    split
    · exact Or.inr (role_becomeFollower _ _)
    · exact Or.inl (if_pos (Or.inl hl))

/-- A call other than a tick or a vote keeps the role, the term and the votes, or ends in following;
or it is at a leader. -/
theorem role_kept_run (r : Raft) {i : Input} (htick : i ≠ .tick)
    (hvote : ∀ v resp, i ≠ .step v (.requestVoteResp resp)) :
    ((r.run i).role = r.role ∧ (r.run i).currentTerm = r.currentTerm ∧
      (r.run i).votes = r.votes) ∨ (r.run i).role = .follower := by
  by_cases hl : r.role = .leader
  · exact (leader_run hl i).role_kept
  cases i with
  | tick => exact absurd rfl htick
  | step p msg =>
    show (r.step p msg).role = r.role ∧ (r.step p msg).currentTerm = r.currentTerm ∧
      (r.step p msg).votes = r.votes ∨ (r.step p msg).role = .follower
    rcases step_cases r p msg with ⟨hp, _, heq⟩ | ⟨_, heq⟩
    · rw [heq]
      have quiet : ∀ {r'}, r' = r ∨ r'.role = .follower →
          r'.role = r.role ∧ r'.currentTerm = r.currentTerm ∧ r'.votes = r.votes ∨
            r'.role = .follower :=
        fun h => h.imp_left fun heq => by rw [heq]; exact ⟨rfl, rfl, rfl⟩
      cases msg with
      | requestVote req => exact (leaderCall_handleRequestVote hp).role_kept
      | requestVoteResp resp => exact absurd rfl (hvote p resp)
      | appendEntries req => exact (leaderCall_handleAppend hp).role_kept
      | appendEntriesResp resp => exact quiet ((response_kept hl p).1 resp)
      | installSnapshot req => exact (leaderCall_handleInstallSnapshot hp).role_kept
      | installSnapshotResp resp => exact quiet ((response_kept hl p).2 resp)
    · rw [heq]
      exact Or.inl ⟨rfl, rfl, rfl⟩
  | propose c =>
    have hsame : r.run (.propose c) = r := by
      show (r.propose c).2 = r
      unfold propose
      rw [if_pos (by simpa using hl)]
    rw [hsame]
    exact Or.inl ⟨rfl, rfl, rfl⟩
  | compact index snapshot =>
    have hsame : (r.compact index snapshot).role = r.role ∧
        (r.compact index snapshot).currentTerm = r.currentTerm ∧
        (r.compact index snapshot).votes = r.votes := by
      unfold compact
      split <;> exact ⟨rfl, rfl, rfl⟩
    exact Or.inl hsame

/-- **How a call can make a member lead.** -/
theorem elected_run (hl : r.role ≠ .leader) {i : Input} (h : (r.run i).role = .leader) :
    Elected i r (r.run i) := by
  by_cases htick : i = .tick
  · subst htick
    exact elected_tick hl h
  by_cases hvote : ∃ v resp, i = .step v (.requestVoteResp resp)
  · obtain ⟨v, resp, rfl⟩ := hvote
    have hstep : r.run (.step v (.requestVoteResp resp)) = r.step v (.requestVoteResp resp) := rfl
    rcases step_cases r v (.requestVoteResp resp) with ⟨hv, _, heq⟩ | ⟨_, heq⟩
    · rw [hstep, heq] at h ⊢
      exact elected_handleVoteResp hl hv h
    · rw [hstep, heq] at h
      exact absurd h hl
  · rcases role_kept_run r htick fun v resp h => hvote ⟨v, resp, h⟩ with ⟨hrole, _⟩ | hrole
    · exact absurd (hrole.symm.trans h) hl
    · exact absurd (hrole.symm.trans h) (by simp)

/-- The office of a fresh leader. -/
theorem becomeLeader_frame (r : Raft) :
    (∃ timeout, r.cfg.Draws timeout ∧ r.becomeLeader.office =
      { cfg := r.cfg
        nextIndex := fun p => if p ∈ r.peers then some (r.lastIndex + 1) else none
        ackedSinceCheck := ∅
        electionElapsed := 0
        randomizedElectionTimeout := timeout }) ∧
      ∀ p i, r.becomeLeader.snapshotInflight p = some i → i = r.baseIndex := by
  unfold becomeLeader
  constructor
  · simp only [office_broadcastAppend]
    obtain ⟨timeout, hdraw, hoffice⟩ := office_resetElectionTimer
      { ({ r with
          role := .leader
          leaderId := some r.id
          nextIndex := fun p => if p ∈ r.peers then some (r.lastIndex + 1) else none
          matchIndex := fun p => if p ∈ r.peers then some 0 else none
          snapshotInflight := fun _ => none } : Raft).pushEntry none with
        heartbeatElapsed := 0, ackedSinceCheck := ∅ }
    exact ⟨timeout, hdraw, hoffice⟩
  · intro p i hi
    rcases Shipped.broadcastAppend _ p i hi with hi | hi
    · cases hi
    · exact hi

end Raft

end FiduciaBrain
