import FiduciaBrain.Raft.AppendSpec
import FiduciaBrain.Raft.Calls
import FiduciaBrain.Raft.CheckedRun

/-!
# Where the arithmetic has room

Which calls the checked engine survives. The timers have room for more ticks than a process lives,
and no message, whatever it says, fills the log's last index or a table. But a peer's term is adopted
as it is, and a pre-election then counts on from it; and a peer's snapshot or append puts the last
index where it likes, and a leader counts on from there. Those sums are unguarded, so a run is safe
as far as they have room (`Clear`): `checked_calls_eq`.
-/

namespace FiduciaBrain

open Infra

/-- The fields of a message are `u64` values. -/
def RaftMessage.FitsU64 : RaftMessage → Prop
  | .requestVote req =>
    req.term ≤ u64Max ∧ req.lastLogIndex ≤ u64Max ∧ req.lastLogTerm ≤ u64Max
  | .requestVoteResp resp => resp.term ≤ u64Max
  | .appendEntries req =>
    req.term ≤ u64Max ∧ req.prevLogIndex ≤ u64Max ∧ req.prevLogTerm ≤ u64Max ∧
      req.leaderCommit ≤ u64Max ∧ ∀ e ∈ req.entries, e.term ≤ u64Max ∧ e.index ≤ u64Max
  | .appendEntriesResp resp => resp.term ≤ u64Max ∧ resp.matchIndex ≤ u64Max
  | .installSnapshot req =>
    req.term ≤ u64Max ∧ req.lastIncludedIndex ≤ u64Max ∧ req.lastIncludedTerm ≤ u64Max
  | .installSnapshotResp resp => resp.term ≤ u64Max ∧ resp.lastIncludedIndex ≤ u64Max

instance : (msg : RaftMessage) → Decidable msg.FitsU64
  | .requestVote _ => inferInstanceAs (Decidable (_ ∧ _))
  | .requestVoteResp _ => inferInstanceAs (Decidable (_ ≤ _))
  | .appendEntries _ => inferInstanceAs (Decidable (_ ∧ _))
  | .appendEntriesResp _ => inferInstanceAs (Decidable (_ ∧ _))
  | .installSnapshot _ => inferInstanceAs (Decidable (_ ∧ _))
  | .installSnapshotResp _ => inferInstanceAs (Decidable (_ ∧ _))

namespace Raft

variable {r r' : Raft}

/-- The fields of a delivered message are `u64` values. -/
def Input.FitsU64 : Input → Prop
  | .step _ msg => msg.FitsU64
  | _ => True

instance (i : Input) : Decidable i.FitsU64 := by
  unfold Input.FitsU64
  split <;> infer_instance

/-- Room for the sums that nothing guards: the term a pre-election names, the entry of a fresh
leader or of a proposal, and the index after it that a leader with peers looks at. -/
def Clear (r : Raft) : Input → Prop
  | .tick => r.role ≠ .leader → r.randomizedElectionTimeout ≤ r.electionElapsed + 1 →
      r.currentTerm < u64Max ∧ (r.peers = [] → r.lastIndex < u64Max)
  | .step v (.requestVoteResp resp) => r.Wins (.step v (.requestVoteResp resp)) → r.Grows
  | .propose _ => r.role = .leader → r.Grows
  | _ => True

instance (r : Raft) : Decidable r.Grows := inferInstanceAs (Decidable (_ ∧ _))

instance (r : Raft) (i : Input) : Decidable (r.Wins i) := by
  unfold Wins
  split <;> infer_instance

instance (r : Raft) (i : Input) : Decidable (r.Clear i) := by
  unfold Clear
  split <;> infer_instance

/-! ## The last index -/

theorem lastIndex_handleRequestVote (r : Raft) (c : NodeId) (req : RequestVoteReq) :
    (r.handleRequestVote c req).lastIndex = r.lastIndex := by
  have hadopt : (if (!req.preVote && decide (req.term > r.currentTerm)) = true
      then r.becomeFollower req.term none else r).lastIndex = r.lastIndex := by
    split
    · exact lastIndex_becomeFollower r req.term none
    · rfl
  unfold handleRequestVote
  simp only
  generalize (if (!req.preVote && decide (req.term > r.currentTerm)) = true
      then r.becomeFollower req.term none else r) = f at hadopt
  split
  · rfl
  · split
    · exact hadopt
    · split
      · exact hadopt
      · split <;> exact hadopt

/-- The log ends where the last entry of an append says, or where it did. -/
theorem lastIndex_handleAppend_le (h : r.WellFormed) (l : NodeId) {req : AppendEntriesReq} {n : Nat}
    (hlast : r.lastIndex ≤ n) (hreq : ∀ e ∈ req.entries, e.index ≤ n) :
    (r.handleAppend l req).lastIndex ≤ n := by
  rcases handleAppend_cases h.base_le_commit h.commit_le_last l req with
    ⟨_, _, _, hsame⟩ | ⟨_, _, _, _, hv, hspliced, _, hbase⟩
  · rw [hsame.lastIndex]
    exact hlast
  · rcases hspliced with ⟨_, hlog⟩ | ⟨pre, e, post, heq, _, _, _, hb, hlog⟩
    · rw [lastIndex, hbase, hlog]
      exact hlast
    · -- the last entry of the request is the last of the log
      obtain ⟨_, hrest⟩ := LogValid.append.mp (heq ▸ hv)
      have hlen : post.length < (e :: post).length := Nat.lt_succ_self _
      have hend : (e :: post)[post.length].index ≤ n :=
        hreq _ (heq ▸ List.mem_append_right _ (List.getElem_mem hlen))
      rw [hrest.index_eq hlen] at hend
      have hfirst : e.index = req.prevLogIndex + pre.length + 1 := hrest.1
      rw [lastIndex, hbase, hlog, List.length_append, List.length_take, List.length_cons]
      omega

theorem lastIndex_handleInstallSnapshot_le (r : Raft) (l : NodeId) {req : InstallSnapshotReq}
    {n : Nat} (hlast : r.lastIndex ≤ n) (hreq : req.lastIncludedIndex ≤ n) :
    (r.handleInstallSnapshot l req).lastIndex ≤ n := by
  unfold handleInstallSnapshot
  simp only
  split
  · exact hlast
  rw [show (if req.term > r.currentTerm then r.becomeFollower req.term none else r)
    = r.adopt req.term from rfl]
  split
  · exact (lastIndex_adopt r req.term).trans_le hlast
  · have hf : ((r.adopt req.term).becomeFollower req.term (some l)).lastIndex ≤ n :=
      ((lastIndex_becomeFollower _ _ _).trans (lastIndex_adopt r req.term)).trans_le hlast
    generalize (r.adopt req.term).becomeFollower req.term (some l) = f at hf
    split
    · exact hf
    · next hnew =>
      show req.lastIncludedIndex + (f.installSnapshot req).log.length ≤ n
      simp only [lastIndex] at hf
      unfold installSnapshot
      simp only
      split
      · rw [List.length_drop]
        omega
      · exact hreq

theorem lastIndex_recordMatch (r : Raft) (p : NodeId) (n : Nat) :
    (r.recordMatch p n).lastIndex = r.lastIndex := by
  have hadvance := lastIndex_maybeAdvanceCommit (r.noteMatch p n)
  unfold recordMatch
  simp only
  split
  · exact (congrArg Core.lastIndex (core_broadcastAppend _)).trans hadvance
  · exact hadvance

theorem lastIndex_handleAppendResp (r : Raft) (p : NodeId) (resp : AppendEntriesResp) :
    (r.handleAppendResp p resp).lastIndex = r.lastIndex := by
  unfold handleAppendResp
  simp only
  split
  · exact lastIndex_becomeFollower r resp.term none
  split
  · rfl
  split
  · exact lastIndex_recordMatch _ _ _
  · split
    · exact congrArg Core.lastIndex (core_sendAppend _ _)
    · rfl

theorem lastIndex_handleInstallSnapshotResp (r : Raft) (p : NodeId) (resp : InstallSnapshotResp) :
    (r.handleInstallSnapshotResp p resp).lastIndex = r.lastIndex := by
  unfold handleInstallSnapshotResp
  simp only
  split
  · exact lastIndex_becomeFollower r resp.term none
  split
  · rfl
  split
  · exact lastIndex_recordMatch _ _ _
  · rfl

/-! ## Coming to lead, and standing -/

theorem Elected.wins {i : Input} (h : Elected i r r') (hl : r.role ≠ .leader) : r.Wins i := by
  cases h with
  | tally v resp hi hv hg hpre hrole hterm hq =>
    rw [hi]
    exact ⟨hv, hg, hpre, hrole, hterm, hq⟩
  | alone _ hi hnil hfire =>
    rw [hi]
    exact ⟨hnil, hl, hfire⟩

/-- What a call that does not end in leading leaves of a member that does not lead. -/
structure Idled (r r' : Raft) : Prop where
  last : r'.lastIndex = r.lastIndex
  stand : r'.role = .preCandidate → r.role = .preCandidate ∧ r'.currentTerm = r.currentTerm

theorem Idled.refl (r : Raft) : Idled r r := ⟨rfl, fun h => ⟨h, rfl⟩⟩

theorem Idled.of_follower (hlast : r'.lastIndex = r.lastIndex) (hrole : r'.role = .follower) :
    Idled r r' :=
  ⟨hlast, fun h => by
    rw [hrole] at h
    cases h⟩

theorem idled_becomeFollower (r : Raft) (t : Nat) (l : Option NodeId) :
    Idled r (r.becomeFollower t l) :=
  .of_follower (lastIndex_becomeFollower r t l) (role_becomeFollower t l)

theorem idled_stand (r : Raft) : Idled r r.stand where
  last := congrArg Core.lastIndex (core_stand r)
  stand := fun h => by
    rw [show r.stand.role = .candidate from congrArg Core.role (core_stand r)] at h
    cases h

theorem idled_maybeWinPreElection (h : r.maybeWinPreElection.role ≠ .leader) :
    Idled r r.maybeWinPreElection := by
  rcases maybeWinPreElection_cases r with heq | heq | hlead
  · rw [heq]
    exact .refl r
  · rw [heq]
    exact idled_stand r
  · exact absurd hlead h

theorem idled_handleVoteResp {v : NodeId} {resp : RequestVoteResp}
    (h : r.role = .leader ∨ (r.handleVoteResp v resp).role ≠ .leader) :
    Idled r (r.handleVoteResp v resp) := by
  unfold handleVoteResp at h ⊢
  split
  · exact idled_becomeFollower r resp.term none
  next hterm =>
  rw [if_neg hterm] at h
  split
  · exact .refl r
  next hg =>
  rw [if_neg hg] at h
  split
  · next hpre =>
    rw [if_pos hpre] at h
    split
    · next hrole =>
      rw [if_pos hrole] at h
      have hidle := idled_maybeWinPreElection (r := { r with votes := insert v r.votes })
        (h.resolve_left (by simp [hrole]))
      exact ⟨hidle.last, hidle.stand⟩
    · exact .refl r
  · next hpre =>
    rw [if_neg hpre] at h
    split
    · next hrole =>
      rw [if_pos hrole] at h
      rcases maybeWinElection_cases { r with votes := insert v r.votes } with heq | hlead
      · rw [heq]
        exact ⟨rfl, fun hpre => ⟨hpre, rfl⟩⟩
      · exact absurd hlead (h.resolve_left (by simp [hrole.1]))
    · exact .refl r

/-- A tick that does not end in leading: the timer runs on, or a pre-election starts. -/
theorem tick_idles (hl : r.role ≠ .leader) (h : r.tick.role ≠ .leader) :
    r.tick.lastIndex = r.lastIndex ∧ (r.tick.role = .preCandidate →
      r.tick.currentTerm = r.currentTerm ∧
        (r.role = .preCandidate ∨ r.randomizedElectionTimeout ≤ r.electionElapsed + 1)) := by
  rcases tick_cases hl with ⟨_, htick⟩ | ⟨hfire, g, htick, hcore, _⟩
  · rw [htick]
    exact ⟨rfl, fun hpre => ⟨rfl, Or.inl hpre⟩⟩
  · rw [htick] at h ⊢
    have hidle := idled_maybeWinPreElection h
    have hlast : g.lastIndex = r.lastIndex := congrArg Core.lastIndex hcore
    have hterm : g.currentTerm = r.currentTerm := congrArg Core.currentTerm hcore
    exact ⟨hidle.last.trans hlast, fun hpre => ⟨(hidle.stand hpre).2.trans hterm, Or.inr hfire⟩⟩

/-! ## What a call leaves room for -/

/-- **A clear call leaves the last index in range**, whatever indices a message names. -/
theorem lastIndex_run_le (hw : r.WellFormed) (hlast : r.lastIndex ≤ u64Max) {i : Input}
    (hplain : (Call.input i).Plain) (hfit : i.FitsU64) (hclear : r.Clear i) :
    (r.run i).lastIndex ≤ u64Max := by
  by_cases hlead : r.role ≠ .leader ∧ (r.run i).role = .leader
  · have helected := elected_run hlead.1 hlead.2
    have hwins := helected.wins hlead.1
    have hone := helected.lastIndex
    cases helected with
    | tally _ _ hi =>
      subst hi
      have hgrows := (hclear hwins).1
      omega
    | alone _ hi hnil hfire =>
      subst hi
      have hgrows := (hclear hlead.1 hfire).2 hnil
      omega
  have hno : r.role = .leader ∨ (r.run i).role ≠ .leader := by
    by_cases hl : r.role = .leader
    · exact Or.inl hl
    · exact Or.inr fun hl' => hlead ⟨hl, hl'⟩
  cases i with
  | tick =>
    rcases Classical.em (r.role = .leader) with hl | hl
    · rw [show r.run .tick = r.tickHeartbeat.tickCheckQuorum from if_pos hl,
        lastIndex_tickCheckQuorum]
      exact (congrArg Core.lastIndex (core_tickHeartbeat r)).trans_le hlast
    · exact (tick_idles hl (hno.resolve_left hl)).1.trans_le hlast
  | step p msg =>
    have hstep : r.run (.step p msg) = r.step p msg := rfl
    rcases step_cases r p msg with ⟨_, _, heq⟩ | ⟨_, heq⟩
    · rw [hstep, heq] at hno ⊢
      cases msg with
      | requestVote req => exact (lastIndex_handleRequestVote r p req).trans_le hlast
      | requestVoteResp resp =>
        exact (idled_handleVoteResp hno).last.trans_le hlast
      | appendEntries req =>
        exact lastIndex_handleAppend_le hw p hlast fun e he => (hfit.2.2.2.2 e he).2
      | appendEntriesResp resp => exact (lastIndex_handleAppendResp r p resp).trans_le hlast
      | installSnapshot req => exact lastIndex_handleInstallSnapshot_le r p hlast hfit.2.1
      | installSnapshotResp resp =>
        exact (lastIndex_handleInstallSnapshotResp r p resp).trans_le hlast
    · rw [hstep, heq]
      exact hlast
  | propose c =>
    show (r.propose c).2.lastIndex ≤ u64Max
    unfold propose
    split
    · exact hlast
    · next hl =>
      have hgrows := (hclear (by simpa using hl)).1
      have hpush := lastIndex_pushEntry r (some c)
      refine (congrArg Core.lastIndex (core_broadcastAppend _)).trans_le ?_
      show (r.pushEntry (some c)).maybeAdvanceCommit.2.lastIndex ≤ u64Max
      rw [lastIndex_maybeAdvanceCommit]
      omega
  | compact index snapshot => exact hplain.elim

/-- **A member that is polling can stand**, whatever terms it was told of. -/
theorem stand_run_le (hstand : r.role = .preCandidate → r.currentTerm < u64Max) {i : Input}
    (hclear : r.Clear i) (hpre : (r.run i).role = .preCandidate) :
    (r.run i).currentTerm < u64Max := by
  by_cases htick : i = .tick
  · subst htick
    by_cases hl : r.role = .leader
    · rcases (leaderCall_tick hl).role_kept with ⟨hrole, _⟩ | hrole
      · exact absurd (hrole.symm.trans hpre) (by simp [hl])
      · exact absurd (hrole.symm.trans hpre) (by simp)
    · have hno : r.tick.role ≠ .leader := fun h => absurd (h.symm.trans hpre) (by simp)
      obtain ⟨hterm, hrole | hfire⟩ := (tick_idles hl hno).2 hpre
      · exact hterm.trans_lt (hstand hrole)
      · exact hterm.trans_lt (hclear hl hfire).1
  by_cases hvote : ∃ v resp, i = .step v (.requestVoteResp resp)
  · obtain ⟨v, resp, rfl⟩ := hvote
    have hstep : r.run (.step v (.requestVoteResp resp)) = r.step v (.requestVoteResp resp) := rfl
    rcases step_cases r v (.requestVoteResp resp) with ⟨_, _, heq⟩ | ⟨_, heq⟩
    · rw [hstep, heq] at hpre ⊢
      have hidle := @idled_handleVoteResp r v resp
        (Or.inr fun h => absurd (hpre.symm.trans h) (by simp))
      obtain ⟨hrole, hterm⟩ := hidle.stand hpre
      exact hterm.trans_lt (hstand hrole)
    · rw [hstep, heq] at hpre ⊢
      exact hstand hpre
  · rcases role_kept_run r htick fun v resp h => hvote ⟨v, resp, h⟩ with ⟨hrole, hterm, _⟩ | hrole
    · exact hterm.trans_lt (hstand (hrole.symm.trans hpre))
    · exact absurd (hrole.symm.trans hpre) (by simp)

/-- A leader's log grows by its proposals only, as long as it leads. -/
theorem lastIndex_leader (hl : r.role = .leader) {i : Input} (hplain : (Call.input i).Plain)
    (hl' : (r.run i).role = .leader) : (r.run i).lastIndex = r.lastIndex ∨
      (∃ c, i = .propose c) ∧ (r.run i).lastIndex = r.lastIndex + 1 := by
  have same : (r.run i).core = r.core → (r.run i).lastIndex = r.lastIndex :=
    fun hc => congrArg Core.lastIndex hc
  cases leader_run hl i with
  | ignored hc => exact Or.inl (same hc)
  | beat _ _ hc => exact Or.inl (same hc)
  | kept _ _ _ _ _ hc => exact Or.inl (same hc)
  | deposed _ _ _ hc =>
    have hrole : (r.run i).role = .follower := by
      refine (congrArg Core.role hc).trans ?_
      rw [Core.follow_of_le (c := r.core) (Nat.le_refl r.currentTerm)]
    exact absurd (hrole.symm.trans hl') (by simp)
  | resigned _ _ _ _ hrole => exact absurd (hrole.symm.trans hl') (by simp)
  | voted _ _ _ _ _ hc => exact Or.inl (congrArg Core.lastIndex hc)
  | refused _ _ _ _ _ _ hc => exact Or.inl (same hc)
  | acknowledged p _ n _ _ _ _ _ hc =>
    refine Or.inl ((congrArg Core.lastIndex hc).trans ?_)
    exact lastIndex_maybeAdvanceCommit (r.noteMatch p n)
  | rewound _ _ _ _ _ _ hc => exact Or.inl (same hc)
  | proposed c hi hc =>
    refine Or.inr ⟨⟨c, hi⟩, (congrArg Core.lastIndex hc).trans ?_⟩
    exact (lastIndex_maybeAdvanceCommit _).trans (lastIndex_pushEntry r (some c))
  | compacted _ _ hi =>
    subst hi
    exact hplain.elim

/-- **A leader with peers has an index to look at.** -/
theorem lead_run_le (hw : r.WellFormed)
    (hlead : r.role = .leader → r.peers ≠ [] → r.lastIndex < u64Max) {i : Input}
    (hplain : (Call.input i).Plain) (hclear : r.Clear i) (hl' : (r.run i).role = .leader)
    (hpeers : (r.run i).peers ≠ []) : (r.run i).lastIndex < u64Max := by
  by_cases hl : r.role = .leader
  · have hsame : (r.run i).peers = r.peers := by
      rcases stayed_or_follows hw hl i with hst | hrole
      · exact hst.peers
      · exact absurd (hrole.symm.trans hl') (by simp)
    rw [hsame] at hpeers
    rcases lastIndex_leader hl hplain hl' with hlast | ⟨⟨c, hi⟩, hlast⟩
    · exact hlast.trans_lt (hlead hl hpeers)
    · subst hi
      have hgrows := (hclear hl).2 hpeers
      omega
  · have helected := elected_run hl hl'
    have hwins := helected.wins hl
    have hone := helected.lastIndex
    rw [helected.peers] at hpeers
    cases helected with
    | tally _ _ hi =>
      subst hi
      have hgrows := (hclear hwins).2 hpeers
      omega
    | alone _ _ hnil => exact absurd hnil hpeers

/-! ## Runs -/

/-- An engine whose counters have room for `k` more ticks, and whose log for a look ahead. -/
structure Sized (k : Nat) (r : Raft) : Prop where
  wellFormed : r.WellFormed
  books : r.Books
  cfg : r.cfg.Fits
  last : r.lastIndex ≤ u64Max
  lead : r.role = .leader → r.peers ≠ [] → r.lastIndex < u64Max
  stand : r.role = .preCandidate → r.currentTerm < u64Max
  heartbeat : r.heartbeatElapsed + k ≤ u64Max
  election : r.electionElapsed + k ≤ u64Max

/-- **A clear call has the room it needs.** -/
theorem Sized.hasRoom {k : Nat} {i : Input} (h : Sized (i.ticks + k) r) (hclear : r.Clear i) :
    r.HasRoom i where
  cfg := h.cfg
  last := h.last
  lead := h.lead
  heartbeat := fun hi => by
    have := h.heartbeat
    rw [hi, Input.ticks] at this
    omega
  election := fun hi => by
    have := h.election
    rw [hi, Input.ticks] at this
    omega
  poll := fun hi hl hfire => by
    subst hi
    exact (hclear hl hfire).1
  stand := h.stand
  grow := by
    rintro (hwins | ⟨hl, c, rfl⟩)
    · cases i with
      | tick =>
        obtain ⟨hnil, hl, hfire⟩ := hwins
        exact ⟨(hclear hl hfire).2 hnil, fun hne => absurd hnil hne⟩
      | step p msg =>
        cases msg with
        | requestVoteResp resp => exact hclear hwins
        | _ => exact hwins.elim
      | _ => exact hwins.elim
    · exact hclear hl

/-- **What a clear call leaves has room for the ticks that are left.** -/
theorem Sized.run {k : Nat} {i : Input} (h : Sized (i.ticks + k) r) (hplain : (Call.input i).Plain)
    (hfit : i.FitsU64) (hclear : r.Clear i) : Sized k (r.run i) := by
  have hpaced := paced_run r i
  have hbeat := h.heartbeat
  have helection := h.election
  exact
    { wellFormed := h.wellFormed.run (hplain.admissible r)
      books := h.books.run h.wellFormed i
      cfg := (cfg_run r i).symm ▸ h.cfg
      last := lastIndex_run_le h.wellFormed h.last hplain hfit hclear
      lead := lead_run_le h.wellFormed h.lead hplain hclear
      stand := stand_run_le h.stand hclear
      heartbeat := (Nat.add_le_add_right hpaced.heartbeat k).trans (by
        rw [Nat.add_assoc]
        exact hbeat)
      election := (Nat.add_le_add_right hpaced.election k).trans (by
        rw [Nat.add_assoc]
        exact helection) }

theorem Sized.ready {k : Nat} (h : Sized k r) : Sized k r.ready.2 where
  wellFormed := h.wellFormed.ready
  books := h.books.ready
  cfg := h.cfg
  last := h.last
  lead := h.lead
  stand := h.stand
  heartbeat := h.heartbeat
  election := h.election

theorem sized_new {id : NodeId} {peers : List NodeId} {cfg : RaftConfig} {seed : UInt64} {k : Nat}
    (hcfg : cfg.Fits) (hk : k ≤ u64Max) :
    Sized k (Raft.new id peers cfg seed Persisted.default) where
  wellFormed := wellFormed_new (validatePersisted_ok_iff.mp (by decide)).1
  books := books_new ..
  cfg := hcfg
  last := Nat.zero_le _
  lead := fun h => absurd ((role_new ..).symm.trans h) (by simp)
  stand := fun h => absurd ((role_new ..).symm.trans h) (by simp)
  heartbeat := (Nat.zero_add k).trans_le hk
  election := (Nat.zero_add k).trans_le hk

namespace Call

/-- The fields of what a call delivers are `u64` values. -/
def FitsU64 : Call → Prop
  | .input i => i.FitsU64
  | .ready => True

instance (c : Call) : Decidable c.FitsU64 := by
  unfold FitsU64
  split <;> infer_instance

/-- A drain does no unguarded sum. -/
def Clear (r : Raft) : Call → Prop
  | .input i => r.Clear i
  | .ready => True

instance (r : Raft) (c : Call) : Decidable (c.Clear r) := by
  unfold Clear
  split <;> infer_instance

end Call

/-- Every call of a run finds the room it needs. -/
def AllClear (r : Raft) : List Call → Prop
  | [] => True
  | c :: rest => c.Clear r ∧ AllClear (r.after c) rest

instance decidableAllClear : (r : Raft) → (l : List Call) → Decidable (r.AllClear l)
  | _, [] => isTrue trivial
  | r, c :: rest =>
    have := decidableAllClear (r.after c) rest
    inferInstanceAs (Decidable (_ ∧ _))

namespace Checked

def after (r : Raft) : Call → Except Fault Raft
  | .input i => run r i
  | .ready => ready r

/-- A checked run. -/
def calls (r : Raft) (l : List Call) : Except Fault Raft := l.foldlM after r

end Checked

/-- **A clear run is a run of the checked engine.** -/
theorem Sized.calls {l : List Call} (h : Sized (l.map Call.ticks).sum r) (hplain : ∀ c ∈ l, c.Plain)
    (hfit : ∀ c ∈ l, c.FitsU64) (hclear : r.AllClear l) : Checked.calls r l = .ok (r.calls l) := by
  induction l generalizing r with
  | nil => rfl
  | cons c rest ih =>
    have hone : Checked.after r c = .ok (r.after c) ∧ Sized (rest.map Call.ticks).sum (r.after c) := by
      cases c with
      | input i =>
        have hroom := Sized.hasRoom h hclear.1
        exact ⟨(within_run h.wellFormed h.books i).eq_ok hroom,
          Sized.run h (hplain _ (List.mem_cons_self ..)) (hfit _ (List.mem_cons_self ..)) hclear.1⟩
      | ready =>
        have hsized : Sized (rest.map Call.ticks).sum r := by
          simpa [Call.ticks] using h
        exact ⟨(within_ready h.wellFormed fun h => h).eq_ok h.last, hsized.ready⟩
    obtain ⟨heq, hsized⟩ := hone
    show (Checked.after r c >>= fun r => Checked.calls r rest) = _
    rw [heq]
    exact ih hsized (fun c' hc' => hplain c' (List.mem_cons_of_mem _ hc'))
      (fun c' hc' => hfit c' (List.mem_cons_of_mem _ hc')) hclear.2

/--
**No sum overflows in a run whose calls are clear.** A fresh member, whatever its timing, handles
every sequence of ticks, proposals, drains and messages of `u64` values with no addition or
subtraction out of range, as long as each pre-election finds the term below the ceiling, and each
election that is won and each proposal of a leader finds the log below it.
-/
theorem checked_calls_eq {id : NodeId} {peers : List NodeId} {cfg : RaftConfig} {seed : UInt64}
    (hcfg : cfg.Fits) {l : List Call} (hplain : ∀ c ∈ l, c.Plain) (hfit : ∀ c ∈ l, c.FitsU64)
    (hticks : (l.map Call.ticks).sum < 2 ^ 63)
    (hclear : (Raft.new id peers cfg seed Persisted.default).AllClear l) :
    (Checked.new id peers cfg seed Persisted.default >>= fun r => Checked.calls r l) =
      .ok ((Raft.new id peers cfg seed Persisted.default).calls l) := by
  have hnew : Within .overflow cfg.Fits (Checked.new id peers cfg seed Persisted.default)
      (Raft.new id peers cfg seed Persisted.default) := within_new fun h => h
  rw [hnew.eq_ok hcfg]
  refine Sized.calls (sized_new hcfg ?_) hplain hfit hclear
  have hmax : 2 ^ 63 ≤ u64Max := by decide
  omega

/-- The shortest timing there is. -/
def duoTiming : RaftConfig := { heartbeatTicks := 1, electionMinTicks := 2, electionMaxTicks := 2 }

/-- An election, a proposal and a drain of a member of two. -/
def duoCalls : List Call :=
  [.input .tick, .input .tick,
    .input (.step "b" (.requestVoteResp { term := 0, granted := true, preVote := true })),
    .input (.step "b" (.requestVoteResp { term := 1, granted := true, preVote := false })),
    .input (.propose (.forgetNode "node-9")), .ready]

theorem checked_calls_eq_duo :
    (Checked.new "a" ["b"] duoTiming 7 Persisted.default >>= fun r => Checked.calls r duoCalls) =
      .ok ((Raft.new "a" ["b"] duoTiming 7 Persisted.default).calls duoCalls) :=
  checked_calls_eq ⟨by decide, by decide⟩ (by decide) (by decide +kernel) (by decide)
    (by decide +kernel)

/-- Did the sums overflow? -/
def overflows {α : Type} : Except Fault α → Bool
  | .error .overflow => true
  | _ => false

theorem eq_overflow {α : Type} {x : Except Fault α} (h : overflows x = true) :
    x = .error .overflow := by
  unfold overflows at h
  split at h
  · rfl
  · cases h

/-- A request for a vote in the last term there is, and the two ticks that start a pre-election. -/
def lastTermCalls : List Call :=
  [.input (.step "b" (.requestVote
      { term := u64Max, candidateId := "b", lastLogIndex := 0, lastLogTerm := 0, preVote := false })),
    .input .tick, .input .tick]

/-- **A peer can make the term overflow**: its term is adopted, and the next pre-election adds one. -/
theorem checked_calls_overflow_duo :
    duoTiming.validate = .ok () ∧ duoTiming.Fits ∧ (∀ c ∈ lastTermCalls, c.Plain) ∧
      (∀ c ∈ lastTermCalls, c.FitsU64) ∧ (lastTermCalls.map Call.ticks).sum = 2 ∧
      (Checked.new "a" ["b"] duoTiming 7 Persisted.default >>= fun r =>
        Checked.calls r lastTermCalls) = .error .overflow :=
  ⟨rfl, ⟨by decide, by decide⟩, by decide, by decide +kernel, by decide,
    eq_overflow (by decide +kernel)⟩

end Raft

end FiduciaBrain
