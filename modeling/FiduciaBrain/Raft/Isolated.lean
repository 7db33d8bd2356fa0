import FiduciaBrain.Raft.AppendSpec
import FiduciaBrain.Raft.Calls
import FiduciaBrain.Raft.Emit

/-!
# A member on its own

Without a message a member with peers gets nowhere: its own vote is no quorum, so it polls for ever
and never stands, and a leader has committed what the acknowledgements allow already (`Settled`).
What it sends in the meantime moves nobody's term (`Meek`).
-/

namespace FiduciaBrain.Raft

open Infra

variable {r r' : Raft}

/-! ## The commit rule is up to date -/

/-- Nothing a leader has not committed is on a quorum. -/
def Settled (r : Raft) : Prop :=
  r.role = .leader → ∀ e ∈ r.log, r.commitIndex < e.index → e.term = r.currentTerm →
    r.replicaCount e.index < r.quorum

/-- The commit rule finds the last index it may commit. -/
theorem le_newCommit {n : Nat} (hc : r.commitIndex < n) (hl : n ≤ r.lastIndex)
    (hterm : r.termAt n = r.currentTerm) (hq : r.quorum ≤ r.replicaCount n) :
    n ≤ r.newCommit := by
  have key : ∀ k, n < r.commitIndex + 1 + k →
      n ≤ (List.range' (r.commitIndex + 1) k).foldl
        (fun newCommit n =>
          if r.termAt n ≠ r.currentTerm then newCommit
          else if r.replicaCount n ≥ r.quorum then n
          else newCommit) r.commitIndex := by
    intro k
    induction k with
    | zero =>
      intro hlt
      omega
    | succ k ih =>
      intro hlt
      rw [List.range'_1_concat, List.foldl_append, List.foldl_cons, List.foldl_nil]
      rcases Nat.lt_or_ge n (r.commitIndex + 1 + k) with hlt' | hge
      · have hih := ih hlt'
        split
        · exact hih
        · split
          · omega
          · exact hih
      · have heq : n = r.commitIndex + 1 + k := by omega
        rw [← heq, if_neg (not_not.mpr hterm), if_pos hq]
  exact key _ (by omega)

theorem termAt_of_mem (h : r.WellFormed) {e : LogEntry} (he : e ∈ r.log) :
    r.baseIndex < e.index ∧ e.index ≤ r.lastIndex ∧ r.termAt e.index = e.term := by
  have hat := entryAt_of_mem h he
  have hb := (entryAt_eq_some.mp hat).1
  have hl : e.index ≤ r.lastIndex := by
    by_contra hgt
    rw [entryAt_eq_none (Nat.lt_of_not_le hgt)] at hat
    cases hat
  obtain ⟨x, hx, hterm⟩ := exists_entryAt hb hl
  rw [hat] at hx
  cases hx
  exact ⟨hb, hl, hterm.symm⟩

theorem settled_maybeAdvanceCommit (h : r.WellFormed) (hs : r'.core = r.maybeAdvanceCommit.2.core) :
    r'.Settled := by
  obtain ⟨d, hcore⟩ := core_maybeAdvanceCommit r
  have hc := hs.trans hcore
  intro _ e he hcommit hterm
  have hlog : r'.log = r.log := congrArg Core.log hc
  have hpeers : r'.peers = r.peers := congrArg Core.peers hc
  have hmatch : r'.matchIndex = r.matchIndex := congrArg Core.matchIndex hc
  have hnew : r'.commitIndex = r.newCommit := congrArg Core.commitIndex hc
  have hterm' : r'.currentTerm = r.currentTerm := congrArg Core.currentTerm hc
  rw [hlog] at he
  rw [hnew] at hcommit
  rw [hterm'] at hterm
  obtain ⟨_, hle, hat⟩ := termAt_of_mem h he
  by_contra hq
  rw [not_lt, quorum, replicaCount, hpeers, hmatch] at hq
  have hfound := le_newCommit (Nat.lt_of_le_of_lt (newCommit_ge r) hcommit) hle (hat.trans hterm) hq
  omega

/-- A settled leader commits nothing more. -/
theorem Settled.newCommit_eq (h : r.WellFormed) (hs : r.Settled) (hl : r.role = .leader) :
    r.newCommit = r.commitIndex := by
  by_contra hne
  have hgt : r.newCommit > r.commitIndex := Nat.lt_of_le_of_ne (newCommit_ge r) (Ne.symm hne)
  obtain ⟨hlast, hterm, hq⟩ := newCommit_spec hgt
  have hbc := h.base_le_commit
  obtain ⟨x, hx, hxterm⟩ := exists_entryAt (r := r) (i := r.newCommit) (by omega) hlast
  have hidx := index_of_entryAt h hx
  have hmem : x ∈ r.log := List.mem_of_getElem? (entryAt_eq_some.mp hx).2
  have hlt := hs hl x hmem (by omega) (hxterm.trans hterm)
  rw [hidx] at hlt
  omega

/-- What settles a member settles another with the same acknowledgements, and no more of a log. -/
theorem Settled.of_core (hs : r.Settled) {c : Core} (hc : r'.core = c) (hrole : c.role = r.role)
    (hlog : ∀ e ∈ c.log, e ∈ r.log) (hcommit : c.commitIndex = r.commitIndex)
    (hterm : c.currentTerm = r.currentTerm) (hmatch : c.matchIndex = r.matchIndex)
    (hpeers : c.peers = r.peers) : r'.Settled := by
  subst hc
  intro hl e he hcommit' hterm'
  rw [show r'.commitIndex = r.commitIndex from hcommit] at hcommit'
  rw [show r'.currentTerm = r.currentTerm from hterm] at hterm'
  rw [quorum, replicaCount, show r'.peers = r.peers from hpeers,
    show r'.matchIndex = r.matchIndex from hmatch]
  exact hs (hrole.symm.trans hl) e (hlog e he) hcommit' hterm'

theorem one_lt_quorum (h : r.peers ≠ []) : 1 < r.quorum := by
  unfold quorum
  have := List.length_pos_iff.mpr h
  omega

theorem settled_becomeLeader (h : r.peers ≠ []) : r.becomeLeader.Settled := by
  have hc := core_becomeLeader r
  have hpeers : r.becomeLeader.peers = r.peers := congrArg Core.peers hc
  have hmatch : r.becomeLeader.matchIndex = fun p => if p ∈ r.peers then some 0 else none :=
    congrArg Core.matchIndex hc
  intro _ e _ hcommit _
  have hone : r.becomeLeader.replicaCount e.index = 1 := by
    rw [replicaCount, hpeers, hmatch, List.countP_eq_zero.mpr]
    intro p hp
    simp only [hp, if_true, Option.getD_some, decide_eq_true_eq]
    omega
  rw [hone]
  exact one_lt_quorum (hpeers ▸ h)

/-- **The commit rule stays up to date.** -/
theorem Settled.run (h : r.WellFormed) (hs : r.Settled) (hpeers : r.peers ≠ []) (i : Input) :
    (r.run i).Settled := by
  intro hl'
  by_cases hl : r.role = .leader
  · have same : (r.run i).core = r.core → (r.run i).Settled := fun hc =>
      hs.of_core hc rfl (fun _ he => he) rfl rfl rfl rfl
    have absurd_follower : (r.run i).role = .follower → (r.run i).Settled := fun hrole =>
      absurd (hrole.symm.trans hl') (by simp)
    refine (?_ : (r.run i).Settled) hl'
    cases leader_run hl i with
    | ignored hc => exact same hc
    | beat _ _ hc => exact same hc
    | kept _ _ _ _ _ hc => exact same hc
    | deposed _ _ _ hc =>
      refine absurd_follower ((congrArg Core.role hc).trans ?_)
      rw [Core.follow_of_le (c := r.core) (Nat.le_refl r.currentTerm)]
    | resigned _ _ _ _ hrole => exact absurd_follower hrole
    | voted _ _ _ _ _ hc => exact hs.of_core hc rfl (fun _ he => he) rfl rfl rfl rfl
    | refused _ _ _ _ _ _ hc => exact same hc
    | acknowledged p _ n _ _ _ _ _ hc =>
      refine settled_maybeAdvanceCommit (r := r.noteMatch p n) ?_ hc
      exact { h with }
    | rewound _ _ _ _ _ _ hc => exact same hc
    | proposed c _ hc =>
      refine settled_maybeAdvanceCommit (r := r.pushEntry (some c)) ?_ hc
      exact (Move.push c rfl hl rfl).wellFormed (i := .propose c) h trivial
    | compacted index snapshot _ hb hcommit heq =>
      rw [heq, compact, if_neg (by omega)]
      exact hs.of_core rfl rfl (fun e he => List.mem_of_mem_drop he) rfl rfl rfl rfl
  · have helected := elected_run hl hl'
    have hsame := helected.peers
    obtain ⟨s, heq⟩ := helected.eq_becomeLeader
    rw [heq] at hsame hl' ⊢
    refine settled_becomeLeader ?_ hl'
    rw [← show s.becomeLeader.peers = s.peers from congrArg Core.peers (core_becomeLeader s), hsame]
    exact hpeers

/-! ## Calls without a message -/

/-- A call that brings no message. -/
def Call.Isolated : Call → Prop
  | .input .tick => True
  | .input (.propose _) => True
  | .ready => True
  | _ => False

instance (c : Call) : Decidable c.Isolated := by
  unfold Call.Isolated
  split <;> infer_instance

/-- The entry a proposal adds, if the member still leads. -/
def accepts (r : Raft) : Call → List LogEntry
  | .input (.propose c) =>
    if r.role = .leader then
      [{ term := r.currentTerm, index := r.lastIndex + 1, command := some c }]
    else []
  | _ => []

/-- The entries that the proposals among the calls add. -/
def accepted (r : Raft) : List Call → List LogEntry
  | [] => []
  | c :: rest => r.accepts c ++ accepted (r.after c) rest

/-- What a member can send without hearing from anybody: a poll, and what a leader of its term `t`
sends. -/
inductive Meek (t : Nat) : RaftMessage → Prop
  | poll (req : RequestVoteReq) : req.preVote = true → Meek t (.requestVote req)
  | append (req : AppendEntriesReq) : req.term = t → Meek t (.appendEntries req)
  | snapshot (req : InstallSnapshotReq) : req.term = t → Meek t (.installSnapshot req)

theorem Replication.meek {msg : RaftMessage} (h : Replication r msg) : Meek r.currentTerm msg := by
  cases h with
  | snapshot data _ => exact .snapshot _ rfl
  | append next _ => exact .append _ rfl

/-- What a call without a message leaves as it was. -/
structure Stalled (c : Call) (r r' : Raft) : Prop where
  term : r'.currentTerm = r.currentTerm
  vote : r'.votedFor = r.votedFor
  commit : r'.commitIndex = r.commitIndex
  base : r'.baseIndex = r.baseIndex
  log : r'.log = r.log ++ r.accepts c
  out : ∀ m ∈ r'.out, m ∈ r.out ∨ Meek r.currentTerm m.msg

theorem mem_out_tickHeartbeat {m : Addressed} (h : m ∈ r.tickHeartbeat.out) :
    m ∈ r.out ∨ Meek r.currentTerm m.msg := by
  unfold tickHeartbeat at h
  simp only at h
  split at h
  · exact (mem_out_broadcastAppend (r := { r with heartbeatElapsed := 0 }) h).imp_right
      fun hm => hm.meek
  · exact Or.inl h

theorem stalled_tick (hpeers : r.peers ≠ []) : Stalled (.input .tick) r r.tick := by
  have still : ∀ {c : Core}, r.tick.core = c → c.currentTerm = r.currentTerm →
      c.votedFor = r.votedFor → c.commitIndex = r.commitIndex → c.baseIndex = r.baseIndex →
      c.log = r.log → (∀ m ∈ r.tick.out, m ∈ r.out ∨ Meek r.currentTerm m.msg) →
      Stalled (.input .tick) r r.tick := by
    intro c hc hterm hvote hcommit hbase hlog hout
    subst hc
    exact ⟨hterm, hvote, hcommit, hbase, hlog.trans (List.append_nil _).symm, hout⟩
  by_cases hl : r.role = .leader
  · have htick : r.tick = r.tickHeartbeat.tickCheckQuorum := if_pos hl
    have hout : ∀ m ∈ r.tick.out, m ∈ r.out ∨ Meek r.currentTerm m.msg := by
      intro m hm
      rw [htick, out_tickCheckQuorum] at hm
      exact mem_out_tickHeartbeat hm
    cases leaderCall_tick hl with
    | beat _ _ hc => exact still hc rfl rfl rfl rfl rfl hout
    | kept _ _ _ _ _ hc => exact still hc rfl rfl rfl rfl rfl hout
    | deposed _ _ _ hc =>
      rw [Core.follow_of_le (c := r.core) (Nat.le_refl r.currentTerm)] at hc
      exact still hc rfl rfl rfl rfl rfl hout
    | ignored _ _ _ _ hi => exact absurd rfl hi
    | resigned _ _ hi | voted _ _ hi | refused _ _ hi | acknowledged _ _ _ hi | rewound _ _ hi
    | proposed _ hi | compacted _ _ hi => cases hi
  · rcases tick_cases hl with ⟨_, htick⟩ | ⟨_, g, htick, hcore, _, hout⟩
    · refine still (congrArg core htick) rfl rfl rfl rfl rfl fun m hm => ?_
      rw [htick] at hm
      exact Or.inl hm
    · -- its own vote is no quorum
      have hpoll : g.maybeWinPreElection = g := by
        unfold maybeWinPreElection
        rw [if_neg]
        rintro ⟨_, hq⟩
        rw [show g.votes = {r.id} from congrArg Core.votes hcore, Finset.card_singleton] at hq
        have hnil := peers_eq_nil_of_quorum_le_one hq
        rw [show g.peers = r.peers from congrArg Core.peers hcore] at hnil
        exact hpeers hnil
      rw [hpoll] at htick
      refine still ((congrArg core htick).trans hcore) rfl rfl rfl rfl rfl fun m hm => ?_
      rw [htick] at hm
      rcases hout m hm with hm | ⟨req, hmsg, hpre⟩
      · exact Or.inl hm
      · rw [hmsg]
        exact Or.inr (.poll req hpre)

/-- A settled leader commits no proposal it makes on its own. -/
theorem newCommit_pushEntry (h : r.WellFormed) (hb : r.Books) (hs : r.Settled)
    (hpeers : r.peers ≠ []) (hl : r.role = .leader) (c : Command) :
    (r.pushEntry (some c)).newCommit = r.commitIndex := by
  have hw : (r.pushEntry (some c)).WellFormed :=
    (Move.push c rfl hl rfl).wellFormed (i := .propose c) h trivial
  refine Settled.newCommit_eq hw (fun _ e he hcommit hterm => ?_) hl
  rcases List.mem_append.mp he with he | he
  · exact hs hl e he hcommit hterm
  · -- nobody else has the entry
    rw [List.mem_singleton.mp he]
    have hone : (r.pushEntry (some c)).replicaCount (r.lastIndex + 1) = 1 := by
      rw [replicaCount, List.countP_eq_zero.mpr]
      intro p hp
      obtain ⟨m, _, hm, _, hle, _⟩ := hb.tables hl p hp
      rw [show (r.pushEntry (some c)).matchIndex p = some m from hm, Option.getD_some,
        decide_eq_true_eq]
      omega
    rw [hone]
    exact one_lt_quorum (r := r.pushEntry (some c)) hpeers

theorem stalled_propose (h : r.WellFormed) (hb : r.Books) (hs : r.Settled) (hpeers : r.peers ≠ [])
    (c : Command) : Stalled (.input (.propose c)) r (r.propose c).2 := by
  unfold propose
  by_cases hl : r.role = .leader
  · rw [if_neg (by simpa using hl)]
    have hnew := newCommit_pushEntry h hb hs hpeers hl c
    have hadvance : (r.pushEntry (some c)).maybeAdvanceCommit.2 = r.pushEntry (some c) := by
      unfold maybeAdvanceCommit
      rw [if_neg (by rw [hnew]; exact Nat.lt_irrefl _)]
    simp only [hadvance]
    have hc := core_broadcastAppend (r.pushEntry (some c))
    have hlog : r.accepts (.input (.propose c)) =
        [{ term := r.currentTerm, index := r.lastIndex + 1, command := some c }] := if_pos hl
    exact
      { term := congrArg Core.currentTerm hc
        vote := congrArg Core.votedFor hc
        commit := congrArg Core.commitIndex hc
        base := congrArg Core.baseIndex hc
        log := (congrArg Core.log hc).trans (by rw [hlog]; rfl)
        out := fun m hm => (mem_out_broadcastAppend hm).imp_right fun hrep => hrep.meek }
  · rw [if_pos (by simpa using hl)]
    have hlog : r.accepts (.input (.propose c)) = [] := if_neg hl
    exact
      { term := rfl
        vote := rfl
        commit := rfl
        base := rfl
        log := by rw [hlog, List.append_nil]
        out := fun _ hm => Or.inl hm }

theorem stalled_ready (r : Raft) : Stalled .ready r r.ready.2 where
  term := rfl
  vote := rfl
  commit := rfl
  base := rfl
  log := (List.append_nil _).symm
  out := fun _ hm => absurd hm List.not_mem_nil

/-- What a member needs to know to get nowhere on its own. -/
structure Quiescent (r : Raft) : Prop where
  wellFormed : r.WellFormed
  books : r.Books
  settled : r.Settled
  peers : r.peers ≠ []

theorem Quiescent.run (h : r.Quiescent) {i : Input} (ha : r.Admissible i) : (r.run i).Quiescent where
  wellFormed := h.wellFormed.run ha
  books := h.books.run h.wellFormed i
  settled := h.settled.run h.wellFormed h.peers i
  peers := (progress_run h.wellFormed ha).peers ▸ h.peers

theorem Quiescent.ready (h : r.Quiescent) : r.ready.2.Quiescent where
  wellFormed := h.wellFormed.ready
  books := h.books.ready
  settled := h.settled
  peers := h.peers

theorem quiescent_new {id : NodeId} {peers : List NodeId} {cfg : RaftConfig} {seed : UInt64}
    {p : Persisted} (hp : p.Valid) (hpeers : peers ≠ []) :
    (Raft.new id peers cfg seed p).Quiescent where
  wellFormed := wellFormed_new hp
  books := books_new ..
  settled := fun h => absurd ((role_new ..).symm.trans h) (by simp)
  peers := hpeers

theorem Call.Isolated.plain {c : Call} (h : c.Isolated) : c.Plain := by
  cases c with
  | input i =>
    cases i with
    | compact _ _ => exact h.elim
    | _ => trivial
  | ready => trivial

/-- **A call without a message gets a member nowhere.** -/
theorem Quiescent.stalled (h : r.Quiescent) {c : Call} (hc : c.Isolated) :
    Stalled c r (r.after c) ∧ (r.after c).Quiescent := by
  cases c with
  | ready => exact ⟨stalled_ready r, h.ready⟩
  | input i =>
    refine ⟨?_, h.run (hc.plain.admissible r)⟩
    cases i with
    | tick => exact stalled_tick h.peers
    | propose c => exact stalled_propose h.wellFormed h.books h.settled h.peers c
    | step _ _ => exact hc.elim
    | compact _ _ => exact hc.elim

/-- What a run without a message leaves as it was. -/
structure Marooned (l : List Call) (r r' : Raft) : Prop where
  term : r'.currentTerm = r.currentTerm
  vote : r'.votedFor = r.votedFor
  commit : r'.commitIndex = r.commitIndex
  base : r'.baseIndex = r.baseIndex
  log : r'.log = r.log ++ r.accepted l
  out : ∀ m ∈ r'.out, m ∈ r.out ∨ Meek r.currentTerm m.msg

/-- **So does a run of them.** -/
theorem Quiescent.marooned (h : r.Quiescent) {l : List Call} (hl : ∀ c ∈ l, c.Isolated) :
    Marooned l r (r.calls l) := by
  induction l generalizing r with
  | nil => exact ⟨rfl, rfl, rfl, rfl, (List.append_nil _).symm, fun _ hm => Or.inl hm⟩
  | cons c rest ih =>
    obtain ⟨hone, hnext⟩ := h.stalled (hl c (List.mem_cons_self ..))
    have hrest := ih hnext fun c' hc' => hl c' (List.mem_cons_of_mem _ hc')
    exact
      { term := hrest.term.trans hone.term
        vote := hrest.vote.trans hone.vote
        commit := hrest.commit.trans hone.commit
        base := hrest.base.trans hone.base
        log := by
          rw [calls_cons, hrest.log, hone.log, List.append_assoc]
          rfl
        out := fun m hm => by
          rcases hrest.out m hm with hm | hm
          · exact hone.out m hm
          · exact Or.inr (hone.term ▸ hm) }

/-! ## What it says in the meantime -/

theorem currentTerm_adopt {t : Nat} (h : r.currentTerm ≤ t) : (r.adopt t).currentTerm = t := by
  unfold adopt
  split
  · exact (congrArg Core.currentTerm (core_becomeFollower r t none)).trans
      (Core.currentTerm_follow h)
  · next hle => omega

/-- A request is handled in its own term, if that is later. -/
theorem currentTerm_handleAppend (r : Raft) (l : NodeId) (req : AppendEntriesReq) :
    (r.handleAppend l req).currentTerm = max r.currentTerm req.term := by
  unfold handleAppend
  simp only
  split
  · next hstale => exact (Nat.max_eq_left hstale.le).symm
  next hstale =>
  have hle : r.currentTerm ≤ req.term := Nat.not_lt.mp hstale
  rw [Nat.max_eq_right hle]
  rw [show (if req.term > r.currentTerm then r.becomeFollower req.term none else r)
    = r.adopt req.term from rfl]
  split
  · exact currentTerm_adopt hle
  · have hf := currentTerm_adopt_becomeFollower hle (some l)
    generalize (r.adopt req.term).becomeFollower req.term (some l) = f at hf
    split
    · exact hf
    · split
      · exact hf
      · exact (splice_frame _ _ _ _ _).2.trans hf

theorem currentTerm_handleInstallSnapshot (r : Raft) (l : NodeId) (req : InstallSnapshotReq) :
    (r.handleInstallSnapshot l req).currentTerm = max r.currentTerm req.term := by
  unfold handleInstallSnapshot
  simp only
  split
  · next hstale => exact (Nat.max_eq_left hstale.le).symm
  next hstale =>
  have hle : r.currentTerm ≤ req.term := Nat.not_lt.mp hstale
  rw [Nat.max_eq_right hle]
  rw [show (if req.term > r.currentTerm then r.becomeFollower req.term none else r)
    = r.adopt req.term from rfl]
  split
  · exact currentTerm_adopt hle
  · have hf := currentTerm_adopt_becomeFollower hle (some l)
    generalize (r.adopt req.term).becomeFollower req.term (some l) = f at hf
    split <;> exact hf

/-- A poll changes nothing. -/
theorem core_handleRequestVote_poll (r : Raft) (c : NodeId) {req : RequestVoteReq}
    (hpre : req.preVote = true) : (r.handleRequestVote c req).core = r.core := by
  unfold handleRequestVote
  simp only [hpre, Bool.not_true, Bool.false_and, Bool.false_eq_true, if_false, if_true]
  split
  · rfl
  · split <;> rfl

/-- **What a member on its own says moves no term**, and is lost on a later one. -/
theorem Meek.step {t : Nat} {msg : RaftMessage} (hm : Meek t msg) (ht : t ≤ r.currentTerm)
    (p : NodeId) : (r.step p msg).currentTerm = r.currentTerm ∧
      (t < r.currentTerm → (r.step p msg).core = r.core) := by
  rcases step_cases r p msg with ⟨_, _, heq⟩ | ⟨_, heq⟩
  · rw [heq]
    cases hm with
    | poll req hpre =>
      have hc := core_handleRequestVote_poll r p hpre
      exact ⟨congrArg Core.currentTerm hc, fun _ => hc⟩
    | append req hterm =>
      refine ⟨(currentTerm_handleAppend r p req).trans (by omega), fun hlt => ?_⟩
      show (r.handleAppend p req).core = r.core
      unfold handleAppend
      rw [if_pos (by omega)]
      rfl
    | snapshot req hterm =>
      refine ⟨(currentTerm_handleInstallSnapshot r p req).trans (by omega), fun hlt => ?_⟩
      show (r.handleInstallSnapshot p req).core = r.core
      unfold handleInstallSnapshot
      rw [if_pos (by omega)]
      rfl
  · rw [heq]
    exact ⟨rfl, fun _ => rfl⟩

end FiduciaBrain.Raft
