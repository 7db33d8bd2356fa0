import FiduciaBrain.Raft.Canvass
import FiduciaBrain.Raft.Emit

/-!
# Bringing a follower up to date

One exchange between a leader and a follower of no later term. An append is taken, or it is refused
with a hint that brings the leader strictly closer (`AppendAnswer`); a snapshot is always answered
with success; and the leader makes of each answer what it should.
-/

namespace FiduciaBrain.Raft

variable {r : Raft} {l : NodeId}

/-! ## The follower -/

/-- What a follower answers to an append that agrees with it on everything committed. -/
inductive AppendAnswer (r r' : Raft) (req : AppendEntriesReq) (resp : AppendEntriesResp) : Prop
  /-- The append starts beyond the end of the log. -/
  | short : resp.success = false → r.lastIndex < req.prevLogIndex →
      resp.matchIndex = r.lastIndex → AppendAnswer r r' req resp
  /-- The log has another entry where the append starts. -/
  | differs : resp.success = false → 0 < req.prevLogIndex → req.prevLogIndex ≤ r.lastIndex →
      r.termAt req.prevLogIndex ≠ req.prevLogTerm →
      resp.matchIndex = req.prevLogIndex - 1 → AppendAnswer r r' req resp
  | taken : resp.success = true → resp.matchIndex = req.prevLogIndex + req.entries.length →
      r'.commitIndex = max r.commitIndex (min req.leaderCommit resp.matchIndex) →
      AppendAnswer r r' req resp

theorem handleAppend_answer (hw : r.WellFormed) {req : AppendEntriesReq}
    (hle : r.currentTerm ≤ req.term) (hcont : entriesAreContiguous req = true)
    (hagree : ∀ e ∈ req.entries, e.index ≤ r.commitIndex → r.termAt e.index = e.term) :
    ∃ resp, (r.handleAppend l req).out = r.out ++ [⟨l, .appendEntriesResp resp⟩] ∧
      resp.term = req.term ∧ (r.handleAppend l req).currentTerm = req.term ∧
      (r.handleAppend l req).baseIndex = r.baseIndex ∧
      AppendAnswer r (r.handleAppend l req) req resp := by
  unfold handleAppend
  simp only
  rw [if_neg (Nat.not_lt.mpr hle), show (if req.term > r.currentTerm then
    r.becomeFollower req.term none else r) = r.adopt req.term from rfl, hcont, if_neg (by simp)]
  obtain ⟨_, _, hv⟩ := logValid_of_contiguous hcont
  have hsame : SameLog r ((r.adopt req.term).becomeFollower req.term (some l)) :=
    .of_follow (core_follow_adopt hle (some l))
  have hterm := currentTerm_adopt_becomeFollower hle (some l)
  have hout : ((r.adopt req.term).becomeFollower req.term (some l)).out = r.out := by
    rw [out_becomeFollower, out_adopt]
  generalize (r.adopt req.term).becomeFollower req.term (some l) = f at hsame hterm hout
  have hb := hsame.baseIndex
  have hc := hsame.commitIndex
  have hlast := hsame.lastIndex
  have hbc := hw.base_le_commit
  have hcl := hw.commit_le_last
  split
  · next hshort =>
    exact ⟨_, by rw [out_send, hout], hterm, hterm, hb, .short rfl (hlast ▸ hshort) hlast⟩
  next hprev =>
  split
  · next hdiff =>
    exact ⟨_, by rw [out_send, hout], hterm, hterm, hb,
      .differs rfl hdiff.1 (by omega) (hsame.termAt ▸ hdiff.2) rfl⟩
  have htook : ∀ g, Took f g req.entries → g.out = f.out → g.currentTerm = f.currentTerm →
      ∃ resp, ((g.commitThrough true (min req.leaderCommit
          (req.prevLogIndex + req.entries.length))).send l (.appendEntriesResp
            { term := (g.commitThrough true (min req.leaderCommit
                (req.prevLogIndex + req.entries.length))).currentTerm
              success := true
              matchIndex := req.prevLogIndex + req.entries.length })).out =
            r.out ++ [⟨l, .appendEntriesResp resp⟩] ∧ resp.term = req.term ∧
          (g.commitThrough true (min req.leaderCommit
            (req.prevLogIndex + req.entries.length))).currentTerm = req.term ∧
          (g.commitThrough true (min req.leaderCommit
            (req.prevLogIndex + req.entries.length))).baseIndex = r.baseIndex ∧
          AppendAnswer r ((g.commitThrough true (min req.leaderCommit
            (req.prevLogIndex + req.entries.length))).send l (.appendEntriesResp
              { term := (g.commitThrough true (min req.leaderCommit
                  (req.prevLogIndex + req.entries.length))).currentTerm
                success := true
                matchIndex := req.prevLogIndex + req.entries.length })) req resp := by
    intro g hg hgout hgterm
    obtain ⟨-, hcommit, hbase⟩ := hsame.spliced hbc hg
      (min req.leaderCommit (req.prevLogIndex + req.entries.length))
    have hgt : (g.commitThrough true (min req.leaderCommit
        (req.prevLogIndex + req.entries.length))).currentTerm = req.term := by
      obtain ⟨_, _, heq⟩ := commitThrough_frame g true
        (min req.leaderCommit (req.prevLogIndex + req.entries.length))
      rw [heq]
      exact hgterm.trans hterm
    exact ⟨{ term := _, success := true, matchIndex := _ },
      by rw [out_send, out_commitThrough, hgout, hout], hgt, hgt, hbase, .taken rfl rfl hcommit⟩
  rcases spliceEntries_cases req.entries req.prevLogIndex req.prevLogTerm (r := f)
    (by omega) (by omega) (by omega) hv with ⟨_, _, e, he, hec, hne⟩ | ⟨ha, hs⟩ |
      ⟨pre, e, post, heq, ha, hne, hci, hend, hs⟩
  · rw [hsame.termAt] at hne
    exact absurd (hagree e he (hc ▸ hec)) hne
  · rw [hs]
    exact htook f (.inl ⟨ha, rfl⟩) rfl rfl
  · rw [hs]
    exact htook _ (.inr ⟨pre, e, post, heq, ha, hne, hci, hend, rfl⟩) rfl rfl

/-- A snapshot with proper metadata is answered with success, installed or not. -/
theorem handleInstallSnapshot_answer {req : InstallSnapshotReq} (hle : r.currentTerm ≤ req.term)
    (hmeta : snapshotMetadataIsValid req = true) :
    (r.handleInstallSnapshot l req).out = r.out ++ [⟨l, .installSnapshotResp
        { term := req.term, success := true, lastIncludedIndex := req.lastIncludedIndex }⟩] ∧
      (r.handleInstallSnapshot l req).currentTerm = req.term ∧
      (r.handleInstallSnapshot l req).baseIndex ≤ max r.baseIndex req.lastIncludedIndex := by
  unfold handleInstallSnapshot
  simp only
  rw [if_neg (Nat.not_lt.mpr hle), show (if req.term > r.currentTerm then
    r.becomeFollower req.term none else r) = r.adopt req.term from rfl, hmeta, if_neg (by simp)]
  have hterm := currentTerm_adopt_becomeFollower hle (some l)
  have hbase := (bounds_adopt_becomeFollower hle (some l)).1
  have hout : ((r.adopt req.term).becomeFollower req.term (some l)).out = r.out := by
    rw [out_becomeFollower, out_adopt]
  generalize (r.adopt req.term).becomeFollower req.term (some l) = f at hterm hbase hout
  split
  · exact ⟨by rw [out_send, hout, hterm], hterm, hbase ▸ Nat.le_max_left _ _⟩
  · refine ⟨?_, hterm, Nat.le_max_right _ _⟩
    rw [out_send, ← hout, ← hterm]
    rfl

/-! ## The leader -/

/-- A leader of the same term with the same log; what it knows of its peers may have changed. -/
structure Steady (r r' : Raft) : Prop where
  id : r'.id = r.id
  peers : r'.peers = r.peers
  role : r'.role = r.role
  persisted : { r'.persistedSnapshot with commitIndex := r.commitIndex } = r.persistedSnapshot

namespace Steady

variable {r s t : Raft}

theorem refl (r : Raft) : Steady r r := ⟨rfl, rfl, rfl, rfl⟩

theorem trans (h : Steady r s) (h' : Steady s t) : Steady r t where
  id := h'.id.trans h.id
  peers := h'.peers.trans h.peers
  role := h'.role.trans h.role
  persisted := by
    rw [← h.persisted, ← h'.persisted]

theorem currentTerm (h : Steady r s) : s.currentTerm = r.currentTerm :=
  congrArg Persisted.currentTerm h.persisted

theorem log (h : Steady r s) : s.log = r.log := congrArg Persisted.log h.persisted

theorem baseIndex (h : Steady r s) : s.baseIndex = r.baseIndex :=
  congrArg Persisted.baseIndex h.persisted

theorem lastIndex (h : Steady r s) : s.lastIndex = r.lastIndex := by
  simp only [Raft.lastIndex, h.log, h.baseIndex]

theorem appendRequest (h : Steady r s) (next commit : Nat) :
    { s.appendRequest next with leaderCommit := commit } =
      { r.appendRequest next with leaderCommit := commit } := by
  have hslot : s.logSlot = r.logSlot := by
    funext i
    simp only [logSlot, h.lastIndex, h.baseIndex]
  have hbt : s.baseTerm = r.baseTerm := congrArg Persisted.baseTerm h.persisted
  have hat : s.termAt = r.termAt := by
    funext i
    simp only [termAt, hslot, h.baseIndex, hbt, h.log]
  simp only [Raft.appendRequest, h.id, h.currentTerm, h.log, hslot, hat]

end Steady

/-- What a leader does with an answer of `p` leaves its log, its office and what it knows of the
other peers alone. -/
structure Served (p : NodeId) (r r' : Raft) : Prop extends Steady r r' where
  next : ∀ q, q ≠ p → r'.nextIndex q = r.nextIndex q
  matched : ∀ q, q ≠ p → r'.matchIndex q = r.matchIndex q

namespace Served

variable {p : NodeId} {r s t : Raft}

theorem ready (h : Served p r s) : Served p r s.ready.2 :=
  ⟨⟨h.id, h.peers, h.role, h.persisted⟩, h.next, h.matched⟩

theorem trans (h : Served p r s) (h' : Served p s t) : Served p r t where
  toSteady := h.toSteady.trans h'.toSteady
  next := fun q hq => (h'.next q hq).trans (h.next q hq)
  matched := fun q hq => (h'.matched q hq).trans (h.matched q hq)

end Served

/-- The leader counts that `p` holds its log up to `n`, and tells everybody if this commits more. -/
structure Noted (p : NodeId) (n : Nat) (r r' : Raft) : Prop extends Served p r r' where
  matchIndex : r'.matchIndex p = some (max n ((r.matchIndex p).getD 0))
  nextIndex : r'.nextIndex p = some (saturatingAdd (max n ((r.matchIndex p).getD 0)) 1)
  announced : r'.commitIndex = r.commitIndex ∨
    ∀ q ∈ r'.peers, ∀ next, r'.nextIndex q = some next → r'.baseIndex < next →
      ⟨q, .appendEntries (r'.appendRequest next)⟩ ∈ r'.out

section

variable {p : NodeId}

theorem noted_recordMatch (r : Raft) (p : NodeId) (n : Nat) : Noted p n r (r.recordMatch p n) := by
  obtain ⟨hcore, hoffice, _⟩ := recordMatch_frame r p n
  obtain ⟨d, hadvance⟩ := core_maybeAdvanceCommit (r.noteMatch p n)
  rw [hadvance] at hcore
  have hmatch : (r.recordMatch p n).matchIndex =
      Function.update r.matchIndex p (some (max n ((r.matchIndex p).getD 0))) :=
    congrArg Core.matchIndex hcore
  have hnext : (r.recordMatch p n).nextIndex = Function.update r.nextIndex p
      (some (saturatingAdd (max n ((r.matchIndex p).getD 0)) 1)) :=
    congrArg Office.nextIndex hoffice
  refine ⟨⟨⟨congrArg Core.id hcore, congrArg Core.peers hcore, congrArg Core.role hcore, ?_⟩,
    fun q hq => ?_, fun q hq => ?_⟩, ?_, ?_, ?_⟩
  · rw [persistedSnapshot_congr (h := { r.noteMatch p n with
      commitIndex := (r.noteMatch p n).newCommit
      dirty := d }) hcore]
    rfl
  · rw [hnext, Function.update_of_ne hq]
  · rw [hmatch, Function.update_of_ne hq]
  · rw [hmatch, Function.update_self]
  · rw [hnext, Function.update_self]
  · have heq : r.recordMatch p n = if (r.noteMatch p n).maybeAdvanceCommit.1 then
        (r.noteMatch p n).maybeAdvanceCommit.2.broadcastAppend
      else (r.noteMatch p n).maybeAdvanceCommit.2 := rfl
    by_cases hadv : (r.noteMatch p n).newCommit > (r.noteMatch p n).commitIndex
    · right
      have hgo : r.recordMatch p n = (r.noteMatch p n).maybeAdvanceCommit.2.broadcastAppend := by
        rw [heq, maybeAdvanceCommit, if_pos hadv]
        rfl
      intro q hq next hn hb
      rw [hgo] at hq hn hb ⊢
      rw [appendRequest_congr (core_broadcastAppend _)]
      refine mem_broadcastAppend ?_ ?_ ?_
      · rwa [show ∀ g : Raft, g.broadcastAppend.peers = g.peers from
          fun g => congrArg Core.peers (core_broadcastAppend g)] at hq
      · rwa [show ∀ g : Raft, g.broadcastAppend.nextIndex = g.nextIndex from
          fun g => congrArg Office.nextIndex (office_broadcastAppend g)] at hn
      · rwa [show ∀ g : Raft, g.broadcastAppend.baseIndex = g.baseIndex from
          fun g => congrArg Core.baseIndex (core_broadcastAppend g)] at hb
    · left
      rw [heq, maybeAdvanceCommit, if_neg hadv]
      rfl

/-- An acknowledgement of the current term is counted. -/
theorem noted_append (hl : r.role = .leader) {resp : AppendEntriesResp}
    (hterm : resp.term = r.currentTerm) (hs : resp.success = true) :
    Noted p (min resp.matchIndex r.lastIndex) r (r.handleAppendResp p resp) := by
  unfold handleAppendResp
  rw [if_neg (by omega), if_neg (by simp [hl, hterm])]
  simp only [hs, if_true]
  obtain ⟨⟨⟨hid, hpeers, hrole, hper⟩, hnext, hmatch⟩, hm, hn, ha⟩ := noted_recordMatch
    { r with ackedSinceCheck := insert p r.ackedSinceCheck } p (min resp.matchIndex r.lastIndex)
  exact ⟨⟨⟨hid, hpeers, hrole, hper⟩, hnext, hmatch⟩, hm, hn, ha⟩

/-- So is the answer to a snapshot, up to what was shipped. -/
theorem noted_snapshot (hl : r.role = .leader) {resp : InstallSnapshotResp}
    (hterm : resp.term = r.currentTerm) (hs : resp.success = true) {shipped : Nat}
    (hsent : r.snapshotInflight p = some shipped) :
    Noted p (min resp.lastIncludedIndex shipped) r (r.handleInstallSnapshotResp p resp) := by
  unfold handleInstallSnapshotResp
  rw [if_neg (by omega), if_neg (by simp [hl, hterm])]
  simp only [hs, if_true, hsent, Option.getD_some]
  obtain ⟨⟨⟨hid, hpeers, hrole, hper⟩, hnext, hmatch⟩, hm, hn, ha⟩ := noted_recordMatch
    { r with
      ackedSinceCheck := insert p r.ackedSinceCheck
      snapshotInflight := Function.update r.snapshotInflight p none } p
    (min resp.lastIncludedIndex shipped)
  exact ⟨⟨⟨hid, hpeers, hrole, hper⟩, hnext, hmatch⟩, hm, hn, ha⟩

/-- A message that brings `p` up to date from `next` on: the rest of the log, or the snapshot. -/
inductive Offers (r : Raft) (p : NodeId) (next : Nat) : RaftMessage → Prop
  | append (commit : Nat) : r.baseIndex < next →
      Offers r p next (.appendEntries { r.appendRequest next with leaderCommit := commit })
  | snapshot (data : Bytes) : next ≤ r.baseIndex → r.snapshotInflight p = some r.baseIndex →
      r.snapshot = some data → Offers r p next (.installSnapshot (r.snapshotRequest data))

/-- An append reaches to the end of the log. -/
theorem length_appendRequest {next : Nat} (hb : r.baseIndex < next) (hn : next ≤ r.lastIndex + 1) :
    next - 1 + (r.appendRequest next).entries.length = r.lastIndex := by
  have hlen : r.lastIndex = r.baseIndex + r.log.length := rfl
  rcases Nat.lt_or_ge r.lastIndex next with hgt | hle
  · rw [appendRequest, logSlot_eq_none (Or.inr hgt)]
    simp only [List.length_nil]
    omega
  · rw [appendRequest, logSlot_eq_some hb hle]
    simp only [List.length_drop]
    omega

theorem Ranged.request_contiguous (h : r.Ranged) {next : Nat} (hb : r.baseIndex < next)
    (hn : next ≤ r.lastIndex + 1) (commit : Nat) :
    entriesAreContiguous { r.appendRequest next with leaderCommit := commit } = true := by
  have hpasses : entriesAreContiguous (r.appendRequest next) = true := h.append_passes hb hn
  obtain ⟨hterm, hprev, hv⟩ := logValid_of_contiguous hpasses
  refine contiguous_of_logValid hterm hprev hv ?_
  exact (length_appendRequest hb hn).le.trans h.ceil

theorem Offers.ready {next : Nat} {msg : RaftMessage} (h : Offers r p next msg) :
    Offers r.ready.2 p next msg := by
  cases h with
  | append commit hb => exact .append commit hb
  | snapshot data hb hs hd => exact .snapshot data hb hs hd

/-- A leader takes a proposal and offers it to everybody it is in step with. -/
theorem propose_offers (hl : r.role = .leader) (c : Command) :
    (r.propose c).1 = .ok (r.lastIndex + 1) ∧ (r.propose c).2.nextIndex = r.nextIndex ∧
      (r.propose c).2.matchIndex = r.matchIndex ∧
      ∀ q ∈ r.peers, ∀ next, r.nextIndex q = some next → r.baseIndex < next →
        ⟨q, .appendEntries ((r.propose c).2.appendRequest next)⟩ ∈ (r.propose c).2.out := by
  obtain ⟨d, hcore⟩ := core_maybeAdvanceCommit (r.pushEntry (some c))
  have hoffice := office_maybeAdvanceCommit (r.pushEntry (some c))
  have heq : r.propose c =
      (.ok (r.lastIndex + 1), (r.pushEntry (some c)).maybeAdvanceCommit.2.broadcastAppend) :=
    if_neg (by simp [hl])
  rw [heq]
  generalize (r.pushEntry (some c)).maybeAdvanceCommit.2 = g at hcore hoffice
  have hnext : g.nextIndex = r.nextIndex := congrArg Office.nextIndex hoffice
  refine ⟨rfl, (congrArg Office.nextIndex (office_broadcastAppend g)).trans hnext,
    (congrArg Core.matchIndex (core_broadcastAppend g)).trans (congrArg Core.matchIndex hcore),
    fun q hq next hn hb => ?_⟩
  rw [appendRequest_congr (core_broadcastAppend g)]
  refine mem_broadcastAppend ?_ (hnext ▸ hn) ?_
  · rwa [show g.peers = r.peers from congrArg Core.peers hcore]
  · rwa [show g.baseIndex = r.baseIndex from congrArg Core.baseIndex hcore]

/-- After a refusal the leader goes back and tries again. -/
theorem served_refused (hw : r.WellFormed) (hl : r.role = .leader) {resp : AppendEntriesResp}
    (hterm : resp.term = r.currentTerm) (hs : resp.success = false) {next : Nat}
    (hn : r.nextIndex p = some next) (hlt : r.rewound p resp.matchIndex < next) :
    Served p r (r.handleAppendResp p resp) ∧
      (r.handleAppendResp p resp).nextIndex p = some (r.rewound p resp.matchIndex) ∧
      ∃ msg, Offers (r.handleAppendResp p resp) p (r.rewound p resp.matchIndex) msg ∧
        ⟨p, msg⟩ ∈ (r.handleAppendResp p resp).out := by
  have hrew : r.rewound p resp.matchIndex =
      min (max (saturatingAdd resp.matchIndex 1) 1) (max (next - 1) 1) := by
    simp only [rewound, hn, Option.getD_some] at hlt ⊢
    omega
  unfold handleAppendResp
  rw [if_neg (by omega), if_neg (by simp [hl, hterm])]
  simp only [hs, Bool.false_eq_true, if_false, hn, Option.getD_some]
  rw [← hrew, if_pos hlt]
  generalize hg : ({ r with
    ackedSinceCheck := insert p r.ackedSinceCheck
    nextIndex := Function.update r.nextIndex p (some (r.rewound p resp.matchIndex)) } : Raft) = g
  have hgcore : g.core = r.core := by
    rw [← hg]
    rfl
  have hgnext : g.nextIndex = Function.update r.nextIndex p (some (r.rewound p resp.matchIndex)) := by
    rw [← hg]
  have hcore := (core_sendAppend g p).trans hgcore
  have hnext : (g.sendAppend p).nextIndex = g.nextIndex :=
    congrArg Office.nextIndex (office_sendAppend g p)
  refine ⟨⟨⟨congrArg Core.id hcore, congrArg Core.peers hcore, congrArg Core.role hcore, ?_⟩,
    fun q hq => ?_, fun q _ => congrFun (congrArg Core.matchIndex hcore) q⟩, ?_, ?_⟩
  · rw [persistedSnapshot_congr hcore]
    rfl
  · rw [hnext, hgnext, Function.update_of_ne hq]
  · rw [hnext, hgnext, Function.update_self]
  have hself : g.nextIndex p = some (r.rewound p resp.matchIndex) := by
    rw [hgnext, Function.update_self]
  by_cases hb : g.baseIndex < r.rewound p resp.matchIndex
  · refine ⟨_, .append g.commitIndex ?_, ?_⟩
    · rwa [show (g.sendAppend p).baseIndex = g.baseIndex from
        congrArg Core.baseIndex (core_sendAppend g p)]
    · rw [appendRequest_congr (core_sendAppend g p), sendAppend_append hself hb]
      exact List.mem_append_right _ (List.mem_singleton.mpr rfl)
  · have hbase : g.baseIndex = r.baseIndex := congrArg Core.baseIndex hgcore
    have hsnap : g.snapshot ≠ none := by
      rw [show g.snapshot = r.snapshot from congrArg Core.snapshot hgcore]
      refine hw.snapshot.mpr ?_
      have hpos : 0 < r.rewound p resp.matchIndex := by omega
      show 0 < r.baseIndex
      omega
    obtain ⟨data, hd⟩ := Option.ne_none_iff_exists'.mp hsnap
    rw [sendAppend_snapshot hself (Nat.not_lt.mp hb) hd]
    exact ⟨_, .snapshot data (Nat.not_lt.mp hb) (Function.update_self ..) hd,
      List.mem_append_right _ (List.mem_singleton.mpr rfl)⟩

theorem card_lt_replicaCount {A : Finset NodeId} {i : Nat}
    (h : ∀ q ∈ A, q ∈ r.peers ∧ i ≤ (r.matchIndex q).getD 0) : A.card < r.replicaCount i := by
  have hsub : A ⊆ (r.peers.filter fun q => decide ((r.matchIndex q).getD 0 ≥ i)).toFinset := by
    intro q hq
    obtain ⟨hp, hi⟩ := h q hq
    simpa using ⟨hp, hi⟩
  have hcard := (Finset.card_le_card hsub).trans (List.toFinset_card_le _)
  rw [replicaCount, List.countP_eq_length_filter]
  omega

end

end FiduciaBrain.Raft
