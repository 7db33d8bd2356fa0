import FiduciaBrain.Group.Moves

/-!
# Replication moves

Taking over a leader's log, by entries or by snapshot, is one `accept` step; what the member learns
of the commit point with it is one `commitTo` step. A leader's own commit is a `commitTo` step over
the quorum that its bookkeeping counts.
-/

namespace FiduciaBrain.Group

open Infra TermLog Raft

variable {G : Group} {a : Ledger} {n : NodeId} {r r' : Raft} {out : List Addressed}

/-! ## The two steps -/

/-- Learning that the log is committed up to `m`. -/
theorem Mirrors.commitTo {c : Core} (ha : Inv G.quorums a) (h : G.Mirrors a n c out) {m : Nat}
    (hm : c.commitIndex ≤ m) (hlen : m ≤ (a.log n).length)
    (hc : Committed G.quorums a c.currentTerm ((a.log n).take m)) (d : Bool) :
    ∃ b, TermLog.Step G.quorums a b ∧ Only n a b ∧ b.acked = a.acked ∧
      G.Mirrors b n { c with commitIndex := m, dirty := d } out := by
  have hs : TermLog.Step G.quorums a (a.commitTo n m) := by
    refine .commitTo a n m ?_ hlen ?_
    · rw [h.commit]
      exact hm
    · rw [h.term]
      exact hc
  have hg := hs.grows ha
  refine ⟨_, hs, ⟨hg, fun _ _ => rfl, fun _ _ => rfl, ?_, fun _ _ _ => rfl, fun _ _ _ h => h⟩,
    rfl, ?_⟩
  · intro k hk
    simp [State.commitTo, hk]
  · exact { h with
      commit := by simp [State.commitTo]
      backed := fun m hm => (h.backed m hm).mono hg }

/-- Taking over the part `p` of the current leader log. `log` and the base are what the engine is
left with. -/
theorem Mirrors.accept {c : Core} (ha : Inv G.quorums a) (h : G.Mirrors a n c out)
    (hrole : c.role = .follower) {p : List LogEntry} (hp : p <+: a.llog c.currentTerm) {d : Core}
    (hc : d = { c with
      log := d.log
      baseIndex := d.baseIndex
      baseTerm := d.baseTerm
      snapshot := d.snapshot
      lastApplied := d.lastApplied
      pendingRestore := d.pendingRestore
      dirty := d.dirty })
    (hbase : c.baseIndex ≤ d.baseIndex) (hlen : (splice (a.log n) p).length = d.lastIndex)
    (hlive : (splice (a.log n) p).drop d.baseIndex = d.log)
    (hterm : lastTerm ((splice (a.log n) p).take d.baseIndex) = d.baseTerm) :
    ∃ b, TermLog.Step G.quorums a b ∧ Only n a b ∧ b.log n = splice (a.log n) p ∧
      p.length ≤ b.acked n c.currentTerm ∧ G.Mirrors b n d out := by
  have hat : a.term n = c.currentTerm := h.term
  have hs : TermLog.Step G.quorums a (a.accept n p) := .accept a n p (by rw [hat]; exact hp)
  have hg := hs.grows ha
  have hlog : (a.accept n p).log n = splice (a.log n) p := by simp [State.accept]
  refine ⟨_, hs, ⟨hg, fun _ _ => rfl, ?_, fun _ _ => rfl, fun _ _ _ => rfl, fun _ _ _ h => h⟩,
    hlog, ?_, ?_⟩
  · intro k hk
    simp [State.accept, hk]
  · rw [← hat, acked_accept_self]
    exact Nat.le_max_right _ _
  · rw [hc] at hlen hlive hterm hbase ⊢
    exact { h with
      length := by rw [hlog]; exact hlen
      live := by rw [hlog]; exact hlive
      base := by rw [hlog]; exact hterm
      candidate := fun hr => absurd (hrole.symm.trans hr) (by decide)
      leader := fun hr => absurd (hrole.symm.trans hr) (by decide)
      backed := fun m hm => (h.backed m hm).mono hg
      outBase := fun m hm req heq => (h.outBase m hm req heq).trans hbase }

/-! ## Entries from a leader -/

/-- A run of entries that is part of a leader log, from `prev` on. -/
structure Slice (L : List LogEntry) (prev : Nat) (entries : List LogEntry) : Prop where
  prev_le : prev ≤ L.length
  prefix_drop : entries <+: L.drop prev

namespace Slice

variable {L : List LogEntry} {prev : Nat} {entries : List LogEntry}

theorem length_le (h : Slice L prev entries) : prev + entries.length ≤ L.length := by
  have h1 := h.prefix_drop.length_le
  have h2 := h.prev_le
  rw [List.length_drop] at h1
  omega

theorem take_eq (h : Slice L prev entries) :
    L.take (prev + entries.length) = L.take prev ++ entries := by
  rw [List.take_add, List.prefix_iff_eq_take.mp h.prefix_drop]
  simp

theorem of_append {pre post : List LogEntry} (h : Slice L prev (pre ++ post)) : Slice L prev pre :=
  ⟨h.prev_le, (List.prefix_append pre post).trans h.prefix_drop⟩

end Slice

/-- **The consistency check.** A run of a leader log whose entries the member agrees with, up to
terms, is part of the member's log. -/
theorem Mirrors.agrees_take (ha : Inv G.quorums a) (h : G.Mirrors a n r.core out) {t prev : Nat}
    {pre : List LogEntry} {maxTerm : Nat} (hs : Slice (a.llog t) prev pre)
    (hv : LogValid maxTerm prev (lastTerm ((a.llog t).take prev)) pre)
    (hprev : prev ≤ r.lastIndex) (hzero : prev = 0 ↔ lastTerm ((a.llog t).take prev) = 0)
    (hmatch : 0 < prev → r.termAt prev = lastTerm ((a.llog t).take prev))
    (hagree : r.Agrees pre) :
    (a.llog t).take (prev + pre.length) <+: a.log n := by
  have hholds : r.Holds (a.log n) := h.holds
  have hlen : (a.log n).length = r.lastIndex := h.length
  -- reading a non-zero term of the leader log at `i` means the logs agree up to `i`
  have key : ∀ i, i ≤ r.lastIndex → i ≤ (a.llog t).length → lastTerm ((a.llog t).take i) ≠ 0 →
      r.termAt i = lastTerm ((a.llog t).take i) → (a.llog t).take i <+: a.log n := by
    intro i hil hiL hne hat
    have hbase : r.baseIndex ≤ i := by
      by_contra hlt
      rw [termAt_of_lt (Nat.lt_of_not_le hlt)] at hat
      exact hne hat.symm
    rw [hholds.termAt hbase (hlen ▸ hil)] at hat
    rw [← (ha.log_coh n).take_eq (ha.llog_coh t) (hlen ▸ hil) hiL hat]
    exact List.take_prefix i _
  cases hq : pre using List.reverseRecOn with
  | nil =>
    by_cases h0 : prev = 0
    · simp [h0]
    · exact key prev hprev hs.prev_le (mt hzero.mpr h0) (hmatch (Nat.pos_of_ne_zero h0))
  | append_singleton q x =>
    subst hq
    obtain ⟨_, hx, hne, _⟩ := LogValid.append.mp hv
    obtain ⟨hxl, hxt⟩ := hagree x (by simp)
    have hidx : prev + (q ++ [x]).length = x.index := by
      rw [hx, List.length_append, List.length_singleton]
      omega
    have hlast : lastTerm ((a.llog t).take (prev + (q ++ [x]).length)) = x.term := by
      rw [hs.take_eq, ← List.append_assoc, lastTerm_append_singleton]
      rfl
    have hle := hs.length_le
    rw [hidx] at hlast hle ⊢
    exact key x.index hxl hle (hlast ▸ hne) (hxt.trans hlast.symm)

/-- **Taking a run of entries over is taking the leader log over.** -/
theorem Mirrors.splice_took (ha : Inv G.quorums a) (hw : r.WellFormed)
    (h : G.Mirrors a n r.core out) {t prev : Nat} {g : Raft} {entries : List LogEntry}
    {maxTerm : Nat} (hs : Slice (a.llog t) prev entries)
    (hv : LogValid maxTerm prev (lastTerm ((a.llog t).take prev)) entries)
    (hprev : prev ≤ r.lastIndex) (hzero : prev = 0 ↔ lastTerm ((a.llog t).take prev) = 0)
    (hmatch : 0 < prev → r.termAt prev = lastTerm ((a.llog t).take prev))
    (htook : Took r g entries) {l : List LogEntry}
    (hl : l = splice (a.log n) ((a.llog t).take (prev + entries.length))) :
    l.length = r.baseIndex + g.log.length ∧ l.drop r.baseIndex = g.log ∧
      lastTerm (l.take r.baseIndex) = r.baseTerm := by
  have hholds : r.Holds (a.log n) := h.holds
  have hlen : (a.log n).length = r.lastIndex := h.length
  rcases htook with ⟨hagree, rfl⟩ | ⟨pre, e, post, rfl, hagree, hne, hci, hend, rfl⟩
  · rw [splice_eq_left (h.agrees_take ha hs hv hprev hzero hmatch hagree)] at hl
    subst hl
    exact ⟨h.length, h.live, h.base⟩
  · have hpre := h.agrees_take ha hs.of_append (LogValid.append.mp hv).1 hprev hzero hmatch hagree
    obtain ⟨_, hidx, _⟩ := LogValid.append.mp hv
    have hbase := hw.base_le_commit
    have hlenpre : ((a.llog t).take (prev + pre.length)).length = prev + pre.length :=
      List.length_take_of_le hs.of_append.length_le
    have hcommon : (a.llog t).take (prev + pre.length) = (a.log n).take (prev + pre.length) := by
      rw [List.prefix_iff_eq_take.mp hpre, hlenpre]
    have hwhole : (a.llog t).take (prev + (pre ++ e :: post).length) =
        (a.log n).take (prev + pre.length) ++ e :: post := by
      rw [hs.take_eq, ← hcommon, hs.of_append.take_eq, List.append_assoc]
    have hcut : ((a.log n).take (prev + pre.length)).length = prev + pre.length := by
      rw [← hcommon, hlenpre]
    -- the first entry that is not there shows that the leader's part is not there either
    have hnot : ¬ (a.llog t).take (prev + (pre ++ e :: post).length) <+: a.log n := by
      intro hin
      rw [hwhole] at hin
      have hup : (a.log n).take (prev + pre.length) ++ [e] <+: a.log n :=
        List.IsPrefix.trans ⟨post, by simp⟩ hin
      have hlenup : ((a.log n).take (prev + pre.length) ++ [e]).length = e.index := by
        rw [List.length_append, hcut, hidx]
        rfl
      have hle := hup.length_le
      rw [hlenup] at hle
      refine hne ⟨hlen ▸ hle, ?_⟩
      rw [hholds.termAt (by omega) hle, ← hlenup, ← List.prefix_iff_eq_take.mp hup,
        lastTerm_append_singleton]
      rfl
    rw [splice_eq_right hnot, hwhole] at hl
    have hslot : e.index - r.baseIndex - 1 = prev + pre.length - r.baseIndex := by omega
    subst hl
    refine ⟨?_, ?_, ?_⟩
    · simp only [replaceFrom, List.length_append, hcut, hslot, ← hholds.live, ← List.drop_take,
        List.length_drop]
      omega
    · rw [List.drop_append_of_le_length (by omega), List.drop_take, hholds.live, replaceFrom, hslot]
    · rw [List.take_append_of_le_length (by omega), List.take_take, Nat.min_eq_left (by omega)]
      exact h.base

theorem answers_append (ha : Inv G.quorums a) (hw : r.WellFormed)
    (h : G.Mirrors a n r.core r.out) {l : NodeId} {req : AppendEntriesReq} {g : Raft}
    (hb : G.Backed a l n (.appendEntries req)) (hrole : r.role = .follower)
    (hterm : req.term = r.currentTerm) (hcont : entriesAreContiguous req = true)
    (hprev : req.prevLogIndex ≤ r.lastIndex)
    (hmatch : 0 < req.prevLogIndex → r.termAt req.prevLogIndex = req.prevLogTerm)
    (htook : Took r g req.entries)
    (hc : r'.core = (g.commitThrough true
      (min req.leaderCommit (req.prevLogIndex + req.entries.length))).core)
    (ho : r'.out = r.out ++ [⟨l, .appendEntriesResp
      { term := r.currentTerm
        success := true
        matchIndex := req.prevLogIndex + req.entries.length }⟩]) : Answers G a n r' := by
  obtain ⟨_, hL, hpt, hent, hcl, hcommit⟩ := hb hcont
  obtain ⟨_, hzero, hv⟩ := logValid_of_contiguous hcont
  rw [hpt] at hzero hv hmatch
  have hs : Slice (a.llog req.term) req.prevLogIndex req.entries := ⟨hL, hent⟩
  obtain ⟨hlen, hlive, hbase⟩ := h.splice_took ha hw hs hv hprev hzero hmatch htook rfl
  obtain ⟨hwlog, hend, hcommitg⟩ := hw.log_took hcont hterm hprev (hpt ▸ hmatch) htook
  obtain ⟨d, hcore⟩ := core_took htook
    (min req.leaderCommit (req.prevLogIndex + req.entries.length))
  have hlenR : ((a.llog req.term).take (req.prevLogIndex + req.entries.length)).length =
      req.prevLogIndex + req.entries.length := List.length_take_of_le hs.length_le
  obtain ⟨b, hs1, ho1, hlog, hack, hm1⟩ := h.accept ha hrole
    (p := (a.llog req.term).take (req.prevLogIndex + req.entries.length))
    (d := { r.core with log := g.log, dirty := d })
    (by rw [hterm]; exact List.take_prefix _ _) rfl (Nat.le_refl _) hlen hlive hbase
  have hb' := hs1.inv ha
  -- what the request proves committed is what the log now holds
  have hR : (a.llog req.term).take (req.prevLogIndex + req.entries.length) <+: b.log n := by
    rw [hlog]
    exact prefix_splice _ _
  have hcomm : Committed G.quorums b r.currentTerm ((b.log n).take
      (max r.commitIndex (min req.leaderCommit (req.prevLogIndex + req.entries.length)))) := by
    rcases Nat.le_total (min req.leaderCommit (req.prevLogIndex + req.entries.length))
      r.commitIndex with hle | hle
    · rw [Nat.max_eq_left hle]
      have := hb'.committed n
      rw [hm1.term, hm1.commit] at this
      exact this
    · rw [Nat.max_eq_right hle, take_eq_of_le hR (by rw [hlenR]; exact Nat.min_le_right _ _),
        List.take_take, Nat.min_eq_left (Nat.min_le_right _ _), ← hterm]
      exact (ho1.grows.committed hcommit (Nat.le_refl _)).restrict
        (List.take_prefix_take_left (Nat.min_le_left _ _))
  obtain ⟨e, hs2, ho2, hacked, hm2⟩ := hm1.commitTo hb' (Nat.le_max_left _ _) (by
    rw [hlog, hlen]
    exact Nat.max_le.mpr ⟨hcommitg, (Nat.min_le_right _ _).trans hend⟩) hcomm d
  refine ⟨e, (TransitionSystem.Steps.single hs1).tail hs2, ho1.trans ho2, ?_⟩
  rw [hc, hcore, ho]
  refine hm2.say (fun _ => ?_) (by simp)
  rw [hacked]
  exact hlenR ▸ hack

/-! ## Snapshots from a leader -/

theorem answers_covered (ha : Inv G.quorums a) (hw : r.WellFormed)
    (h : G.Mirrors a n r.core r.out) {l : NodeId} {req : InstallSnapshotReq}
    (hb : G.Backed a l n (.installSnapshot req)) (hrole : r.role = .follower)
    (hterm : req.term = r.currentTerm)
    (hcov : req.lastIncludedIndex ≤ r.baseIndex ∨ req.lastIncludedIndex ≤ r.commitIndex)
    (hc : r'.core = r.core)
    (ho : r'.out = r.out ++ [⟨l, .installSnapshotResp
      { term := r.currentTerm
        success := true
        lastIncludedIndex := req.lastIncludedIndex }⟩]) : Answers G a n r' := by
  obtain ⟨_, hidx, _, hcommit⟩ := hb
  have hle : req.lastIncludedIndex ≤ r.commitIndex :=
    hcov.elim (fun hle => hle.trans hw.base_le_commit) id
  have hlenR : ((a.llog req.term).take req.lastIncludedIndex).length = req.lastIncludedIndex :=
    List.length_take_of_le hidx
  -- a snapshot of what is committed here anyway: nothing is taken over, but it is confirmed
  have hin : (a.llog req.term).take req.lastIncludedIndex <+: a.log n := by
    refine (ha.committed_le hcommit (h.committed ha (Nat.le_refl _)) ?_).trans
      (List.take_prefix r.commitIndex _)
    rw [hlenR, List.length_take_of_le (h.commit_le_length hw)]
    exact hle
  obtain ⟨b, hs1, ho1, _, hack, hm1⟩ := h.accept ha hrole
    (p := (a.llog req.term).take req.lastIncludedIndex) (d := r.core)
    (by rw [hterm]; exact List.take_prefix _ _) rfl (Nat.le_refl _)
    (by rw [splice_eq_left hin]; exact h.length) (by rw [splice_eq_left hin]; exact h.live)
    (by rw [splice_eq_left hin]; exact h.base)
  refine .step hs1 ho1 ?_
  rw [hc, ho]
  exact hm1.say (fun _ => hlenR ▸ hack) (by simp)

theorem answers_install (ha : Inv G.quorums a)
    (h : G.Mirrors a n r.core r.out) {l : NodeId} {req : InstallSnapshotReq}
    (hb : G.Backed a l n (.installSnapshot req)) (hrole : r.role = .follower)
    (hterm : req.term = r.currentTerm) (hbase : r.baseIndex < req.lastIncludedIndex)
    (hnew : r.commitIndex < req.lastIncludedIndex)
    (hc : r'.core = (r.installSnapshot req).core)
    (ho : r'.out = r.out ++ [⟨l, .installSnapshotResp
      { term := r.currentTerm
        success := true
        lastIncludedIndex := req.lastIncludedIndex }⟩]) : Answers G a n r' := by
  obtain ⟨_, hidx, hlit, hcommit⟩ := hb
  have hholds : r.Holds (a.log n) := h.holds
  have hlen : (a.log n).length = r.lastIndex := h.length
  have hlenR : ((a.llog req.term).take req.lastIncludedIndex).length = req.lastIncludedIndex :=
    List.length_take_of_le hidx
  -- the suffix is kept exactly when the log already holds the snapshot's history
  have hlog : (splice (a.log n) ((a.llog req.term).take req.lastIncludedIndex)).length =
        req.lastIncludedIndex + (r.installSnapshot req).log.length ∧
      (splice (a.log n) ((a.llog req.term).take req.lastIncludedIndex)).drop
        req.lastIncludedIndex = (r.installSnapshot req).log := by
    unfold installSnapshot
    simp only
    split
    · next hkeep =>
      obtain ⟨hat, hle⟩ := hkeep
      rw [hholds.termAt hbase.le (hlen ▸ hle), hlit] at hat
      have heq := (ha.log_coh n).take_eq (ha.llog_coh req.term) (hlen ▸ hle) hidx hat
      rw [← heq, splice_eq_left (List.take_prefix _ _), ← hholds.live, List.drop_drop,
        Nat.add_sub_cancel' hbase.le, List.length_drop]
      exact ⟨by omega, rfl⟩
    · next hdrop =>
      have hnot : ¬ (a.llog req.term).take req.lastIncludedIndex <+: a.log n := by
        intro hin
        have hle := hin.length_le
        rw [hlenR] at hle
        refine hdrop ⟨?_, hlen ▸ hle⟩
        rw [hholds.termAt hbase.le hle, hlit, take_eq_of_le hin hlenR.ge, List.take_take,
          Nat.min_self]
      rw [splice_eq_right hnot]
      exact ⟨by simpa using hidx, List.drop_of_length_le hlenR.le⟩
  have hR := prefix_splice (a.log n) ((a.llog req.term).take req.lastIncludedIndex)
  have htake : (splice (a.log n) ((a.llog req.term).take req.lastIncludedIndex)).take
      req.lastIncludedIndex = (a.llog req.term).take req.lastIncludedIndex := by
    rw [take_eq_of_le hR hlenR.ge, List.take_take, Nat.min_self]
  obtain ⟨b, hs1, ho1, hblog, hack, hm1⟩ := h.accept ha hrole
    (p := (a.llog req.term).take req.lastIncludedIndex)
    (d := { (r.installSnapshot req).core with commitIndex := r.commitIndex })
    (by rw [hterm]; exact List.take_prefix _ _) rfl hbase.le hlog.1 hlog.2
    (by rw [show Core.baseIndex _ = req.lastIncludedIndex from rfl, htake]; exact hlit.symm)
  obtain ⟨e, hs2, ho2, hacked, hm2⟩ := hm1.commitTo (hs1.inv ha)
    (m := max r.commitIndex req.lastIncludedIndex) (Nat.le_max_left _ _)
    (by rw [hblog, Nat.max_eq_right hnew.le, hlog.1]; exact Nat.le_add_right _ _)
    (by
      rw [hblog, Nat.max_eq_right hnew.le, htake]
      exact ho1.grows.committed hcommit hterm.le) true
  refine ⟨e, (TransitionSystem.Steps.single hs1).tail hs2, ho1.trans ho2, ?_⟩
  rw [hc, ho]
  refine hm2.say (fun _ => ?_) (by simp)
  rw [hacked]
  exact hlenR ▸ hack

/-! ## The leader's bookkeeping -/

theorem answers_matched (h : G.Mirrors a n r.core r.out) {p : NodeId} {msg : RaftMessage} {m : Nat}
    (hb : G.Backed a p n msg) (hrole : r.role = .leader)
    (hack : Acknowledges r.currentTerm m msg)
    (hc : r'.core = { r.core with
      matchIndex := Function.update r.matchIndex p (some (max m ((r.matchIndex p).getD 0))) })
    (ho : r'.out = r.out) : Answers G a n r' := by
  obtain ⟨hlead, hmatch⟩ := h.leader hrole
  have hm : m ≤ a.acked p r.currentTerm := by
    cases hack with
    | append hs ht hle => exact hle.trans (ht ▸ hb hs)
    | snapshot hs ht hle => exact hle.trans (ht ▸ hb hs)
  refine .stay ?_
  rw [hc, ho]
  refine { h with leader := fun _ => ⟨hlead, fun q hq => ?_⟩ }
  by_cases hqp : q = p
  · subst hqp
    simp only [Function.update_self, Option.getD_some]
    exact Nat.max_le.mpr ⟨hm, hmatch q hq⟩
  · simp only [Function.update_of_ne hqp]
    exact hmatch q hq

/-- The members that the leader counts for index `m`. -/
theorem quorum_of_replicaCount (hn : n ∈ G.members) (hpeers : r.peers = G.peers n) {m : Nat}
    (hq : r.quorum ≤ r.replicaCount m) : G.quorums.IsQuorum
      (insert n (r.peers.filter fun p => decide ((r.matchIndex p).getD 0 ≥ m)).toFinset) := by
  have hperm := G.peers_perm n hn
  have hnodup : r.peers.Nodup := hpeers ▸ hperm.nodup_iff.mpr (G.nodup.erase n)
  have hlen := G.length_peers hn
  constructor
  · intro v hv
    rcases Finset.mem_insert.mp hv with rfl | hv
    · exact List.mem_toFinset.mpr hn
    · have := (List.mem_filter.mp (List.mem_toFinset.mp hv)).1
      rw [hpeers] at this
      exact List.mem_toFinset.mpr ((G.mem_peers hn).mp this).2
  · have hself : n ∉ (r.peers.filter fun p => decide ((r.matchIndex p).getD 0 ≥ m)).toFinset := by
      intro hin
      have := (List.mem_filter.mp (List.mem_toFinset.mp hin)).1
      rw [hpeers] at this
      exact ((G.mem_peers hn).mp this).1 rfl
    rw [Finset.card_insert_of_notMem hself, List.toFinset_card_of_nodup (hnodup.filter _),
      ← List.countP_eq_length_filter]
    rw [quorum, replicaCount, hpeers] at hq
    rw [hpeers]
    omega

/-- What the leader counts for an entry of its own term is chosen. -/
theorem Mirrors.chosen_of_replicaCount (ha : Inv G.quorums a) (hn : n ∈ G.members)
    (h : G.Mirrors a n r.core out) {m : Nat} (hrole : r.role = .leader) (hpos : 0 < m)
    (hbase : r.baseIndex ≤ m) (hle : m ≤ r.lastIndex) (hterm : r.termAt m = r.currentTerm)
    (hq : r.quorum ≤ r.replicaCount m) :
    ∃ A, G.quorums.IsQuorum A ∧ (∀ v ∈ A, m ≤ a.acked v r.currentTerm) ∧
      Chosen G.quorums a r.currentTerm ((a.log n).take m) := by
  obtain ⟨hlead, hmatch⟩ : a.leader r.currentTerm = some n ∧ _ := h.leader hrole
  have hllog := h.llog_eq ha hrole
  have hlen : (a.log n).length = r.lastIndex := h.length
  have hall : ∀ v ∈ insert n (r.peers.filter fun p =>
      decide ((r.matchIndex p).getD 0 ≥ m)).toFinset, m ≤ a.acked v r.currentTerm := by
    intro v hv
    rcases Finset.mem_insert.mp hv with rfl | hv
    · rw [ha.leader_acked _ _ hlead, hllog, hlen]
      exact hle
    · obtain ⟨hp, hge⟩ := List.mem_filter.mp (List.mem_toFinset.mp hv)
      exact (of_decide_eq_true hge).trans (hmatch v hp)
  refine ⟨_, quorum_of_replicaCount hn h.peers hq, hall, ?_, ?_, _,
    quorum_of_replicaCount hn h.peers hq, fun v hv => ?_⟩
  · rw [hllog]
    exact List.take_prefix _ _
  · have hholds : r.Holds (a.log n) := h.holds
    rw [hholds.termAt hbase (hlen ▸ hle)] at hterm
    rw [← hterm]
    refine endsIn_lastTerm (List.ne_nil_of_length_pos ?_)
    rwa [List.length_take_of_le (hlen ▸ hle)]
  · rw [List.length_take_of_le (hlen ▸ hle)]
    exact hall v hv

theorem answers_advance (ha : Inv G.quorums a) (hn : n ∈ G.members) (hw : r.WellFormed)
    (h : G.Mirrors a n r.core r.out) {m : Nat} (hrole : r.role = .leader)
    (hlt : r.commitIndex < m) (hle : m ≤ r.lastIndex) (hterm : r.termAt m = r.currentTerm)
    (hq : r.quorum ≤ r.replicaCount m) :
    Answers G a n { r with commitIndex := m, dirty := true } := by
  have hlen : (a.log n).length = r.lastIndex := h.length
  obtain ⟨_, _, _, hchosen⟩ := h.chosen_of_replicaCount ha hn hrole (Nat.zero_lt_of_lt hlt)
    (hw.base_le_commit.trans hlt.le) hle hterm hq
  obtain ⟨b, hs, ho, _, hm⟩ := h.commitTo ha hlt.le (hlen ▸ hle)
    (Or.inr ⟨r.currentTerm, _, Nat.le_refl _, hchosen, List.prefix_rfl⟩) true
  exact .step hs ho hm

theorem answers_compact (hw : r.WellFormed) (h : G.Mirrors a n r.core r.out) {index : Nat}
    {snapshot : Bytes} (hbase : r.baseIndex < index) (hcommit : index ≤ r.commitIndex) :
    Answers G a n (r.compact index snapshot) := by
  have hholds : r.Holds (a.log n) := h.holds
  have hlen : (a.log n).length = r.lastIndex := h.length
  have hlast := hcommit.trans hw.commit_le_last
  have hl : r.lastIndex = r.baseIndex + r.log.length := rfl
  rw [Raft.compact, if_neg (by omega)]
  refine .stay { h with length := ?_, live := ?_, base := ?_, outBase := ?_ }
  · show (a.log n).length = index + (r.log.drop (index - r.baseIndex)).length
    rw [List.length_drop]
    omega
  · show (a.log n).drop index = r.log.drop (index - r.baseIndex)
    rw [← hholds.live, List.drop_drop, Nat.add_sub_cancel' hbase.le]
  · exact (hholds.termAt hbase.le (by omega)).symm
  · exact fun m hm req heq => (h.outBase m hm req heq).trans hbase.le

/-! ## Every move -/

/-- **Each move is answered by the protocol.** The message behind the move, if any, is backed. -/
theorem Move.answers {i : Input} (ha : Inv G.quorums a) (hn : n ∈ G.members) (hw : r.WellFormed)
    (h : G.Mirrors a n r.core r.out)
    (hi : ∀ src msg, i = .step src msg → src ∈ G.members ∧ G.Backed a src n msg)
    (hm : Move i r r') : Answers G a n r' := by
  cases hm with
  | quiet hc hout =>
    refine .stay ?_
    rw [hc]
    exact h.talk ha hw fun m hmem => (hout m hmem).imp_right fun hidle => hidle.congr hc
  | follow t hc ho => exact answers_follow ha h hc ho
  | poll _ heq => exact heq ▸ answers_poll h
  | stand _ heq => exact heq ▸ answers_stand ha hn h
  | tally v resp hin hg hrole heq =>
    obtain ⟨hv, hb⟩ := hi _ _ hin
    exact heq ▸ answers_tally h hv hb hg hrole
  | lead hrole hq heq => exact heq ▸ answers_lead ha hn hw h hrole hq
  | grant c req hin hreal hterm _ hfree hlog hc ho =>
    exact answers_grant ha h (hi _ _ hin).2 hreal hterm hfree hlog hc ho
  | append l req g hin hrole hterm hcont hprev hmatch htook hc ho =>
    exact answers_append ha hw h (hi _ _ hin).2 hrole hterm hcont hprev hmatch htook hc ho
  | covered l req hin hrole hterm _ hcov hc ho =>
    exact answers_covered ha hw h (hi _ _ hin).2 hrole hterm hcov hc ho
  | install l req hin hrole hterm _ hbase hcommit hc ho =>
    exact answers_install ha h (hi _ _ hin).2 hrole hterm hbase hcommit hc ho
  | matched p msg m hin hrole hack hc ho =>
    exact answers_matched h (hi _ _ hin).2 hrole hack hc ho
  | advance m hrole hlt hle hterm hq heq =>
    exact heq ▸ answers_advance ha hn hw h hrole hlt hle hterm hq
  | push c _ hrole heq => exact heq ▸ answers_push ha h hrole (some c)
  | compact index snapshot _ hbase hcommit heq => exact heq ▸ answers_compact hw h hbase hcommit

/-- **A call is answered by the protocol.** -/
theorem run_answers {i : Input} (ha : G.protocol.Reachable a) (hn : n ∈ G.members)
    (hw : r.WellFormed) (had : r.Admissible i) (h : G.Mirrors a n r.core r.out)
    (hi : ∀ src msg, i = .step src msg → src ∈ G.members ∧ G.Backed a src n msg) :
    Answers G a n (r.run i) := by
  refine (run_preserves (P := Answers G a n) hw had (.stay h) ?_).2
  rintro s t hws ⟨b, hab, hob, hb⟩ hm
  obtain ⟨c, hbc, hoc, hc⟩ := Move.answers (inv_of_reachable (ha.steps hab)) hn hws hb
    (fun src msg heq => ⟨(hi src msg heq).1, (hi src msg heq).2.mono hob.grows⟩) hm
  exact ⟨c, hab.trans hbc, hob.trans hoc, hc⟩

end FiduciaBrain.Group
