import FiduciaBrain.RaftStore.Validate

/-!
# What an append does

`handleAppend_spec`: a refused request leaves the log, the commit point and the snapshot as they
were; an accepted one is in the log up to the index it acknowledges, with what follows cut off
exactly when an entry of it conflicted.
-/

namespace FiduciaBrain.Raft

open Infra

variable {r r' : Raft} {req : AppendEntriesReq}

/-- A request entry that the log has with another term. -/
def Conflicts (r : Raft) (e : LogEntry) : Prop := e.index ≤ r.lastIndex ∧ r.termAt e.index ≠ e.term

/-- A request entry that the log does not have. -/
def Missing (r : Raft) (e : LogEntry) : Prop := r.lastIndex < e.index

/-- What a refused request leaves alone. -/
structure SameLog (r r' : Raft) : Prop where
  log : r'.log = r.log
  commitIndex : r'.commitIndex = r.commitIndex
  baseIndex : r'.baseIndex = r.baseIndex
  baseTerm : r'.baseTerm = r.baseTerm
  snapshot : r'.snapshot = r.snapshot
  lastApplied : r'.lastApplied = r.lastApplied

/-- What an accepted request does, `m` being the index it acknowledges. -/
structure Appended (r r' : Raft) (req : AppendEntriesReq) (m : Nat) : Prop where
  matchIndex : m = req.prevLogIndex + req.entries.length
  agrees : ∀ e ∈ req.entries, r.baseIndex < e.index →
    ∃ x, r'.entryAt e.index = some x ∧ x.index = e.index ∧ x.term = e.term
  taken : ∀ e ∈ req.entries, r.Conflicts e ∨ r.Missing e → r'.entryAt e.index = some e
  before : ∀ i x, i ≤ req.prevLogIndex → r.entryAt i = some x → r'.entryAt i = some x
  kept : (∀ e ∈ req.entries, ¬ r.Conflicts e) → ∀ i x, r.entryAt i = some x → r'.entryAt i = some x
  dropped : (∃ e ∈ req.entries, r.Conflicts e) → ∀ i, m < i → r'.entryAt i = none
  commitIndex : r'.commitIndex = max r.commitIndex (min req.leaderCommit m)
  baseIndex : r'.baseIndex = r.baseIndex

/-! ## Requests that change nothing -/

namespace SameLog

theorem of_core (h : r'.core = r.core) : SameLog r r' :=
  ⟨congrArg Core.log h, congrArg Core.commitIndex h, congrArg Core.baseIndex h,
    congrArg Core.baseTerm h, congrArg Core.snapshot h, congrArg Core.lastApplied h⟩

theorem of_follow {t : Nat} (h : r'.core = r.core.follow t) : SameLog r r' := by
  rcases Nat.lt_or_ge r.currentTerm t with hlt | hle
  · rw [Core.follow_of_lt hlt] at h
    exact ⟨congrArg Core.log h, congrArg Core.commitIndex h, congrArg Core.baseIndex h,
      congrArg Core.baseTerm h, congrArg Core.snapshot h, congrArg Core.lastApplied h⟩
  · rw [Core.follow_of_le hle] at h
    exact ⟨congrArg Core.log h, congrArg Core.commitIndex h, congrArg Core.baseIndex h,
      congrArg Core.baseTerm h, congrArg Core.snapshot h, congrArg Core.lastApplied h⟩

theorem adopt (r : Raft) (t : Nat) : SameLog r (r.adopt t) := by
  rcases core_adopt r t with h | ⟨_, h⟩
  · exact of_core h
  · exact of_follow h

theorem lastIndex (h : SameLog r r') : r'.lastIndex = r.lastIndex := by
  rw [Raft.lastIndex, Raft.lastIndex, h.baseIndex, h.log]

theorem termAt (h : SameLog r r') : r'.termAt = r.termAt := by
  funext i
  simp only [Raft.termAt, logSlot, h.lastIndex, h.baseIndex, h.baseTerm, h.log]

theorem agrees (h : SameLog r r') (entries : List LogEntry) :
    r'.Agrees entries ↔ r.Agrees entries := by
  simp only [Agrees, h.lastIndex, h.termAt]

end SameLog

/-- What an accepted request makes of the log. -/
def Spliced (r r' : Raft) (entries : List LogEntry) : Prop :=
  (r.Agrees entries ∧ r'.log = r.log) ∨
    ∃ pre e post, entries = pre ++ e :: post ∧ r.Agrees pre ∧
      ¬ (e.index ≤ r.lastIndex ∧ r.termAt e.index = e.term) ∧ e.index ≤ r.lastIndex + 1 ∧
      r.baseIndex < e.index ∧ r'.log = r.log.take (e.index - r.baseIndex - 1) ++ e :: post

/-- A run that was taken whole is spliced in, and committed as far as it reaches. -/
theorem SameLog.spliced {f g : Raft} {entries : List LogEntry} (hsame : SameLog r f)
    (hbc : r.baseIndex ≤ r.commitIndex) (ht : Took f g entries) (n : Nat) :
    Spliced r (g.commitThrough true n) entries ∧
      (g.commitThrough true n).commitIndex = max r.commitIndex n ∧
      (g.commitThrough true n).baseIndex = r.baseIndex := by
  obtain ⟨d, hcore⟩ := core_took ht n
  have hb := hsame.baseIndex
  have hc := hsame.commitIndex
  have hlog : (g.commitThrough true n).log = g.log := congrArg Core.log hcore
  refine ⟨?_, (congrArg Core.commitIndex hcore).trans (by rw [hc]),
    (congrArg Core.baseIndex hcore).trans hb⟩
  rcases ht with ⟨ha, rfl⟩ | ⟨pre, e, post, heq, ha, hne, hci, hend, rfl⟩
  · exact Or.inl ⟨(hsame.agrees _).mp ha, hlog.trans hsame.log⟩
  · rw [hsame.lastIndex] at hend
    rw [hsame.lastIndex, hsame.termAt] at hne
    refine Or.inr ⟨pre, e, post, heq, (hsame.agrees _).mp ha, hne, hend, by omega, ?_⟩
    rw [hlog, replaceFrom, hsame.log, hb]

/-- **An append is refused or spliced.** -/
theorem handleAppend_cases (hbc : r.baseIndex ≤ r.commitIndex) (hcl : r.commitIndex ≤ r.lastIndex)
    (l : NodeId) (req : AppendEntriesReq) :
    (∃ resp, (r.handleAppend l req).out = r.out ++ [⟨l, .appendEntriesResp resp⟩] ∧
      resp.success = false ∧ SameLog r (r.handleAppend l req)) ∨
    ∃ resp, (r.handleAppend l req).out = r.out ++ [⟨l, .appendEntriesResp resp⟩] ∧
      resp.success = true ∧ resp.matchIndex = req.prevLogIndex + req.entries.length ∧
      LogValid req.term req.prevLogIndex req.prevLogTerm req.entries ∧
      Spliced r (r.handleAppend l req) req.entries ∧
      (r.handleAppend l req).commitIndex =
        max r.commitIndex (min req.leaderCommit resp.matchIndex) ∧
      (r.handleAppend l req).baseIndex = r.baseIndex := by
  unfold handleAppend
  simp only
  by_cases hstale : req.term < r.currentTerm
  · rw [if_pos hstale]
    exact Or.inl ⟨_, rfl, rfl, .of_core rfl⟩
  have hle : r.currentTerm ≤ req.term := Nat.not_lt.mp hstale
  rw [if_neg hstale, show (if req.term > r.currentTerm then r.becomeFollower req.term none else r)
    = r.adopt req.term from rfl]
  cases hcont : entriesAreContiguous req with
  | false =>
    rw [if_pos (by rfl), out_send, out_adopt]
    have hsame := SameLog.adopt r req.term
    exact Or.inl ⟨_, rfl, rfl, ⟨hsame.log, hsame.commitIndex, hsame.baseIndex, hsame.baseTerm,
      hsame.snapshot, hsame.lastApplied⟩⟩
  | true =>
    rw [if_neg (by simp)]
    have hsame : SameLog r ((r.adopt req.term).becomeFollower req.term (some l)) :=
      .of_follow (core_follow_adopt hle (some l))
    have hout : ((r.adopt req.term).becomeFollower req.term (some l)).out = r.out := by
      rw [out_becomeFollower, out_adopt]
    generalize (r.adopt req.term).becomeFollower req.term (some l) = f at hsame hout
    have hrefused : ∀ resp, (∃ resp', (f.send l (.appendEntriesResp resp)).out =
        r.out ++ [⟨l, .appendEntriesResp resp'⟩] ∧ resp'.success = resp.success ∧
        SameLog r (f.send l (.appendEntriesResp resp))) := fun resp =>
      ⟨resp, by rw [out_send, hout], rfl, hsame.log, hsame.commitIndex, hsame.baseIndex,
        hsame.baseTerm, hsame.snapshot, hsame.lastApplied⟩
    split
    · exact Or.inl (hrefused _)
    next hprev =>
    split
    · exact Or.inl (hrefused _)
    obtain ⟨_, _, hv⟩ := logValid_of_contiguous hcont
    have hb := hsame.baseIndex
    have hc := hsame.commitIndex
    have hlast := hsame.lastIndex
    -- the loop took the run whole, or refused it before it changed anything
    rcases spliceEntries_cases req.entries req.prevLogIndex req.prevLogTerm (r := f)
      (by omega) (by omega) (by omega) hv with ⟨c, hs, _⟩ | ⟨ha, hs⟩ |
        ⟨pre, e, post, heq, ha, hne, hci, hend, hs⟩
    · rw [hs]
      simp only [commitThrough, Bool.false_eq_true, false_and, if_false]
      exact Or.inl (hrefused _)
    · rw [hs]
      have htook : Took f f req.entries := Or.inl ⟨ha, rfl⟩
      obtain ⟨hspliced, hcommit, hbase⟩ := hsame.spliced hbc htook
        (min req.leaderCommit (req.prevLogIndex + req.entries.length))
      right
      rw [out_send, out_commitThrough, hout]
      exact ⟨_, rfl, rfl, rfl, hv, hspliced, hcommit, hbase⟩
    · rw [hs]
      have htook : Took f (f.replaceFrom e post) req.entries :=
        Or.inr ⟨pre, e, post, heq, ha, hne, hci, hend, rfl⟩
      obtain ⟨hspliced, hcommit, hbase⟩ := hsame.spliced hbc htook
        (min req.leaderCommit (req.prevLogIndex + req.entries.length))
      right
      rw [out_send, out_commitThrough]
      exact ⟨_, congrArg (· ++ _) hout, rfl, rfl, hv, hspliced, hcommit, hbase⟩

/-! ## Entries at an index -/

theorem entryAt_eq_some {i : Nat} {x : LogEntry} :
    r.entryAt i = some x ↔ r.baseIndex < i ∧ r.log[i - r.baseIndex - 1]? = some x := by
  unfold entryAt logSlot
  split
  · next hout =>
    refine iff_of_false (by simp) fun ⟨hb, hx⟩ => ?_
    have hlt := (List.getElem?_eq_some_iff.mp hx).1
    simp only [lastIndex] at hout
    omega
  · next hin => simp [Nat.lt_of_not_le (fun h => hin (Or.inl h))]

theorem entryAt_eq_none {i : Nat} (h : r.lastIndex < i) : r.entryAt i = none := by
  rw [entryAt, logSlot_eq_none (Or.inr h)]
  rfl

theorem entryAt_of_mem (h : r.WellFormed) {x : LogEntry} (hx : x ∈ r.log) :
    r.entryAt x.index = some x := by
  obtain ⟨k, hk, rfl⟩ := List.getElem_of_mem hx
  have hidx := h.log_valid.index_eq hk
  refine entryAt_eq_some.mpr ⟨by omega, ?_⟩
  rw [show r.log[k].index - r.baseIndex - 1 = k by omega]
  exact List.getElem?_eq_getElem hk

theorem index_of_entryAt (h : r.WellFormed) {i : Nat} {x : LogEntry} (hx : r.entryAt i = some x) :
    x.index = i := by
  obtain ⟨hb, hget⟩ := entryAt_eq_some.mp hx
  obtain ⟨hlt, rfl⟩ := List.getElem?_eq_some_iff.mp hget
  rw [h.log_valid.index_eq hlt]
  omega

theorem exists_entryAt {i : Nat} (hb : r.baseIndex < i) (hl : i ≤ r.lastIndex) :
    ∃ x, r.entryAt i = some x ∧ x.term = r.termAt i := by
  have hlt : i - r.baseIndex - 1 < r.log.length := by
    rw [lastIndex] at hl
    omega
  refine ⟨r.log[i - r.baseIndex - 1], entryAt_eq_some.mpr ⟨hb, List.getElem?_eq_getElem hlt⟩, ?_⟩
  rw [← termAt_eq_getElem hlt, show r.baseIndex + (i - r.baseIndex - 1) + 1 = i by omega]

/-- What is below the cut stays. -/
theorem entryAt_take {n i : Nat} {x : LogEntry} {rest : List LogEntry}
    (hlog : r'.log = r.log.take n ++ rest) (hb : r'.baseIndex = r.baseIndex)
    (hi : i ≤ r.baseIndex + n) (hx : r.entryAt i = some x) : r'.entryAt i = some x := by
  obtain ⟨hbase, hget⟩ := entryAt_eq_some.mp hx
  obtain ⟨hlt, rfl⟩ := List.getElem?_eq_some_iff.mp hget
  refine entryAt_eq_some.mpr ⟨hb ▸ hbase, ?_⟩
  rw [hb, hlog, List.getElem?_append_left (by rw [List.length_take]; omega),
    List.getElem?_take_of_lt (by omega)]
  exact List.getElem?_eq_getElem hlt

theorem not_conflicts_or_missing {e : LogEntry}
    (h : e.index ≤ r.lastIndex ∧ r.termAt e.index = e.term) : ¬ (r.Conflicts e ∨ r.Missing e) := by
  rintro (⟨_, hne⟩ | hmiss)
  · exact hne h.2
  · exact Nat.not_lt.mpr h.1 hmiss

/-- Entries that are all there change nothing. -/
theorem Appended.of_agrees (h : r.WellFormed) (ha : r.Agrees req.entries) (hlog : r'.log = r.log)
    (hb : r'.baseIndex = r.baseIndex) {m : Nat} (hm : m = req.prevLogIndex + req.entries.length)
    (hc : r'.commitIndex = max r.commitIndex (min req.leaderCommit m)) : Appended r r' req m := by
  have hsame : ∀ i, r'.entryAt i = r.entryAt i := by
    intro i
    simp only [entryAt, logSlot, lastIndex, hb, hlog]
    rfl
  refine ⟨hm, fun e he hbe => ?_, fun e he hd => absurd hd (not_conflicts_or_missing (ha e he)),
    fun i x _ hx => (hsame i).trans hx, fun _ i x hx => (hsame i).trans hx, ?_, hc, hb⟩
  · obtain ⟨x, hx, hterm⟩ := exists_entryAt hbe (ha e he).1
    exact ⟨x, (hsame _).trans hx, index_of_entryAt h hx, hterm.trans (ha e he).2⟩
  · rintro ⟨e, he, hconf⟩
    exact absurd (Or.inl hconf) (not_conflicts_or_missing (ha e he))

/-- **What a splice does, entry by entry.** -/
theorem Spliced.appended (h : r.WellFormed) (h' : r'.WellFormed) (hv : LogValid req.term
      req.prevLogIndex req.prevLogTerm req.entries) (hs : Spliced r r' req.entries)
    (hb : r'.baseIndex = r.baseIndex) {m : Nat} (hm : m = req.prevLogIndex + req.entries.length)
    (hc : r'.commitIndex = max r.commitIndex (min req.leaderCommit m)) : Appended r r' req m := by
  rcases hs with ⟨ha, hlog⟩ | ⟨pre, e, post, heq, ha, hne, hend, hbase, hlog⟩
  · exact .of_agrees h ha hlog hb hm hc
  · have hlen : req.entries.length = pre.length + 1 + post.length := by
      rw [heq, List.length_append, List.length_cons]
      omega
    rw [heq] at hv
    obtain ⟨hvpre, hvrest⟩ := LogValid.append.mp hv
    have hfirst : e.index = req.prevLogIndex + pre.length + 1 := hvrest.1
    have hcut : r.baseIndex + (e.index - r.baseIndex - 1) = e.index - 1 := by omega
    -- entries from the cut on are those of the request
    have hrest : ∀ x ∈ e :: post, r'.entryAt x.index = some x := fun x hx =>
      entryAt_of_mem h' (by rw [hlog]; exact List.mem_append_right _ hx)
    have hmem : ∀ x ∈ req.entries, x ∈ pre ∨ x ∈ e :: post := fun x hx =>
      List.mem_append.mp (heq ▸ hx)
    have hbelow : ∀ x ∈ pre, x.index < e.index := by
      intro x hx
      obtain ⟨k, hk, rfl⟩ := List.getElem_of_mem hx
      rw [hvpre.index_eq hk]
      omega
    refine ⟨hm, fun x hx hbx => ?_, fun x hx hd => ?_,
      fun i x hi hx => entryAt_take hlog hb (by omega) hx, fun hno i x hx => ?_,
      fun _ i hi => ?_, hc, hb⟩
    · rcases hmem x hx with hpre | hpost
      · obtain ⟨y, hy, hterm⟩ := exists_entryAt hbx (ha x hpre).1
        have hlt := hbelow x hpre
        exact ⟨y, entryAt_take hlog hb (by omega) hy, index_of_entryAt h hy,
          hterm.trans (ha x hpre).2⟩
      · exact ⟨x, hrest x hpost, rfl, rfl⟩
    · rcases hmem x hx with hpre | hpost
      · exact absurd hd (not_conflicts_or_missing (ha x hpre))
      · exact hrest x hpost
    · -- the first entry that is not there is beyond the end, so nothing is cut
      have hnot := hno e (by rw [heq]; simp)
      have hbeyond : r.lastIndex < e.index := by
        by_contra hle
        exact hnot ⟨Nat.not_lt.mp hle, fun hterm => hne ⟨Nat.not_lt.mp hle, hterm⟩⟩
      have hil : i ≤ r.lastIndex := by
        by_contra hgt
        rw [entryAt_eq_none (Nat.not_le.mp hgt)] at hx
        cases hx
      exact entryAt_take hlog hb (by omega) hx
    · refine entryAt_eq_none ?_
      have hl : r'.lastIndex = m := by
        simp only [lastIndex] at hend ⊢
        rw [hb, hlog, List.length_append, List.length_take, List.length_cons]
        omega
      omega

/-- **What `handle_append` does in every reachable state**: a request under another name is
ignored, and any other gets one response. -/
theorem handleAppend_spec {r : Raft}
    (h : (engineSystem fun p => validatePersisted p = .ok ()).Reachable r) {sender : NodeId}
    (hs : sender ∈ r.peers) (req : AppendEntriesReq) :
    (req.leaderId ≠ sender ∧ r.step sender (.appendEntries req) = r) ∨
    ∃ resp, (r.step sender (.appendEntries req)).out =
        r.out ++ [⟨sender, .appendEntriesResp resp⟩] ∧
      (resp.success = false → SameLog r (r.step sender (.appendEntries req))) ∧
      (resp.success = true →
        Appended r (r.step sender (.appendEntries req)) req resp.matchIndex) := by
  have hw := wellFormed_of_reachable h
  have hw' : (r.step sender (.appendEntries req)).WellFormed :=
    hw.run (i := .step sender (.appendEntries req)) trivial
  by_cases hname : req.leaderId = sender
  · right
    have hstep : r.step sender (.appendEntries req) = r.handleAppend sender req := by
      unfold step
      rw [if_neg (by simp [hs, bodyIdentityMatches, hname])]
    rw [hstep] at hw' ⊢
    rcases handleAppend_cases hw.base_le_commit hw.commit_le_last sender req with
      ⟨resp, hout, hfail, hsame⟩ | ⟨resp, hout, hok, hm, hv, hspliced, hc, hb⟩
    · exact ⟨resp, hout, fun _ => hsame, fun hok => absurd (hfail.symm.trans hok) nofun⟩
    · exact ⟨resp, hout, fun hfail => absurd (hok.symm.trans hfail) nofun,
        fun _ => hspliced.appended hw hw' hv hb hm hc⟩
  · left
    refine ⟨hname, ?_⟩
    unfold step
    rw [if_pos (by simp [bodyIdentityMatches, hname])]

/-- A follower with an empty log. -/
def newcomer : Raft :=
  Raft.new "brain-1" ["brain-0", "brain-2"]
    { heartbeatTicks := 3, electionMinTicks := 10, electionMaxTicks := 18 } 7 Persisted.default

/-- A leader's no-op and two plans, the first of them committed. -/
def firstAppend : AppendEntriesReq :=
  { term := 1, leaderId := "brain-0", prevLogIndex := 0, prevLogTerm := 0
    entries := [⟨1, 1, none⟩, ⟨1, 2, some (.setScalePlan ⟨5, 1⟩)⟩,
      ⟨1, 3, some (.setScalePlan ⟨7, 1⟩)⟩]
    leaderCommit := 2 }

/-- The next leader does not have the second plan and has committed one of its own. -/
def takeover : AppendEntriesReq :=
  { term := 2, leaderId := "brain-2", prevLogIndex := 2, prevLogTerm := 1
    entries := [⟨2, 3, none⟩, ⟨2, 4, some (.setScalePlan ⟨9, 1⟩)⟩], leaderCommit := 4 }

/-- An append that starts beyond the end of the log. -/
def gapped : AppendEntriesReq :=
  { term := 2, leaderId := "brain-2", prevLogIndex := 9, prevLogTerm := 2, entries := []
    leaderCommit := 9 }

/-- The follower of the first leader. -/
def follower : Raft := newcomer.run (.step "brain-0" (.appendEntries firstAppend))

theorem reachable_newcomer :
    (engineSystem fun p => validatePersisted p = .ok ()).Reachable newcomer :=
  .of_init ⟨"brain-1", ["brain-0", "brain-2"], _, 7, Persisted.default, rfl, rfl⟩

theorem reachable_follower :
    (engineSystem fun p => validatePersisted p = .ok ()).Reachable follower :=
  reachable_newcomer.step (.call newcomer _ trivial)

/-- The second plan gives way to the next leader's log, and what starts beyond it is refused. -/
theorem handleAppend_spec_takeover :
    let r := follower.step "brain-2" (.appendEntries takeover)
    follower.Conflicts ⟨2, 3, none⟩ ∧ Appended follower r takeover 4 ∧ r.commitIndex = 4 ∧
      SameLog r (r.step "brain-2" (.appendEntries gapped)) := by
  intro r
  have hconflict : follower.lastIndex = 3 ∧ follower.termAt 3 = 1 := by decide +kernel
  have htaken : r.out = follower.out ++ [⟨"brain-2", .appendEntriesResp ⟨2, true, 4⟩⟩] := by
    decide +kernel
  have hrefused : (r.step "brain-2" (.appendEntries gapped)).out =
      r.out ++ [⟨"brain-2", .appendEntriesResp ⟨2, false, 4⟩⟩] := by
    decide +kernel
  have hpeers : "brain-2" ∈ follower.peers ∧ "brain-2" ∈ r.peers := by decide +kernel
  have happended : Appended follower r takeover 4 := by
    rcases handleAppend_spec reachable_follower hpeers.1 takeover with
      ⟨hname, -⟩ | ⟨resp, hout, -, hok⟩
    · exact absurd rfl hname
    · cases List.append_cancel_left (htaken.symm.trans hout)
      exact hok rfl
  have hreach : (engineSystem fun p => validatePersisted p = .ok ()).Reachable r :=
    reachable_follower.step (.call follower (.step "brain-2" (.appendEntries takeover)) trivial)
  refine ⟨⟨hconflict.1.ge, by rw [hconflict.2]; decide⟩, happended, ?_, ?_⟩
  · rw [happended.commitIndex]
    decide +kernel
  · rcases handleAppend_spec hreach hpeers.2 gapped with ⟨hname, -⟩ | ⟨resp, hout, hfail, -⟩
    · exact absurd rfl hname
    · cases List.append_cancel_left (hrefused.symm.trans hout)
      exact hfail rfl

end FiduciaBrain.Raft
