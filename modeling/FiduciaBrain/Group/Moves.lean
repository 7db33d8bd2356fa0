import FiduciaBrain.Group.Mirror

/-!
# Moves are protocol steps

Each move of a member's engine is answered by steps of the abstract protocol that leave the member
mirrored (`Move.answers`). Most moves are answered by nothing at all; stepping down, standing,
voting, winning, writing, taking over a leader's log and learning of a commit are each one step.
-/

namespace FiduciaBrain.Group

open Infra TermLog Raft

variable {G : Group} {a : Ledger} {n : NodeId} {r r' : Raft} {out : List Addressed}

/-- The protocol has an answer, made of member `n`'s steps, that leaves `n` mirrored. -/
def Answers (G : Group) (a : Ledger) (n : NodeId) (r' : Raft) : Prop :=
  ∃ b, G.protocol.Steps a b ∧ Only n a b ∧ G.Mirrors b n r'.core r'.out

theorem Answers.stay (h : G.Mirrors a n r'.core r'.out) : Answers G a n r' :=
  ⟨a, .refl a, .refl, h⟩

theorem Answers.step {b : Ledger} (hs : TermLog.Step G.quorums a b) (ho : Only n a b)
    (h : G.Mirrors b n r'.core r'.out) : Answers G a n r' := ⟨b, .single hs, ho, h⟩

/-! ## Talking -/

namespace Mirrors

/-- A leader's log is its term's leader log. -/
theorem llog_eq (ha : Inv G.quorums a) (h : G.Mirrors a n r.core out) (hl : r.role = .leader) :
    a.llog r.currentTerm = a.log n := by
  have hterm : a.term n = r.currentTerm := h.term
  rw [← hterm]
  exact (ha.leader_log n (by rw [hterm]; exact (h.leader hl).1)).symm

theorem commit_le_length (hw : r.WellFormed) (h : G.Mirrors a n r.core out) :
    r.commitIndex ≤ (a.log n).length := by
  rw [h.length]
  exact hw.commit_le_last

/-- The committed part of the log is committed. -/
theorem committed (ha : Inv G.quorums a) (h : G.Mirrors a n r.core out) {i : Nat}
    (hi : i ≤ r.commitIndex) : Committed G.quorums a r.currentTerm ((a.log n).take i) := by
  have hc := ha.committed n
  rw [h.term, h.commit] at hc
  exact hc.restrict (List.take_prefix_take_left hi)

theorem backed_idle (ha : Inv G.quorums a) (hw : r.WellFormed) (h : G.Mirrors a n r.core out)
    {msg : RaftMessage} (hm : Idle r msg) (dst : NodeId) :
    G.Backed a n dst msg ∧
      ∀ req, msg = .installSnapshot req → req.lastIncludedIndex ≤ r.baseIndex := by
  have hholds : r.Holds (a.log n) := h.holds
  cases hm with
  | poll hp => exact ⟨Or.inl hp, fun _ heq => by cases heq⟩
  | denied hd =>
    refine ⟨fun hg hp => ?_, fun _ heq => by cases heq⟩
    rw [hd hg] at hp
    cases hp
  | refused hs => exact ⟨fun ht => absurd (hs.symm.trans ht) (by decide), fun _ heq => by cases heq⟩
  | declined hs => exact ⟨fun ht => absurd (hs.symm.trans ht) (by decide), fun _ heq => by cases heq⟩
  | replication hl hr =>
    have hllog := h.llog_eq ha hl
    have hlead : a.leader r.currentTerm = some n := (h.leader hl).1
    cases hr with
    | snapshot data hd =>
      refine ⟨⟨hlead, ?_, ?_, ?_⟩, fun req heq => by cases heq; exact Nat.le_refl _⟩
      · rw [hllog]
        exact hholds.base_le
      · rw [hllog]
        exact hholds.base.symm
      · rw [hllog]
        exact h.committed ha hw.base_le_commit
    | append next hnext =>
      refine ⟨fun hcont => ?_, fun _ heq => by cases heq⟩
      obtain ⟨_, hzero, _⟩ := logValid_of_contiguous hcont
      have hlen : (a.log n).length = r.lastIndex := h.length
      have hlast : r.lastIndex = r.baseIndex + r.log.length := rfl
      have hprev : next - 1 ≤ (a.log n).length := by
        -- a probe beyond the end carries term 0 and fails the receiver's check
        by_contra hbeyond
        have h0 : next - 1 = 0 := hzero.mpr (termAt_of_gt (by omega))
        omega
      simp only [hllog]
      refine ⟨hlead, hprev, hholds.termAt (by omega) hprev, ?_, ?_, h.committed ha (Nat.le_refl _)⟩
      · by_cases hin : next ≤ r.lastIndex
        · rw [logSlot_eq_some hnext hin, ← hholds.live]
          show ((a.log n).drop r.baseIndex).drop (next - r.baseIndex - 1) <+: _
          rw [List.drop_drop, show r.baseIndex + (next - r.baseIndex - 1) = next - 1 from by omega]
        · rw [logSlot_eq_none (Or.inr (Nat.lt_of_not_le hin))]
          exact List.nil_prefix
      · exact h.commit_le_length hw

/-- Saying what commits to nothing. -/
theorem talk (ha : Inv G.quorums a) (hw : r.WellFormed) (h : G.Mirrors a n r.core out)
    {out' : List Addressed} (hout : ∀ m ∈ out', m ∈ out ∨ Idle r m.msg) :
    G.Mirrors a n r.core out' where
  __ := h
  backed := fun m hm => by
    rcases hout m hm with hold | hidle
    · exact h.backed m hold
    · exact (h.backed_idle ha hw hidle m.recipient).1
  outBase := fun m hm => by
    rcases hout m hm with hold | hidle
    · exact h.outBase m hold
    · exact (h.backed_idle ha hw hidle m.recipient).2

/-- Saying one thing more. -/
theorem say {c : Core} (h : G.Mirrors a n c out) {dst : NodeId} {msg : RaftMessage}
    (hm : G.Backed a n dst msg) (hs : ∀ req, msg ≠ .installSnapshot req) :
    G.Mirrors a n c (out ++ [⟨dst, msg⟩]) where
  __ := h
  backed := fun m hin => by
    rcases List.mem_append.mp hin with hin | hin
    · exact h.backed m hin
    · rw [List.mem_singleton.mp hin]
      exact hm
  outBase := fun m hin req heq => by
    rcases List.mem_append.mp hin with hin | hin
    · exact h.outBase m hin req heq
    · rw [List.mem_singleton.mp hin] at heq
      exact absurd heq (hs req)

end Mirrors

/-! ## Terms and votes -/

theorem answers_follow (ha : Inv G.quorums a) (h : G.Mirrors a n r.core r.out) {t : Nat}
    (hc : r'.core = r.core.follow t) (ho : r'.out = r.out) : Answers G a n r' := by
  by_cases hlt : r.currentTerm < t
  · have hterm : a.term n < t := by rw [h.term]; exact hlt
    have hs : TermLog.Step G.quorums a (a.adopt n t) := .adopt a n t hterm
    have hg := hs.grows ha
    refine .step hs ⟨hg, ?_, fun _ _ => rfl, fun _ _ => rfl, fun _ _ _ => rfl,
      fun _ _ _ h => h⟩ ?_
    · intro m hm
      simp [State.adopt, hm]
    · rw [hc, ho, Core.follow_of_lt hlt]
      exact { h with
        term := by simp [State.adopt]
        vote := ha.vote_of_lt hterm
        candidate := fun hr => by cases hr
        leader := fun hr => by cases hr
        backed := fun m hm => (h.backed m hm).mono hg }
  · refine .stay ?_
    rw [hc, ho, Core.follow_of_le (Nat.not_lt.mp hlt)]
    exact { h with
      candidate := fun hr => by cases hr
      leader := fun hr => by cases hr }

theorem answers_poll (h : G.Mirrors a n r.core r.out) : Answers G a n r.poll := by
  refine .stay ?_
  rw [core_poll]
  refine { h with
    candidate := fun hr => by cases hr
    leader := fun hr => by cases hr
    backed := fun m hm => ?_
    outBase := fun m hm req heq => ?_ }
  · rcases mem_out_poll hm with hold | ⟨req, hreq, hp⟩
    · exact h.backed m hold
    · rw [hreq]
      exact Or.inl hp
  · rcases mem_out_poll hm with hold | ⟨_, hreq, _⟩
    · exact h.outBase m hold req heq
    · rw [hreq] at heq
      cases heq

theorem answers_stand (ha : Inv G.quorums a) (hn : n ∈ G.members)
    (h : G.Mirrors a n r.core r.out) : Answers G a n r.stand := by
  have hid : r.id = n := h.id
  have hterm : a.term n = r.currentTerm := h.term
  have hs : TermLog.Step G.quorums a (a.campaign n) := .campaign a n
  have hg := hs.grows ha
  have hcand : (a.campaign n).cand n (r.currentTerm + 1) = some (a.log n) := by
    rw [← hterm]
    exact set₂_self _ _ _ _
  have hvote : (a.campaign n).vote n (r.currentTerm + 1) = some n := by
    rw [← hterm]
    exact set₂_self _ _ _ _
  refine .step hs ⟨hg, ?_, fun _ _ => rfl, fun _ _ => rfl, ?_, fun _ _ _ h => h⟩ ?_
  · intro m hm
    simp [State.campaign, hm]
  · intro m hm t
    exact set₂_of_ne fun h => hm h.1
  have hnew : a.leader (r.currentTerm + 1) ≠ some n := ha.leader_ne_of_lt (by omega)
  rw [core_stand]
  refine { h with
    term := by simp [State.campaign, hterm]
    vote := by rw [hid]; exact hvote
    candidate := fun _ => ⟨hcand, hnew, fun v hv => ?_⟩
    leader := fun hr => by cases hr
    backed := fun m hm => ?_
    outBase := fun m hm req heq => ?_ }
  · have hvn : v = n := by rw [← hid]; exact Finset.mem_singleton.mp hv
    subst hvn
    exact ⟨hn, hvote⟩
  · rcases mem_out_stand hm with hold | hreq
    · exact (h.backed m hold).mono hg
    · rw [hreq]
      exact Or.inr ⟨a.log n, hcand, h.holds.lastTerm, h.length.symm⟩
  · rcases mem_out_stand hm with hold | hreq
    · exact h.outBase m hold req heq
    · rw [hreq] at heq
      cases heq

/-- Counting a vote: a granted response of this term is a vote the ledger knows. -/
theorem answers_tally (h : G.Mirrors a n r.core r.out) {v : NodeId}
    {resp : RequestVoteResp} (hv : v ∈ G.members)
    (hb : G.Backed a v n (.requestVoteResp resp)) (hg : resp.granted = true)
    (hrole : r.role = .preCandidate ∨
      r.role = .candidate ∧ resp.term = r.currentTerm ∧ resp.preVote = false) :
    Answers G a n { r with votes := insert v r.votes } := by
  refine .stay { h with candidate := fun hr => ?_ }
  obtain ⟨hcand, hlead, hvotes⟩ := h.candidate hr
  refine ⟨hcand, hlead, fun w hw => ?_⟩
  rcases Finset.mem_insert.mp hw with rfl | hw
  · rcases hrole with hpre | ⟨_, hterm, hreal⟩
    · have hcr : r.role = .candidate := hr
      rw [hcr] at hpre
      cases hpre
    · refine ⟨hv, ?_⟩
      have hvote := hb hg hreal
      rw [hterm] at hvote
      exact hvote
  · exact hvotes w hw

theorem answers_grant (ha : Inv G.quorums a) (h : G.Mirrors a n r.core r.out) {c : NodeId}
    {req : RequestVoteReq} (hb : G.Backed a c n (.requestVote req)) (hreal : req.preVote = false)
    (hterm : req.term = r.currentTerm) (hfree : r.votedFor = none ∨ r.votedFor = some c)
    (hlog : r.logOk req = true)
    (hc : r'.core = { r.core with votedFor := some c, dirty := true })
    (ho : r'.out = r.out ++ [⟨c, .requestVoteResp
      { term := r.currentTerm, granted := true, preVote := false }⟩]) : Answers G a n r' := by
  have hat : a.term n = r.currentTerm := h.term
  obtain ⟨l, hcand, hlt, hll⟩ : ∃ l, a.cand c req.term = some l ∧
      req.lastLogTerm = lastTerm l ∧ req.lastLogIndex = l.length := by
    rcases hb with hp | hb
    · rw [hreal] at hp
      cases hp
    · exact hb
  rw [hterm, ← hat] at hcand
  have hup : UpToDate l (a.log n) := by
    simp only [logOk, Bool.or_eq_true, Bool.and_eq_true, decide_eq_true_eq, hlt, hll,
      h.holds.lastTerm] at hlog
    have hlen : (a.log n).length = r.lastIndex := h.length
    rw [← hlen] at hlog
    exact hlog
  have hvote : a.vote n (a.term n) = none ∨ a.vote n (a.term n) = some c := by
    rw [hat, show a.vote n r.currentTerm = r.votedFor from h.vote]
    exact hfree
  have hs : TermLog.Step G.quorums a (a.grant n c) := .grant a n c l hcand hvote hup
  have hg := hs.grows ha
  have hself : (a.grant n c).vote n r.currentTerm = some c := by
    rw [← hat]
    exact set₂_self _ _ _ _
  refine .step hs ⟨hg, fun _ _ => rfl, fun _ _ => rfl, fun _ _ => rfl, ?_, fun _ _ _ h => h⟩ ?_
  · intro m hm t
    exact set₂_of_ne fun h => hm h.1
  rw [hc, ho]
  refine Mirrors.say (a := a.grant n c) ?_ (fun _ _ => hself) (by simp)
  refine { h with
    vote := hself
    candidate := fun hr => ?_
    backed := fun m hm => (h.backed m hm).mono hg }
  obtain ⟨hcd, hld, hvs⟩ := h.candidate hr
  exact ⟨hcd, hld, fun v hv => ⟨(hvs v hv).1, hg.vote _ _ _ (hvs v hv).2⟩⟩

/-! ## Writing -/

/-- The member's log, one entry longer. -/
theorem Mirrors.write_log (h : G.Mirrors a n r.core out) (e : LogEntry) :
    (a.log n ++ [e]).length = r.baseIndex + (r.log ++ [e]).length ∧
      (a.log n ++ [e]).drop r.baseIndex = r.log ++ [e] ∧
      lastTerm ((a.log n ++ [e]).take r.baseIndex) = r.baseTerm := by
  have hholds : r.Holds (a.log n) := h.holds
  have hlen : (a.log n).length = r.baseIndex + r.log.length := h.length
  refine ⟨?_, ?_, ?_⟩
  · simp only [List.length_append, hlen]
    omega
  · rw [List.drop_append_of_le_length hholds.base_le, hholds.live]
  · rw [List.take_append_of_le_length hholds.base_le, hholds.base]

theorem answers_lead (ha : Inv G.quorums a) (hn : n ∈ G.members) (hw : r.WellFormed)
    (h : G.Mirrors a n r.core r.out) (hrole : r.role = .candidate)
    (hq : r.quorum ≤ r.votes.card) : Answers G a n r.becomeLeader := by
  have hat : a.term n = r.currentTerm := h.term
  obtain ⟨hcand, hlead, hvotes⟩ := h.candidate hrole
  have hquorum : G.quorums.IsQuorum r.votes := by
    refine ⟨fun v hv => List.mem_toFinset.mpr (hvotes v hv).1, ?_⟩
    have hpeers : r.peers = G.peers n := h.peers
    have := G.length_peers hn
    rw [quorum, hpeers] at hq
    omega
  have hs : TermLog.Step G.quorums a (a.elect n r.noop) := by
    refine .elect a n r.noop ?_ ?_ ?_ ⟨r.votes, hquorum, fun v hv => ?_⟩
    · rw [hat]; exact hcand
    · rw [hat]; exact hlead
    · rw [hat]; rfl
    · rw [hat]; exact (hvotes v hv).2
  have hg := hs.grows ha
  have hlog : (a.elect n r.noop).log n = a.log n ++ [r.noop] := by
    simp [State.elect, State.write]
  have hself : (a.elect n r.noop).leader r.currentTerm = some n := by
    simp [State.elect, hat]
  obtain ⟨hl1, hl2, hl3⟩ := h.write_log r.noop
  have hm : G.Mirrors (a.elect n r.noop) n r.becomeLeader.core r.out := by
    rw [core_becomeLeader]
    refine { h with
      length := by rw [hlog]; exact hl1
      live := by rw [hlog]; exact hl2
      base := by rw [hlog]; exact hl3
      candidate := fun hr => by cases hr
      leader := fun _ => ⟨hself, fun p hp => ?_⟩
      backed := fun m hm => (h.backed m hm).mono hg }
    show ((if p ∈ r.peers then some 0 else none).getD 0 : Nat) ≤ _
    split <;> exact Nat.zero_le _
  refine .step hs ⟨hg, fun _ _ => rfl, ?_, fun _ _ => rfl, fun _ _ _ => rfl, ?_⟩ ?_
  · intro m hm
    simp [State.elect, State.write, hm]
  · intro m hm t ht
    by_cases htt : t = a.term n
    · subst htt
      simp [State.elect] at ht
      exact absurd ht.symm hm
    · simpa [State.elect, htt] using ht
  · have hw' : r.becomeLeader.WellFormed :=
      Move.wellFormed (i := .tick) hw trivial (.lead hrole hq rfl)
    refine hm.talk (hs.inv ha) hw' fun m hmem => ?_
    refine (mem_out_becomeLeader hmem).imp_right fun hr => .replication ?_ hr
    exact congrArg Core.role (core_becomeLeader r)

theorem answers_push (ha : Inv G.quorums a) (h : G.Mirrors a n r.core r.out)
    (hrole : r.role = .leader) (c : Option Command) : Answers G a n (r.pushEntry c) := by
  have hat : a.term n = r.currentTerm := h.term
  obtain ⟨hlead, hmatch⟩ := h.leader hrole
  let e : LogEntry := { term := r.currentTerm, index := r.lastIndex + 1, command := c }
  have hs : TermLog.Step G.quorums a (a.write n e) := by
    refine .write a n e ?_ ?_
    · rw [hat]; exact hlead
    · rw [hat]; rfl
  have hg := hs.grows ha
  have hlog : (a.write n e).log n = a.log n ++ [e] := by simp [State.write]
  obtain ⟨hl1, hl2, hl3⟩ := h.write_log e
  refine .step hs ⟨hg, fun _ _ => rfl, ?_, fun _ _ => rfl, fun _ _ _ => rfl, fun _ _ _ h => h⟩ ?_
  · intro m hm
    simp [State.write, hm]
  · exact { h with
      length := by rw [hlog]; exact hl1
      live := by rw [hlog]; exact hl2
      base := by rw [hlog]; exact hl3
      candidate := fun hr => absurd (hrole.symm.trans hr) (by decide)
      leader := fun _ => ⟨hlead, fun p hp => (hmatch p hp).trans (hg.acked_le _ _)⟩
      backed := fun m hm => (h.backed m hm).mono hg }

end FiduciaBrain.Group
