import FiduciaBrain.Group.Within
import FiduciaBrain.Raft.Rejoin
import Mathlib.Data.Finset.Max
import Mathlib.Data.Prod.Lex

/-!
# A majority can elect

Among members that trust no leader, one whose log nobody's is ahead of gets every pre-vote and then
every vote, so any majority can make a leader of it: `exists_elected`. Restarting is a way to make a
member forget whom it trusted.
-/

namespace FiduciaBrain.Group

open Infra TermLog Raft

variable {G : Group} {Q : Finset NodeId} {s : State} {c : NodeId}

theorem engine_quorum (hr : G.system.Reachable s) (hc : c ∈ G.members) :
    (s.node c).engine.quorum = G.members.length / 2 + 1 := by
  rw [Raft.quorum, (engine_peers hr hc).2, G.length_peers hc]

section

variable (hQ : ∀ q ∈ Q, q ∈ G.members) (hr : G.system.Reachable s)

include hQ hr

/-! ## Restarting -/

theorem exists_restarted : ∃ s', Within Q s s' ∧ ∀ q ∈ Q,
    (s'.node q).engine.role = .follower ∧ (s'.node q).engine.leaderId = none ∧
      (s'.node q).engine.persistedSnapshot = (s.node q).engine.persistedSnapshot := by
  refine Within.each (I := fun V t => (∀ q ∈ V, (t.node q).engine.role = .follower ∧
      (t.node q).engine.leaderId = none) ∧
    ∀ q ∈ Q, (t.node q).engine.persistedSnapshot = (s.node q).engine.persistedSnapshot) hQ ?_ hr
      ⟨by simp, fun _ _ => rfl⟩ |>.imp fun t ⟨hst, hV, hp⟩ =>
      ⟨hst, fun q hq => ⟨(hV q hq).1, (hV q hq).2, hp q hq⟩⟩
  rintro V v t hv - hrt ⟨hV, hp⟩
  refine ⟨_, .single (.crash t v 0 hv), fun q hq => ?_, fun q hq => ?_⟩
  · rcases eq_or_ne q v with rfl | hne
    · rw [State.restart_node_self]
      exact ⟨rfl, rfl⟩
    · rw [State.restart_node_of_ne hne]
      exact hV q (Finset.mem_of_mem_insert_of_ne hq hne)
  · rw [← hp q hq]
    rcases eq_or_ne q v with rfl | hne
    · rw [State.restart_node_self]
      exact engine_durable hrt (hQ q hq)
    · rw [State.restart_node_of_ne hne]

/-! ## Polling -/

/-- A member that does not lead polls when its timeout closes. -/
theorem exists_polling (hG : 2 ≤ G.members.length) (hc : c ∈ Q)
    (hrole : (s.node c).engine.role ≠ .leader) : ∃ s', Within Q s s' ∧
      (∀ m, m ≠ c → s'.node m = s.node m) ∧
      (s'.node c).engine.role = .preCandidate ∧ (s'.node c).engine.votes = {c} ∧
      (s'.node c).engine.persistedSnapshot = (s.node c).engine.persistedSnapshot ∧
      ∀ p ∈ G.members, p ≠ c → s'.InNet c p (.requestVote (s.node c).engine.pollRequest) := by
  -- by induction on the ticks left
  generalize hleft :
    (s.node c).engine.randomizedElectionTimeout - (s.node c).engine.electionElapsed = left
  induction left using Nat.strong_induction_on generalizing s with
  | _ left ih =>
    obtain ⟨t, hst, hact⟩ := exists_tick hQ hr hc
    have hrt := hst.reachable hQ hr
    obtain ⟨hid, hpeers⟩ := engine_peers hr (hQ c hc)
    by_cases hclose : (s.node c).engine.randomizedElectionTimeout ≤
        (s.node c).engine.electionElapsed + 1
    · have hq : 1 < (s.node c).engine.quorum := by
        rw [engine_quorum hr (hQ c hc)]
        omega
      have htick := tick_of_closes hrole hclose hq
      have hengine := hact.engine
      rw [htick] at hengine
      have hcore := core_poll { (s.node c).engine with
        electionElapsed := (s.node c).engine.electionElapsed + 1 }
      refine ⟨t, hst, hact.others, ?_, ?_, ?_, fun p hp hne => ?_⟩
      · rw [hengine]
        exact congrArg Core.role hcore
      · rw [hengine]
        exact (congrArg Core.votes hcore).trans (by rw [hid])
      · rw [hengine]
        exact persistedSnapshot_poll _
      · refine hact.sent ⟨p, .requestVote _⟩ ?_
        rw [htick]
        refine mem_out_of_poll (r := { (s.node c).engine with
          electionElapsed := (s.node c).engine.electionElapsed + 1 }) ?_
        rw [hpeers]
        exact (G.mem_peers (hQ c hc)).mpr ⟨hne, hp⟩
    · have htick := tick_of_open hrole (Nat.not_le.mp hclose)
      have hengine := hact.engine
      rw [htick] at hengine
      have hless : (t.node c).engine.randomizedElectionTimeout -
          (t.node c).engine.electionElapsed < left := by
        rw [hengine]
        show (s.node c).engine.randomizedElectionTimeout -
          ((s.node c).engine.electionElapsed + 1) < left
        omega
      obtain ⟨u, htu, hothers, hpre, hvotes, hpersisted, hsent⟩ :=
        ih _ hless hrt (by rw [hengine]; exact hrole) rfl
      refine ⟨u, hst.trans htu, fun m hm => (hothers m hm).trans (hact.others m hm), hpre, hvotes,
        hpersisted.trans ?_, ?_⟩
      · rw [hengine]
        rfl
      · rw [hengine] at hsent
        exact hsent

/-! ## One voter -/

/-- A member that trusts no leader and is not ahead gives its pre-vote, and `c` counts it. -/
theorem exists_prevote {v : NodeId} (hc : c ∈ Q) (hv : v ∈ Q) (hne : v ≠ c)
    (hrole : (s.node c).engine.role = .preCandidate) {req : RequestVoteReq}
    (hmsg : s.InNet c v (.requestVote req)) (hname : req.candidateId = c)
    (hpre : req.preVote = true) (hpos : req.term ≠ 0)
    (hreq : (s.node v).engine.currentTerm ≤ req.term)
    (hterm : (s.node v).engine.currentTerm ≤ (s.node c).engine.currentTerm)
    (hbehind : (s.node v).engine.Behind req.lastLogTerm req.lastLogIndex)
    (hfree : (s.node v).engine.leaderId = none) : ∃ s', Within Q s s' ∧
      (∀ m, m ≠ v → m ≠ c → s'.node m = s.node m) ∧
      (s'.node v).engine.leaderId = none ∧
      (s'.node v).engine.persistedSnapshot = (s.node v).engine.persistedSnapshot ∧
      Acted s' c ((s.node c).engine.tally v).maybeWinPreElection s' := by
  obtain ⟨t, hst, hact⟩ := exists_deliver hQ hr hmsg hc hv hne.symm (by simp [bodyIdentityMatches, hname])
  obtain ⟨granted, heq, hgrant⟩ := handleRequestVote_poll (r := (s.node v).engine) (c := c) hpre
  have hyes : granted = true := hgrant hpos hreq hbehind hfree
  have hhandle : (s.node v).engine.handle c (.requestVote req) = _ := heq
  rw [hhandle] at hact
  have hanswer : t.InNet v c (.requestVoteResp
      { term := (s.node v).engine.currentTerm, granted := granted, preVote := true }) :=
    hact.sent ⟨c, _⟩ (List.mem_append_right _ (List.mem_singleton.mpr rfl))
  obtain ⟨u, htu, hact'⟩ := exists_deliver hQ (hst.reachable hQ hr) hanswer hv hc hne rfl
  have hcn : t.node c = s.node c := hact.others c hne.symm
  have hcount : (t.node c).engine.handle v (.requestVoteResp
      { term := (s.node v).engine.currentTerm, granted := granted, preVote := true }) =
        ((s.node c).engine.tally v).maybeWinPreElection := by
    rw [hcn, hyes]
    exact handleVoteResp_poll hterm hrole
  rw [hcount] at hact'
  have hvn : u.node v = t.node v := hact'.others v hne
  refine ⟨u, hst.trans htu, fun m hm hm' => (hact'.others m hm').trans (hact.others m hm), ?_, ?_,
    hact'.engine, fun _ _ => rfl, List.Subset.refl _, hact'.sent⟩
  · rw [hvn, hact.engine]
    exact hfree
  · rw [hvn, hact.engine]
    rfl

/-- A member of an earlier term that is not ahead votes for `c`, and `c` counts it. -/
theorem exists_vote {v : NodeId} (hc : c ∈ Q) (hv : v ∈ Q) (hne : v ≠ c)
    (hrole : (s.node c).engine.role = .candidate) {req : RequestVoteReq}
    (hmsg : s.InNet c v (.requestVote req)) (hname : req.candidateId = c)
    (hpre : req.preVote = false) (hterm : req.term = (s.node c).engine.currentTerm)
    (hlt : (s.node v).engine.currentTerm < req.term)
    (hbehind : (s.node v).engine.Behind req.lastLogTerm req.lastLogIndex) : ∃ s', Within Q s s' ∧
      (∀ m, m ≠ v → m ≠ c → s'.node m = s.node m) ∧
      (s'.node v).engine.persistedSnapshot = { (s.node v).engine.persistedSnapshot with
        currentTerm := req.term
        votedFor := some c } ∧
      Acted s' c ((s.node c).engine.tally v).maybeWinElection s' := by
  obtain ⟨t, hst, hact⟩ := exists_deliver hQ hr hmsg hc hv hne.symm (by simp [bodyIdentityMatches, hname])
  obtain ⟨g, heq, hg⟩ := handleRequestVote_stand (r := (s.node v).engine) (c := c) hpre hlt hbehind
  have hhandle : (s.node v).engine.handle c (.requestVote req) = _ := heq
  rw [hhandle] at hact
  have hanswer : t.InNet v c (.requestVoteResp
      { term := req.term, granted := true, preVote := false }) :=
    hact.sent ⟨c, _⟩ (List.mem_append_right _ (List.mem_singleton.mpr rfl))
  obtain ⟨u, htu, hact'⟩ := exists_deliver hQ (hst.reachable hQ hr) hanswer hv hc hne rfl
  have hcn : t.node c = s.node c := hact.others c hne.symm
  have hcount : (t.node c).engine.handle v (.requestVoteResp
      { term := req.term, granted := true, preVote := false }) =
        ((s.node c).engine.tally v).maybeWinElection := by
    rw [hcn, hterm]
    exact handleVoteResp_stand hrole
  rw [hcount] at hact'
  have hvn : u.node v = t.node v := hact'.others v hne
  refine ⟨u, hst.trans htu, fun m hm hm' => (hact'.others m hm').trans (hact.others m hm), ?_,
    hact'.engine, fun _ _ => rfl, List.Subset.refl _, hact'.sent⟩
  rw [hvn, hact.engine]
  exact hg

/-! ## All voters -/

omit hQ in
theorem mem_engine_peers (hc : c ∈ G.members) {q : NodeId} (hq : q ∈ G.members) (hne : q ≠ c) :
    q ∈ (s.node c).engine.peers := by
  rw [(engine_peers hr hc).2]
  exact (G.mem_peers hc).mpr ⟨hne, hq⟩

/-- From a poll to a candidacy. `hfree`: nobody trusts a leader, is in a later term, or is ahead. -/
theorem exists_standing (hG : 2 ≤ G.members.length) (hmaj : G.members.length < 2 * Q.card)
    (hc : c ∈ Q) (hrole : (s.node c).engine.role ≠ .leader)
    (hfree : ∀ q ∈ Q, q ≠ c → (s.node q).engine.leaderId = none ∧
      (s.node q).engine.currentTerm ≤ (s.node c).engine.currentTerm ∧
      (s.node q).engine.Behind (s.node c).engine.lastTerm (s.node c).engine.lastIndex) :
    ∃ s', Within Q s s' ∧
      (s'.node c).engine.role = .candidate ∧ (s'.node c).engine.votes = {c} ∧
      (s'.node c).engine.persistedSnapshot = { (s.node c).engine.persistedSnapshot with
        currentTerm := (s.node c).engine.currentTerm + 1
        votedFor := some c } ∧
      ∀ q ∈ Q, q ≠ c →
        (s'.node q).engine.persistedSnapshot = (s.node q).engine.persistedSnapshot ∧
          s'.InNet c q (.requestVote (s.node c).engine.standRequest) := by
  obtain ⟨t, hst, hothers, hpre, hvotes, hdisk, hasked⟩ := exists_polling hQ hr hG hc hrole
  have hrt := hst.reachable hQ hr
  have hid := (engine_peers hr (hQ c hc)).1
  let Won (u : State) : Prop := (u.node c).engine.role = .candidate ∧
    (u.node c).engine.votes = {c} ∧
    (u.node c).engine.persistedSnapshot = { (s.node c).engine.persistedSnapshot with
      currentTerm := (s.node c).engine.currentTerm + 1
      votedFor := some c } ∧
    ∀ q ∈ Q, q ≠ c → u.InNet c q (.requestVote (s.node c).engine.standRequest)
  let Counting (V : Finset NodeId) (u : State) : Prop := (u.node c).engine.role = .preCandidate ∧
    (u.node c).engine.votes = insert c V ∧ (insert c V).card < G.members.length / 2 + 1 ∧
    (u.node c).engine.persistedSnapshot = (s.node c).engine.persistedSnapshot
  suffices h : ∃ u, Within Q t u ∧ (∀ q ∈ Q, q ≠ c → (u.node q).engine.leaderId = none ∧
      (u.node q).engine.persistedSnapshot = (s.node q).engine.persistedSnapshot) ∧ t.net ⊆ u.net ∧
      (Won u ∨ Counting (Q.erase c) u) by
    obtain ⟨u, htu, hrest, -, ⟨h1, h2, h3, h4⟩ | ⟨-, -, hfew, -⟩⟩ := h
    · exact ⟨u, hst.trans htu, h1, h2, h3, fun q hq hne => ⟨(hrest q hq hne).2, h4 q hq hne⟩⟩
    · rw [Finset.insert_erase hc] at hfew
      omega
  refine Within.each (I := fun V u => (∀ q ∈ Q, q ≠ c → (u.node q).engine.leaderId = none ∧
      (u.node q).engine.persistedSnapshot = (s.node q).engine.persistedSnapshot) ∧ t.net ⊆ u.net ∧
      (Won u ∨ Counting V u)) hQ ?_ hrt ⟨fun q hq hne => ?_, List.Subset.refl _, Or.inr ?_⟩
  · rintro V v u hvA - hru ⟨hrest, hnet, hwon | ⟨hpre, hvotes, -, hdisk⟩⟩
    · exact ⟨u, .refl u, hrest, hnet, Or.inl hwon⟩
    obtain ⟨hne, hv⟩ := Finset.mem_erase.mp hvA
    obtain ⟨hnone, hdiskv⟩ := hrest v hv hne
    obtain ⟨-, hle, hbehind⟩ := hfree v hv hne
    have htc : (u.node c).engine.currentTerm = (s.node c).engine.currentTerm :=
      congrArg Persisted.currentTerm hdisk
    have htv : (u.node v).engine.currentTerm = (s.node v).engine.currentTerm :=
      congrArg Persisted.currentTerm hdiskv
    obtain ⟨w, huw, hothers, hleader, hdiskw, hact⟩ := exists_prevote hQ hru hc hv hne hpre
      ((hasked v (hQ v hv) hne).mono hnet) hid rfl (Nat.succ_ne_zero _)
      (by rw [htv]; exact hle.trans (Nat.le_succ _)) (by rw [htv, htc]; exact hle)
      (by rwa [(BallotOnly.of_eq hdiskv).behind]) hnone
    refine ⟨w, huw, fun q hq hqc => ?_, List.Subset.trans hnet huw.net, ?_⟩
    · rcases eq_or_ne q v with rfl | hqv
      · exact ⟨hleader, hdiskw.trans hdiskv⟩
      · rw [hothers q hqv hqc]
        exact hrest q hq hqc
    have hquorum : (u.node c).engine.quorum = G.members.length / 2 + 1 :=
      engine_quorum hru (hQ c hc)
    have hinsert : insert v (insert c V) = insert c (insert v V) := Finset.insert_comm ..
    have hvotesv : ((u.node c).engine.tally v).votes = insert c (insert v V) :=
      (congrArg (insert v) hvotes).trans hinsert
    have huid : ((u.node c).engine.tally v).id = c := (engine_peers hru (hQ c hc)).1
    have hdiskc : ((u.node c).engine.tally v).persistedSnapshot =
        (s.node c).engine.persistedSnapshot := hdisk
    have hprec : ((u.node c).engine.tally v).role = .preCandidate := hpre
    have hquorumc : ((u.node c).engine.tally v).quorum = G.members.length / 2 + 1 := hquorum
    have hpeersc : ((u.node c).engine.tally v).peers = (u.node c).engine.peers := rfl
    generalize (u.node c).engine.tally v = g at hact hvotesv huid hdiskc hprec hquorumc hpeersc
    have hengine := hact.engine
    by_cases hwin : G.members.length / 2 + 1 ≤ (insert c (insert v V)).card
    · left
      have heq := maybeWinPreElection_of_le hprec (by omega) (by rw [hquorumc, hvotesv]; exact hwin)
      rw [heq] at hengine
      refine ⟨?_, ?_, ?_, fun q hq hqc => hact.sent ⟨q, _⟩ ?_⟩
      · rw [hengine]
        exact congrArg Core.role (core_stand g)
      · rw [hengine, ← huid]
        exact congrArg Core.votes (core_stand g)
      · rw [hengine]
        refine (persistedSnapshot_stand g).trans ?_
        rw [hdiskc, huid, show g.currentTerm = (s.node c).engine.currentTerm from
          congrArg Persisted.currentTerm hdiskc]
      · rw [heq, ← standRequest_congr (huid.trans hid.symm) hdiskc]
        exact mem_out_of_stand (hpeersc ▸ mem_engine_peers hru (hQ c hc) (hQ q hq) hqc)
    · right
      rw [maybeWinPreElection_of_lt (by rw [hquorumc, hvotesv]; exact Nat.not_le.mp hwin)] at hengine
      show (w.node c).engine.role = .preCandidate ∧ _
      rw [hengine]
      exact ⟨hprec, hvotesv, Nat.not_le.mp hwin, hdiskc⟩
  · rw [hothers q hne]
    exact ⟨(hfree q hq hne).1, rfl⟩
  · refine ⟨hpre, hvotes, ?_, hdisk⟩
    rw [insert_empty_eq, Finset.card_singleton]
    omega

/-- From a candidacy to an office. `hvoters`: everybody is in an earlier term, nobody is ahead. -/
theorem exists_leading (hmaj : G.members.length < 2 * Q.card) (hG : 2 ≤ G.members.length)
    (hc : c ∈ Q) (hrole : (s.node c).engine.role = .candidate)
    (hvotes : (s.node c).engine.votes = {c}) {req : RequestVoteReq} (hname : req.candidateId = c)
    (hreal : req.preVote = false) (hterm : req.term = (s.node c).engine.currentTerm)
    (hvoters : ∀ q ∈ Q, q ≠ c → (s.node q).engine.currentTerm < req.term ∧
      (s.node q).engine.Behind req.lastLogTerm req.lastLogIndex ∧
      s.InNet c q (.requestVote req)) :
    ∃ s', Within Q s s' ∧ (s'.node c).engine.role = .leader ∧
      (s'.node c).engine.currentTerm = (s.node c).engine.currentTerm ∧
      (s'.node c).engine.baseIndex = (s.node c).engine.baseIndex ∧
      (s'.node c).engine.lastIndex = (s.node c).engine.lastIndex + 1 ∧
      (s'.node c).engine.lastTerm = (s'.node c).engine.currentTerm ∧
      ∀ q ∈ Q, q ≠ c →
        (s'.node q).engine.currentTerm ≤ req.term ∧
        BallotOnly (s.node q).engine (s'.node q).engine ∧
        (s'.node c).engine.nextIndex q = some ((s.node c).engine.lastIndex + 1) ∧
        s'.InNet c q (.appendEntries
          ((s'.node c).engine.appendRequest ((s.node c).engine.lastIndex + 1))) := by
  let Won (u : State) : Prop := (u.node c).engine.role = .leader ∧
    (u.node c).engine.currentTerm = (s.node c).engine.currentTerm ∧
    (u.node c).engine.baseIndex = (s.node c).engine.baseIndex ∧
    (u.node c).engine.lastIndex = (s.node c).engine.lastIndex + 1 ∧
    (u.node c).engine.lastTerm = (u.node c).engine.currentTerm ∧
    ∀ q ∈ Q, q ≠ c → (u.node c).engine.nextIndex q = some ((s.node c).engine.lastIndex + 1) ∧
      u.InNet c q (.appendEntries
        ((u.node c).engine.appendRequest ((s.node c).engine.lastIndex + 1)))
  let Counting (V : Finset NodeId) (u : State) : Prop := (u.node c).engine.role = .candidate ∧
    (u.node c).engine.votes = insert c V ∧ (insert c V).card < G.members.length / 2 + 1 ∧
    (u.node c).engine.persistedSnapshot = (s.node c).engine.persistedSnapshot ∧
    ∀ q ∈ Q, q ≠ c → q ∉ V → u.node q = s.node q
  suffices h : ∃ u, Within Q s u ∧ (∀ q ∈ Q, q ≠ c →
      (u.node q).engine.currentTerm ≤ req.term ∧
        BallotOnly (s.node q).engine (u.node q).engine) ∧
      s.net ⊆ u.net ∧ (Won u ∨ Counting (Q.erase c) u) by
    obtain ⟨u, hsu, hrest, -, ⟨h1, h2, h3, h4, h5, h6⟩ | ⟨-, -, hfew, -⟩⟩ := h
    · exact ⟨u, hsu, h1, h2, h3, h4, h5, fun q hq hne =>
        ⟨(hrest q hq hne).1, (hrest q hq hne).2, h6 q hq hne⟩⟩
    · rw [Finset.insert_erase hc] at hfew
      omega
  refine Within.each (I := fun V u => (∀ q ∈ Q, q ≠ c →
      (u.node q).engine.currentTerm ≤ req.term ∧
        BallotOnly (s.node q).engine (u.node q).engine) ∧
      s.net ⊆ u.net ∧ (Won u ∨ Counting V u)) hQ ?_ hr
    ⟨fun q hq hne => ⟨(hvoters q hq hne).1.le, .of_eq rfl⟩, List.Subset.refl _, Or.inr
      ⟨hrole, hvotes, ?_, rfl, fun _ _ _ _ => rfl⟩⟩
  · rintro V v u hvA hvV hru ⟨hrest, hnet, hwon | ⟨hcand, hvotes, -, hdisk, hsame⟩⟩
    · exact ⟨u, .refl u, hrest, hnet, Or.inl hwon⟩
    obtain ⟨hne, hv⟩ := Finset.mem_erase.mp hvA
    obtain ⟨hlt, hbehind, hasked⟩ := hvoters v hv hne
    have hvn := hsame v hv hne hvV
    have htc : (u.node c).engine.currentTerm = (s.node c).engine.currentTerm :=
      congrArg Persisted.currentTerm hdisk
    obtain ⟨w, huw, hothers, hdiskw, hact⟩ := exists_vote hQ hru hc hv hne hcand
      (hasked.mono hnet) hname hreal (hterm.trans htc.symm) (by rwa [hvn]) (by rwa [hvn])
    refine ⟨w, huw, fun q hq hqc => ?_, List.Subset.trans hnet huw.net, ?_⟩
    · rcases eq_or_ne q v with rfl | hqv
      · exact ⟨(congrArg Persisted.currentTerm hdiskw).le, req.term, some c, by rw [hdiskw, hvn]⟩
      · rw [hothers q hqv hqc]
        exact hrest q hq hqc
    have hquorumc : ((u.node c).engine.tally v).quorum = G.members.length / 2 + 1 :=
      engine_quorum hru (hQ c hc)
    have hvotesv : ((u.node c).engine.tally v).votes = insert c (insert v V) :=
      (congrArg (insert v) hvotes).trans (Finset.insert_comm ..)
    have hdiskc : ((u.node c).engine.tally v).persistedSnapshot =
        (s.node c).engine.persistedSnapshot := hdisk
    have hcandc : ((u.node c).engine.tally v).role = .candidate := hcand
    have hpeersc : ((u.node c).engine.tally v).peers = (u.node c).engine.peers := rfl
    generalize (u.node c).engine.tally v = g at hact hvotesv hdiskc hcandc hquorumc hpeersc
    have hengine := hact.engine
    by_cases hwin : G.members.length / 2 + 1 ≤ (insert c (insert v V)).card
    · left
      have heq := maybeWinElection_of_le hcandc (by rw [hquorumc, hvotesv]; exact hwin)
      rw [heq] at hengine
      have hcore := core_becomeLeader g
      have hbase : g.baseIndex = (s.node c).engine.baseIndex :=
        congrArg Persisted.baseIndex hdiskc
      have hlast : g.lastIndex = (s.node c).engine.lastIndex := by
        rw [Raft.lastIndex, Raft.lastIndex, hbase,
          show g.log = (s.node c).engine.log from congrArg Persisted.log hdiskc]
      have hlog : g.becomeLeader.log = g.log ++ [g.noop] := congrArg Core.log hcore
      have hbase' : g.becomeLeader.baseIndex = g.baseIndex := congrArg Core.baseIndex hcore
      refine ⟨?_, ?_, ?_, ?_, ?_, fun q hq hqc => ?_⟩
      · rw [hengine]
        exact congrArg Core.role hcore
      · rw [hengine]
        exact (congrArg Core.currentTerm hcore).trans (congrArg Persisted.currentTerm hdiskc)
      · rw [hengine]
        exact hbase'.trans hbase
      · rw [hengine, ← hlast]
        show g.becomeLeader.baseIndex + g.becomeLeader.log.length = _
        rw [hbase', hlog, List.length_append, List.length_singleton, Raft.lastIndex]
        omega
      · rw [hengine]
        show ((g.becomeLeader.log.getLast?).map LogEntry.term).getD g.becomeLeader.baseTerm =
          g.becomeLeader.currentTerm
        rw [hlog, List.getLast?_concat]
        exact (congrArg Core.currentTerm hcore).symm
      · obtain ⟨hnext, hsent⟩ := mem_becomeLeader (r := g)
          (hpeersc ▸ mem_engine_peers hru (hQ c hc) (hQ q hq) hqc)
        rw [hengine, ← hlast]
        rw [heq] at hact
        exact ⟨hnext, hact.sent _ hsent⟩
    · right
      rw [maybeWinElection_of_lt (by rw [hquorumc, hvotesv]; exact Nat.not_le.mp hwin)] at hengine
      refine ⟨by rw [hengine]; exact hcandc, by rw [hengine]; exact hvotesv, Nat.not_le.mp hwin,
        by rw [hengine]; exact hdiskc, fun q hq hqc hqV => ?_⟩
      rw [Finset.mem_insert, not_or] at hqV
      rw [hothers q hqV.1 hqc]
      exact hsame q hq hqc hqV.2
  · rw [insert_empty_eq, Finset.card_singleton]
    omega

/-! ## Catching up with the terms -/

/-- A poll teaches `c` the latest term among the members that trust no leader. -/
theorem exists_caughtUp (hG : 2 ≤ G.members.length) (hc : c ∈ Q)
    (hrole : (s.node c).engine.role ≠ .leader) : ∃ s', Within Q s s' ∧
      (s'.node c).engine.role ≠ .leader ∧
      BallotOnly (s.node c).engine (s'.node c).engine ∧
      ∀ q ∈ Q, q ≠ c → (s'.node q).engine.leaderId = (s.node q).engine.leaderId ∧
        (s'.node q).engine.persistedSnapshot = (s.node q).engine.persistedSnapshot ∧
        (s.node q).engine.currentTerm ≤ (s'.node c).engine.currentTerm := by
  obtain ⟨d, hd, hmax⟩ := Q.exists_max_image (fun q => (s.node q).engine.currentTerm) ⟨c, hc⟩
  by_cases hle : (s.node d).engine.currentTerm ≤ (s.node c).engine.currentTerm
  · exact ⟨s, .refl s, hrole, .of_eq rfl, fun q hq _ =>
      ⟨rfl, rfl, (hmax q hq).trans hle⟩⟩
  have hne : d ≠ c := fun h => hle (h ▸ Nat.le_refl _)
  obtain ⟨t, hst, hothers, -, -, hdisk, hasked⟩ := exists_polling hQ hr hG hc hrole
  have hrt := hst.reachable hQ hr
  obtain ⟨u, htu, hact⟩ := exists_deliver hQ hrt (hasked d (hQ d hd) hne) hc hd hne.symm
    (by simp [bodyIdentityMatches, pollRequest, (engine_peers hr (hQ c hc)).1])
  have hpre : (s.node c).engine.pollRequest.preVote = true := rfl
  obtain ⟨granted, heq, -⟩ := handleRequestVote_poll (r := (t.node d).engine) (c := c) hpre
  have hhandle : (t.node d).engine.handle c (.requestVote (s.node c).engine.pollRequest) = _ := heq
  rw [hhandle] at hact
  have hanswer : u.InNet d c (.requestVoteResp
      { term := (t.node d).engine.currentTerm, granted := granted, preVote := true }) :=
    hact.sent ⟨c, _⟩ (List.mem_append_right _ (List.mem_singleton.mpr rfl))
  obtain ⟨w, huw, hact'⟩ := exists_deliver hQ (htu.reachable hQ hrt) hanswer hd hc hne rfl
  have hlater : (u.node c).engine.currentTerm < (t.node d).engine.currentTerm := by
    rw [hact.others c hne.symm, hothers d hne, show (t.node c).engine.currentTerm =
      (s.node c).engine.currentTerm from congrArg Persisted.currentTerm hdisk]
    exact Nat.not_le.mp hle
  have hfollow : (u.node c).engine.handle d (.requestVoteResp
      { term := (t.node d).engine.currentTerm, granted := granted, preVote := true }) =
        (u.node c).engine.becomeFollower (t.node d).engine.currentTerm none :=
    handleVoteResp_later hlater
  rw [hfollow] at hact'
  have hengine := hact'.engine
  have hdisk' : (w.node c).engine.persistedSnapshot = { (s.node c).engine.persistedSnapshot with
      currentTerm := (t.node d).engine.currentTerm
      votedFor := none } := by
    rw [hengine, ← hdisk, ← hact.others c hne.symm]
    exact persistedSnapshot_becomeFollower hlater none
  refine ⟨w, (hst.trans htu).trans huw, ?_, ⟨_, _, hdisk'⟩, fun q hq hqc => ?_⟩
  · have hfollower : (w.node c).engine.role = .follower := by
      rw [hengine]
      exact role_becomeFollower (r := (u.node c).engine) (t.node d).engine.currentTerm none
    simp [hfollower]
  · rw [show (w.node c).engine.currentTerm = (t.node d).engine.currentTerm from
      congrArg Persisted.currentTerm hdisk', hothers d hne, hact'.others q hqc]
    rcases eq_or_ne q d with rfl | hqd
    · rw [hact.engine, hothers q hqc]
      exact ⟨rfl, rfl, Nat.le_refl _⟩
    · rw [hact.others q hqd, hothers q hqc]
      exact ⟨rfl, rfl, hmax q hq⟩

/-! ## An election -/

omit hQ in
/-- A member whose log is of earlier terms has not committed all of a leader's. -/
theorem commit_lt_lastIndex {q : NodeId} (hc : c ∈ G.members) (hq : q ∈ G.members)
    (hrole : (s.node c).engine.role = .leader)
    (hlast : (s.node c).engine.lastTerm = (s.node c).engine.currentTerm)
    (hterm : (s.node q).engine.currentTerm ≤ (s.node c).engine.currentTerm)
    (hearlier : ∀ i, (s.node q).engine.termAt i < (s.node c).engine.currentTerm) :
    (s.node q).engine.commitIndex < (s.node c).engine.lastIndex := by
  obtain ⟨a, ha, hsa⟩ := simulation.reachable hr
  have hinv := inv_of_reachable ha
  have hnc := hsa.node c hc
  have hnq := hsa.node q hq
  have hlead : a.leader (s.node c).engine.currentTerm = some c := (hnc.mirrors.leader hrole).1
  have htake := hnq.take_eq_llog hinv hterm (by simp [hlead]) (Nat.le_refl _)
  rw [hnc.mirrors.llog_eq hinv hrole] at htake
  have hlen := congrArg List.length htake
  rw [List.length_take_of_le hnq.commit_le, List.length_take, hnc.holds.length] at hlen
  refine Nat.lt_of_le_of_ne (by omega) fun heq => ?_
  rw [heq, ← hnc.holds.length, List.take_length, hnc.holds.length, ← heq] at htake
  have hat := hnq.holds.termAt hnq.wellFormed.base_le_commit hnq.commit_le
  rw [htake, ← hnc.holds.lastTerm, hlast] at hat
  exact absurd hat (Nat.ne_of_lt (hearlier _))

/-- The leader `c` has offered `q` its log from `next` on, and `q` will listen. -/
structure Contacted (s : State) (c q : NodeId) (next : Nat) : Prop where
  nextIndex : (s.node c).engine.nextIndex q = some next
  offered : ∃ msg, (s.node c).engine.Offers q next msg ∧ s.InNet c q msg
  term : (s.node q).engine.currentTerm ≤ (s.node c).engine.currentTerm
  base : (s.node q).engine.baseIndex < next

/-- **A majority elects a leader**, who offers everybody its first entry. -/
theorem exists_elected (hG : 2 ≤ G.members.length) (hmaj : G.members.length < 2 * Q.card) :
    ∃ s' c, Within Q s s' ∧ c ∈ Q ∧ (s'.node c).engine.role = .leader ∧
      (s'.node c).engine.lastIndex = (s.node c).engine.lastIndex + 1 ∧
      (s'.node c).engine.baseIndex < (s'.node c).engine.lastIndex ∧
      ∀ q ∈ Q, q ≠ c → Contacted s' c q (s'.node c).engine.lastIndex := by
  -- whoever has the furthest log
  obtain ⟨c, hc, hmax⟩ := Q.exists_max_image
    (fun q => toLex ((s.node q).engine.lastTerm, (s.node q).engine.lastIndex))
    (Finset.card_pos.mp (by omega))
  obtain ⟨t, hst, hfresh⟩ := exists_restarted hQ hr
  have hrt := hst.reachable hQ hr
  obtain ⟨u, htu, hrole, hdisk, hrest⟩ := exists_caughtUp hQ hrt hG hc (by simp [(hfresh c hc).1])
  have hru := htu.reachable hQ hrt
  have hkeptc : BallotOnly (s.node c).engine (u.node c).engine :=
    (BallotOnly.of_eq (hfresh c hc).2.2).trans hdisk
  have hkept : ∀ q ∈ Q, q ≠ c → BallotOnly (s.node q).engine (u.node q).engine := fun q hq hne =>
    (BallotOnly.of_eq (hfresh q hq).2.2).trans (.of_eq (hrest q hq hne).2.1)
  have hterm : ∀ q ∈ Q, q ≠ c → (u.node q).engine.currentTerm ≤ (u.node c).engine.currentTerm := by
    intro q hq hne
    obtain ⟨-, hsame, hle⟩ := hrest q hq hne
    exact (congrArg Persisted.currentTerm hsame).le.trans hle
  have hbehind : ∀ q ∈ Q, q ≠ c →
      (u.node q).engine.Behind (u.node c).engine.lastTerm (u.node c).engine.lastIndex := by
    intro q hq hne
    rw [(hkept q hq hne).behind, hkeptc.lastTerm, hkeptc.lastIndex]
    exact Prod.Lex.toLex_le_toLex.mp (hmax q hq)
  obtain ⟨v, huv, hcand, hvotes, hdiskv, hasked⟩ := exists_standing hQ hru hG hmaj hc hrole
    fun q hq hne => ⟨(hrest q hq hne).1.trans (hfresh q hq).2.1, hterm q hq hne, hbehind q hq hne⟩
  have hrv := huv.reachable hQ hru
  have htv : (v.node c).engine.currentTerm = (u.node c).engine.currentTerm + 1 :=
    congrArg Persisted.currentTerm hdiskv
  have hlastv : (v.node c).engine.lastIndex = (s.node c).engine.lastIndex :=
    (BallotOnly.trans hkeptc ⟨_, _, hdiskv⟩).lastIndex
  have hvoters : ∀ q ∈ Q, q ≠ c →
      (v.node q).engine.currentTerm < (u.node c).engine.standRequest.term ∧
      (v.node q).engine.Behind (u.node c).engine.standRequest.lastLogTerm
        (u.node c).engine.standRequest.lastLogIndex ∧
      v.InNet c q (.requestVote (u.node c).engine.standRequest) := by
    intro q hq hne
    obtain ⟨hsame, hmsg⟩ := hasked q hq hne
    refine ⟨?_, ?_, hmsg⟩
    · rw [show (v.node q).engine.currentTerm = (u.node q).engine.currentTerm from
        congrArg Persisted.currentTerm hsame]
      exact Nat.lt_succ_of_le (hterm q hq hne)
    · rw [(BallotOnly.of_eq hsame).behind]
      exact hbehind q hq hne
  obtain ⟨w, hvw, hlead, htw, hbasew, hlast, hlt, hoffers⟩ := exists_leading hQ hrv hmaj hG hc
    hcand hvotes (engine_peers hru (hQ c hc)).1 rfl htv.symm hvoters
  have hrw := hvw.reachable hQ hrv
  have hnew : (w.node c).engine.baseIndex < (w.node c).engine.lastIndex := by
    rw [hbasew, hlast, Raft.lastIndex]
    omega
  refine ⟨w, c, (((hst.trans htu).trans huv).trans hvw), hc, hlead, hlast.trans (by rw [hlastv]),
    hnew, fun q hq hne => ?_⟩
  obtain ⟨htq, hkeptq, hnext, hmsg⟩ := hoffers q hq hne
  rw [← hlast] at hnext hmsg
  have hle : (w.node q).engine.currentTerm ≤ (w.node c).engine.currentTerm := by
    rw [htw, htv]
    exact htq
  -- the entries of `q` are from before the election
  have hcommit := commit_lt_lastIndex hrw (hQ c hc) (hQ q hq) hlead hlt hle fun i => by
    rw [hkeptq.termAt, (BallotOnly.of_eq (hasked q hq hne).1).termAt, htw, htv]
    exact Nat.lt_succ_of_le
      (((engine_wellFormed hru (hQ q hq)).termAt_le i).trans (hterm q hq hne))
  exact ⟨hnext, ⟨_, .append (w.node c).engine.commitIndex hnew, hmsg⟩, hle,
    (engine_wellFormed hrw (hQ q hq)).base_le_commit.trans_lt hcommit⟩

end

end FiduciaBrain.Group
