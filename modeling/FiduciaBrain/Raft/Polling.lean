import FiduciaBrain.Raft.Bookkeeping
import FiduciaBrain.Raft.CheckQuorum

/-!
# Pre-elections

Where the votes of a member that polls come from (`polled_run`), and which calls make a member
stand: the pre-vote it lacked, or the running out of its timer if it has no peers (`stood_run`).
-/

namespace FiduciaBrain.Raft

variable {r r' : Raft} {i : Input}

/-- The call starts a pre-election. -/
def Polls (r : Raft) (i : Input) : Prop := i = .tick ∧ r.role ≠ .leader ∧ r.Closes

instance (r : Raft) (i : Input) : Decidable (r.Polls i) := inferInstanceAs (Decidable (_ ∧ _))

/-- How a member that polls after a call with input `i` got its votes. -/
inductive Polled (i : Input) (r r' : Raft) : Prop
  | opened : r.Polls i → r'.votes = {r.id} → Polled i r r'
  | counted (v : NodeId) (resp : RequestVoteResp) : i = .step v (.requestVoteResp resp) →
      v ∈ r.peers → resp.granted = true → resp.preVote = true → r.role = .preCandidate →
      r'.votes = insert v r.votes → Polled i r r'
  | same : ¬ r.Polls i → r.role = .preCandidate → r'.votes = r.votes → Polled i r r'

/-- The call that makes a member stand. -/
inductive Stood (i : Input) (r : Raft) : Prop
  | counted (v : NodeId) (resp : RequestVoteResp) : i = .step v (.requestVoteResp resp) →
      v ∈ r.peers → resp.granted = true → resp.preVote = true → r.role = .preCandidate →
      r.quorum ≤ (insert v r.votes).card → Stood i r
  | alone : i = .tick → r.peers = [] → Stood i r

/-- The member ran for the next term. -/
def Ran (r r' : Raft) : Prop :=
  r.currentTerm < r'.currentTerm ∧ (r'.role = .candidate ∨ r'.role = .leader)

theorem not_ran_of_follower (h : r'.role = .follower) : ¬ Ran r r' := by
  rintro ⟨_, hrole | hrole⟩
  · exact absurd (h.symm.trans hrole) (by simp)
  · exact absurd (h.symm.trans hrole) (by simp)

theorem not_ran_of_term (h : r'.currentTerm = r.currentTerm) : ¬ Ran r r' :=
  fun hran => absurd hran.1 (by rw [h]; exact Nat.lt_irrefl _)

theorem maybeWinElection_term (r : Raft) : r.maybeWinElection.currentTerm = r.currentTerm := by
  unfold maybeWinElection
  split
  · exact congrArg Core.currentTerm (core_becomeLeader r)
  · rfl

/-- Winning a pre-election is having the votes. -/
theorem quorum_of_ran (h : r.maybeWinPreElection.currentTerm ≠ r.currentTerm) :
    r.quorum ≤ r.votes.card := by
  unfold maybeWinPreElection at h
  split at h
  · next hwin => exact hwin.2
  · exact absurd rfl h

theorem role_maybeWinPreElection (h : r.maybeWinPreElection.role = .preCandidate) :
    r.maybeWinPreElection = r := by
  rcases maybeWinPreElection_cases r with heq | heq | hlead
  · exact heq
  · rw [heq, show r.stand.role = .candidate from congrArg Core.role (core_stand r)] at h
    cases h
  · rw [hlead] at h
    cases h

/-! ## Calls -/

theorem polled_tick (hpre : r.tick.role = .preCandidate) : Polled .tick r r.tick := by
  by_cases hl : r.role = .leader
  · rcases (leaderCall_tick hl).role_kept with ⟨hrole, _⟩ | hrole
    · exact absurd (hrole.symm.trans hpre) (by simp [hl])
    · exact absurd (hrole.symm.trans hpre) (by simp)
  · rcases tick_cases hl with ⟨hopen, htick⟩ | ⟨hclose, g, htick, hcore, _⟩
    · rw [htick] at hpre ⊢
      exact .same (fun h => absurd h.2.2 (Nat.not_le.mpr hopen)) hpre rfl
    · rw [htick] at hpre
      refine .opened ⟨rfl, hl, hclose⟩ ?_
      rw [htick, role_maybeWinPreElection hpre]
      exact congrArg Core.votes hcore

theorem stood_tick (hran : Ran r r.tick) : Stood .tick r := by
  by_cases hl : r.role = .leader
  · rcases (leaderCall_tick hl).role_kept with ⟨_, hterm, _⟩ | hrole
    · exact absurd hran (not_ran_of_term hterm)
    · exact absurd hran (not_ran_of_follower hrole)
  · rcases tick_cases hl with ⟨_, htick⟩ | ⟨_, g, htick, hcore, _⟩
    · exact absurd hran (not_ran_of_term (by rw [htick]))
    · have hterm : g.currentTerm = r.currentTerm := congrArg Core.currentTerm hcore
      have hq := quorum_of_ran (r := g) fun heq =>
        not_ran_of_term (by rw [htick, heq, hterm]) hran
      rw [show g.votes = {r.id} from congrArg Core.votes hcore, Finset.card_singleton] at hq
      have hnil := peers_eq_nil_of_quorum_le_one hq
      rw [show g.peers = r.peers from congrArg Core.peers hcore] at hnil
      exact .alone rfl hnil

theorem polled_handleVoteResp {v : NodeId} (hv : v ∈ r.peers) {resp : RequestVoteResp}
    (hpre : (r.handleVoteResp v resp).role = .preCandidate) :
    Polled (.step v (.requestVoteResp resp)) r (r.handleVoteResp v resp) := by
  have hpolls : ¬ r.Polls (.step v (.requestVoteResp resp)) := fun h => by cases h.1
  unfold handleVoteResp at hpre ⊢
  split
  · next hterm =>
    rw [if_pos hterm, role_becomeFollower] at hpre
    cases hpre
  next hterm =>
  rw [if_neg hterm] at hpre
  split
  · next hg =>
    rw [if_pos hg] at hpre
    exact .same hpolls hpre rfl
  next hg =>
  rw [if_neg hg] at hpre
  split
  · next hflag =>
    rw [if_pos hflag] at hpre
    split
    · next hrole =>
      rw [if_pos hrole] at hpre
      refine .counted v resp rfl hv (by simpa using hg) hflag hrole ?_
      rw [role_maybeWinPreElection hpre]
    · next hrole =>
      rw [if_neg hrole] at hpre
      exact absurd hpre hrole
  · next hflag =>
    rw [if_neg hflag] at hpre
    split
    · next hrole =>
      rw [if_pos hrole] at hpre
      rcases maybeWinElection_cases { r with votes := insert v r.votes } with heq | hlead
      · rw [heq] at hpre
        exact absurd (hrole.1.symm.trans hpre) (by simp)
      · exact absurd (hlead.symm.trans hpre) (by simp)
    · next hrole =>
      rw [if_neg hrole] at hpre
      exact .same hpolls hpre rfl

theorem stood_handleVoteResp {v : NodeId} (hv : v ∈ r.peers) {resp : RequestVoteResp}
    (hran : Ran r (r.handleVoteResp v resp)) : Stood (.step v (.requestVoteResp resp)) r := by
  unfold handleVoteResp at hran
  split at hran
  · exact absurd hran (not_ran_of_follower (role_becomeFollower _ _))
  split at hran
  · exact absurd hran (not_ran_of_term rfl)
  next hg =>
  split at hran
  · next hflag =>
    split at hran
    · next hrole =>
      refine .counted v resp rfl hv (by simpa using hg) hflag hrole ?_
      exact quorum_of_ran (r := { r with votes := insert v r.votes })
        fun heq => not_ran_of_term heq hran
    · exact absurd hran (not_ran_of_term rfl)
  · split at hran
    · refine absurd hran (not_ran_of_term ?_)
      exact maybeWinElection_term { r with votes := insert v r.votes }
    · exact absurd hran (not_ran_of_term rfl)

/-- **Where the votes of a polling member come from.** -/
theorem polled_run (hpre : (r.run i).role = .preCandidate) : Polled i r (r.run i) := by
  by_cases htick : i = .tick
  · subst htick
    exact polled_tick hpre
  by_cases hvote : ∃ v resp, i = .step v (.requestVoteResp resp)
  · obtain ⟨v, resp, rfl⟩ := hvote
    have hstep : r.run (.step v (.requestVoteResp resp)) = r.step v (.requestVoteResp resp) := rfl
    rcases step_cases r v (.requestVoteResp resp) with ⟨hv, _, heq⟩ | ⟨_, heq⟩
    · rw [hstep, heq] at hpre ⊢
      exact polled_handleVoteResp hv hpre
    · rw [hstep, heq] at hpre ⊢
      exact .same (fun h => by cases h.1) hpre rfl
  · have hkept := role_kept_run r htick fun v resp h => hvote ⟨v, resp, h⟩
    rcases hkept with ⟨hrole, _, hvotes⟩ | hrole
    · exact .same (fun h => htick h.1) (hrole.symm.trans hpre) hvotes
    · exact absurd (hrole.symm.trans hpre) (by simp)

/-- **Which calls make a member stand.** -/
theorem stood_run (hran : Ran r (r.run i)) : Stood i r := by
  by_cases htick : i = .tick
  · subst htick
    exact stood_tick hran
  by_cases hvote : ∃ v resp, i = .step v (.requestVoteResp resp)
  · obtain ⟨v, resp, rfl⟩ := hvote
    have hstep : r.run (.step v (.requestVoteResp resp)) = r.step v (.requestVoteResp resp) := rfl
    rcases step_cases r v (.requestVoteResp resp) with ⟨hv, _, heq⟩ | ⟨_, heq⟩
    · rw [hstep, heq] at hran
      exact stood_handleVoteResp hv hran
    · rw [hstep, heq] at hran
      exact absurd hran (not_ran_of_term rfl)
  · rcases role_kept_run r htick fun v resp h => hvote ⟨v, resp, h⟩ with ⟨_, hterm, _⟩ | hrole
    · exact absurd hran (not_ran_of_term hterm)
    · exact absurd hran (not_ran_of_follower hrole)

end FiduciaBrain.Raft
