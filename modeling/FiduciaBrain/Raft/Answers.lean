import FiduciaBrain.Raft.Run

/-!
# What an answer commits a member to

A success answer to an append or to a snapshot acknowledges the log up to an index, and a granted
vote binds the member for its term. `Persisted.Backs` says that a durable state holds what an answer
commits to. The durable state of the engine does when the engine gives the answer (`backs_run`).
-/

namespace FiduciaBrain

/-- Every entry up to `n` that `taken` has, in the log or folded into the snapshot. -/
def Persisted.Contains (p taken : Persisted) (n : Nat) : Prop :=
  ∀ j ≤ n, 0 < j → j ≤ p.baseIndex ∨ ∃ e ∈ taken.log, e.index = j ∧ e ∈ p.log

instance (p taken : Persisted) (n : Nat) : Decidable (p.Contains taken n) := by
  unfold Persisted.Contains
  infer_instance

/-- `p` holds what `a` commits its sender to, who had `taken` when it gave the answer. -/
def Persisted.Backs (p taken : Persisted) (a : Addressed) : Prop :=
  match a.msg with
  | .appendEntriesResp resp => resp.success = true → p.Contains taken resp.matchIndex
  | .installSnapshotResp resp => resp.success = true → p.Contains taken resp.lastIncludedIndex
  | .requestVoteResp resp => resp.granted = true → resp.preVote = false →
    p.currentTerm = resp.term ∧ p.votedFor = some a.recipient
  | .requestVote _ | .appendEntries _ | .installSnapshot _ => True

instance (p taken : Persisted) (a : Addressed) : Decidable (p.Backs taken a) := by
  unfold Persisted.Backs
  split <;> infer_instance

/-- Does the message commit its sender to anything? -/
def RaftMessage.commits : RaftMessage → Bool
  | .appendEntriesResp resp => resp.success
  | .installSnapshotResp resp => resp.success
  | .requestVoteResp resp => resp.granted && !resp.preVote
  | .requestVote _ | .appendEntries _ | .installSnapshot _ => false

theorem Persisted.backs_of_not_commits {p taken : Persisted} {a : Addressed}
    (h : a.msg.commits = false) : p.Backs taken a := by
  unfold Persisted.Backs
  split <;> next heq => simp_all [RaftMessage.commits]

namespace Raft

variable {i : Input} {r r' : Raft}

/-- A well-formed engine has every entry up to the end of its log. -/
theorem contains_of_le (h : r.WellFormed) {n : Nat} (hn : n ≤ r.lastIndex) :
    r.persistedSnapshot.Contains r.persistedSnapshot n := by
  intro j hj hpos
  rcases Nat.lt_or_ge r.baseIndex j with hlt | hle
  · have hlast : r.lastIndex = r.baseIndex + r.log.length := rfl
    have hslot : j - r.baseIndex - 1 < r.log.length := by omega
    refine .inr ⟨_, List.getElem_mem hslot, ?_, List.getElem_mem hslot⟩
    have hindex := h.log_valid.index_eq hslot
    show r.log[j - r.baseIndex - 1].index = j
    omega
  · exact .inl hle

/-! ## Acknowledgements -/

/-- The index that a request asks the member to acknowledge. -/
def Input.proved : Input → Nat
  | .step _ (.appendEntries req) => req.prevLogIndex + req.entries.length
  | .step _ (.installSnapshot req) => req.lastIncludedIndex
  | _ => 0

/-- All that the outbox acknowledges is what the input asks for and in the log. -/
def Acknowledging (i : Input) (r : Raft) : Prop :=
  ∀ a ∈ r.out, ∀ t n, Acknowledges t n a.msg → n ≤ i.proved ∧ n ≤ r.lastIndex

/-- A granted vote of a real election. -/
def RealVote (msg : RaftMessage) : Prop :=
  ∃ resp, msg = .requestVoteResp resp ∧ resp.granted = true ∧ resp.preVote = false

theorem Acknowledges.commits {msg : RaftMessage} {t n : Nat} (h : Acknowledges t n msg) :
    msg.commits = true := by
  cases h with
  | append hs _ _ => exact hs
  | snapshot hs _ _ => exact hs

theorem RealVote.commits {msg : RaftMessage} (h : RealVote msg) : msg.commits = true := by
  obtain ⟨resp, rfl, hgranted, hreal⟩ := h
  simp [RaftMessage.commits, hgranted, hreal]

theorem Replication.commits {msg : RaftMessage} (h : Replication r msg) : msg.commits = false := by
  cases h <;> rfl

theorem Idle.commits {msg : RaftMessage} (h : Idle r msg) : msg.commits = false := by
  cases h with
  | replication _ hrep => exact hrep.commits
  | poll _ => rfl
  | denied hd =>
    simp only [RaftMessage.commits, Bool.and_eq_false_iff, Bool.not_eq_false']
    exact Bool.eq_false_or_eq_true _ |>.symm.imp_right hd
  | refused hr => exact hr
  | declined hr => exact hr

/-- What a move adds to the outbox: nothing that commits the member to anything, a vote, or an
acknowledgement of what is in its log. -/
inductive Speaks (i : Input) (r r' : Raft) : Prop
  | idle : r.lastIndex ≤ r'.lastIndex →
      (∀ a ∈ r'.out, a ∈ r.out ∨ a.msg.commits = false) → Speaks i r r'
  | vote (c : NodeId) (req : RequestVoteReq) (resp : RequestVoteResp) :
      i = .step c (.requestVote req) → r.lastIndex ≤ r'.lastIndex →
      r'.out = r.out ++ [⟨c, .requestVoteResp resp⟩] → Speaks i r r'
  | acknowledgement (l : NodeId) (msg : RaftMessage) : ¬ RealVote msg →
      r.lastIndex ≤ r'.lastIndex ∨ i.proved ≤ r'.lastIndex →
      (∀ t n, Acknowledges t n msg → n ≤ i.proved ∧ n ≤ r'.lastIndex) →
      r'.out = r.out ++ [⟨l, msg⟩] → Speaks i r r'

/-- **What a move says.** -/
theorem Move.speaks (h : r.WellFormed) (hm : Move i r r') : Speaks i r r' := by
  have hlast : r.lastIndex = r.baseIndex + r.log.length := rfl
  have hlast' : r'.lastIndex = r'.baseIndex + r'.log.length := rfl
  have last : ∀ {c : Core}, r'.core = c → c.lastIndex = r'.lastIndex := by
    rintro c rfl
    rfl
  have silent : r.lastIndex ≤ r'.lastIndex → r'.out = r.out → Speaks i r r' :=
    fun hle hout => .idle hle (fun a hmem => .inl (hout ▸ hmem))
  cases hm with
  | quiet hc hout =>
    exact .idle (last hc).le (fun a hmem => (hout a hmem).imp_right Idle.commits)
  | follow t hc hout =>
    refine silent (le_of_eq ?_) hout
    rw [← last hc]
    unfold Core.follow
    split <;> rfl
  | poll _ heq =>
    have hcore := core_poll r
    rw [← heq] at hcore
    refine .idle (last hcore).le (fun a hmem => (mem_out_poll (heq ▸ hmem)).imp_right ?_)
    rintro ⟨req, hreq, -⟩
    rw [hreq]
    rfl
  | stand _ heq =>
    have hcore := core_stand r
    rw [← heq] at hcore
    refine .idle (last hcore).le (fun a hmem => (mem_out_stand (heq ▸ hmem)).imp_right ?_)
    intro hreq
    rw [hreq]
    rfl
  | tally _ _ _ _ _ heq =>
    subst heq
    exact silent (Nat.le_refl _) rfl
  | lead _ _ heq =>
    refine .idle ?_ (fun a hmem =>
      (mem_out_becomeLeader (heq ▸ hmem)).imp_right Replication.commits)
    rw [← last (heq ▸ core_becomeLeader r)]
    simp [Core.lastIndex, core, hlast]
  | grant c req hin _ _ _ _ _ hc hout => exact .vote c req _ hin (last hc).le hout
  | append l req g hin _ hterm hcont hprev hmatch htook hc hout =>
    obtain ⟨d, hcore⟩ := core_took htook
      (min req.leaderCommit (req.prevLogIndex + req.entries.length))
    obtain ⟨-, hlen, -⟩ := h.log_took hcont hterm hprev hmatch htook
    have hproved : i.proved = req.prevLogIndex + req.entries.length := by rw [hin, Input.proved]
    have hend : i.proved ≤ r'.lastIndex := by
      rw [hproved, ← last (hc.trans hcore)]
      exact hlen
    refine .acknowledgement l _ (by rintro ⟨resp, hresp, -⟩; cases hresp) (.inr hend) ?_ hout
    intro t n hack
    cases hack with
    | append _ _ hle => exact ⟨hproved ▸ hle, (hproved ▸ hle).trans hend⟩
  | covered l req hin _ _ _ hcov hc hout =>
    have hle : req.lastIncludedIndex ≤ r'.lastIndex := by
      have hbase : r'.lastIndex = r.lastIndex := (last hc).symm
      have hcommit := h.commit_le_last
      omega
    refine .acknowledgement l _ (by rintro ⟨resp, hresp, -⟩; cases hresp) (.inl (last hc).le) ?_ hout
    intro t n hack
    cases hack with
    | snapshot _ _ hn => exact ⟨by rw [hin]; exact hn, hn.trans hle⟩
  | install l req hin _ _ _ _ _ hc hout =>
    have hproved : i.proved = req.lastIncludedIndex := by rw [hin, Input.proved]
    have hend : i.proved ≤ r'.lastIndex := by
      rw [hproved, ← last hc]
      exact Nat.le_add_right _ _
    refine .acknowledgement l _ (by rintro ⟨resp, hresp, -⟩; cases hresp) (.inr hend) ?_ hout
    intro t n hack
    cases hack with
    | snapshot _ _ hn => exact ⟨hproved ▸ hn, (hproved ▸ hn).trans hend⟩
  | matched _ _ _ _ _ _ hc hout => exact silent (last hc).le hout
  | advance _ _ _ _ _ _ heq =>
    subst heq
    exact silent (Nat.le_refl _) rfl
  | push _ _ _ heq =>
    subst heq
    refine silent ?_ rfl
    simp [pushEntry, lastIndex]
  | compact index snapshot _ hbase hcommit heq =>
    rw [Raft.compact, if_neg (by omega)] at heq
    subst heq
    have hle := h.commit_le_last
    refine silent ?_ rfl
    simp only [lastIndex, List.length_drop]
    omega

theorem Move.acknowledging (h : r.WellFormed) (ha : Acknowledging i r) (hm : Move i r r') :
    Acknowledging i r' := by
  intro a hmem t n hack
  cases hm.speaks h with
  | idle hle hout =>
    rcases hout a hmem with hold | hnot
    · obtain ⟨h1, h2⟩ := ha a hold t n hack
      exact ⟨h1, h2.trans hle⟩
    · rw [hack.commits] at hnot
      cases hnot
  | vote c req resp _ hle hout =>
    rw [hout] at hmem
    rcases List.mem_append.mp hmem with hold | hone
    · obtain ⟨h1, h2⟩ := ha a hold t n hack
      exact ⟨h1, h2.trans hle⟩
    · rw [List.mem_singleton.mp hone] at hack
      cases hack
  | acknowledgement l msg _ hend hnew hout =>
    rw [hout] at hmem
    rcases List.mem_append.mp hmem with hold | hone
    · obtain ⟨h1, h2⟩ := ha a hold t n hack
      exact ⟨h1, by omega⟩
    · rw [List.mem_singleton.mp hone] at hack
      exact hnew t n hack

/-! ## Votes -/

/-- Only a request for a vote gets one. -/
theorem Move.no_vote (h : r.WellFormed) (hi : ∀ c req, i ≠ .step c (.requestVote req))
    (ha : ∀ a ∈ r.out, ¬ RealVote a.msg) (hm : Move i r r') : ∀ a ∈ r'.out, ¬ RealVote a.msg := by
  intro a hmem
  cases hm.speaks h with
  | idle _ hout =>
    rcases hout a hmem with hold | hnot
    · exact ha a hold
    · intro hvote
      rw [hvote.commits] at hnot
      cases hnot
  | vote c req _ hin => exact absurd hin (hi c req)
  | acknowledgement l msg hnot _ _ hout =>
    rw [hout] at hmem
    rcases List.mem_append.mp hmem with hold | hone
    · exact ha a hold
    · rwa [List.mem_singleton.mp hone]

/-- A vote is granted as the last thing the handler does. -/
theorem vote_handleRequestVote (hout : r.out = []) (c : NodeId) (req : RequestVoteReq) :
    ∀ a ∈ (r.handleRequestVote c req).out, ∀ resp, a.msg = .requestVoteResp resp →
      resp.granted = true → resp.preVote = false →
      (r.handleRequestVote c req).currentTerm = resp.term ∧
        (r.handleRequestVote c req).votedFor = some a.recipient := by
  have only : ∀ {s : Raft} {msg : RaftMessage} {a : Addressed}, s.out = [] →
      a ∈ (s.send c msg).out → a = ⟨c, msg⟩ := by
    intro s msg a hs ha
    rw [out_send, hs] at ha
    exact List.mem_singleton.mp ha
  unfold handleRequestVote
  simp only
  split
  · intro a ha resp hmsg hgranted
    rw [only hout ha] at hmsg
    cases hmsg
    cases hgranted
  · generalize hs : (if (!req.preVote && decide (req.term > r.currentTerm)) = true then
      r.becomeFollower req.term none else r) = s
    have hsout : s.out = [] := by
      rw [← hs]
      split
      · rw [out_becomeFollower, hout]
      · exact hout
    split
    · intro a ha resp hmsg hgranted
      rw [only hsout ha] at hmsg
      cases hmsg
      cases hgranted
    · split
      · next hpre =>
        intro a ha resp hmsg _ hreal
        rw [only hsout ha] at hmsg
        cases hmsg
        rw [hpre] at hreal
        cases hreal
      · split
        · intro a ha resp hmsg _ _
          have haddr := only (s := s.recordVote c) (by simpa [recordVote] using hsout) ha
          rw [haddr] at hmsg
          cases hmsg
          exact ⟨rfl, by rw [haddr]; rfl⟩
        · intro a ha resp hmsg hgranted
          rw [only hsout ha] at hmsg
          cases hmsg
          cases hgranted

/-! ## A call -/

theorem vote_run (h : r.WellFormed) (hout : r.out = []) (hadm : r.Admissible i) :
    ∀ a ∈ (r.run i).out, ∀ resp, a.msg = .requestVoteResp resp → resp.granted = true →
      resp.preVote = false →
      (r.run i).currentTerm = resp.term ∧ (r.run i).votedFor = some a.recipient := by
  by_cases hi : ∀ c req, i ≠ .step c (.requestVote req)
  · intro a ha resp hmsg hgranted hreal
    obtain ⟨-, hnone⟩ := run_preserves (P := fun s => ∀ a ∈ s.out, ¬ RealVote a.msg) h hadm
      (by simp [hout]) (fun s t hs hp hm => hm.no_vote hs hi hp)
    exact absurd ⟨resp, hmsg, hgranted, hreal⟩ (hnone a ha)
  · push Not at hi
    obtain ⟨c, req, rfl⟩ := hi
    have hrun : r.run (.step c (.requestVote req)) = r.step c (.requestVote req) := rfl
    rw [hrun, Raft.step]
    split
    · simp [hout]
    · exact vote_handleRequestVote hout c req

/-- **The engine's durable state backs the answers it gives.** -/
theorem backs_run (h : r.WellFormed) (hout : r.out = []) (ha : r.Admissible i) :
    ∀ a ∈ (r.run i).out, (r.run i).persistedSnapshot.Backs (r.run i).persistedSnapshot a := by
  obtain ⟨hwf, hack⟩ := run_preserves (P := Acknowledging i) h ha (by simp [Acknowledging, hout])
    (fun s t hs hp hm => hm.acknowledging hs hp)
  intro a hmem
  unfold Persisted.Backs
  split
  · next resp hmsg =>
    intro hs
    exact contains_of_le hwf (hack a hmem resp.term resp.matchIndex
      (hmsg ▸ .append hs rfl (Nat.le_refl _))).2
  · next resp hmsg =>
    intro hs
    exact contains_of_le hwf (hack a hmem resp.term resp.lastIncludedIndex
      (hmsg ▸ .snapshot hs rfl (Nat.le_refl _))).2
  · next resp hmsg => exact vote_run h hout ha a hmem resp hmsg
  all_goals trivial

end Raft

end FiduciaBrain
