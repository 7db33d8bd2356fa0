import FiduciaBrain.Group.Rejoin

/-!
# A majority is enough

From any reachable state, with the rest of the group silent for good, a majority can elect a leader,
bring itself up to date, and commit a new command at every one of its members: `majority_recovers`.
-/

namespace FiduciaBrain.Group

open Infra TermLog Raft

variable {G : Group} {Q : Finset NodeId} {s : State} {c q : NodeId}

section

variable (hQ : ∀ q ∈ Q, q ∈ G.members) (hr : G.system.Reachable s)

include hQ hr

/-! ## Appends that cannot be refused -/

omit hQ in
/-- A member the leader knows holds its log as far as the leader knows. -/
theorem Attached.holds (hc : c ∈ G.members) (hq : q ∈ G.members) (hne : q ≠ c)
    (hrole : (s.node c).engine.role = .leader) {m : Nat} (h : Attached s c q m) :
    m ≤ (s.node q).engine.lastIndex ∧ m ≤ (s.node c).engine.lastIndex ∧
      (s.node q).engine.termAt m = (s.node c).engine.termAt m := by
  obtain ⟨a, ha, hsa⟩ := simulation.reachable hr
  have hnc := hsa.node c hc
  have hnq := hsa.node q hq
  have hack := (hnc.mirrors.leader hrole).2 q (mem_engine_peers hr hc hq hne)
  rw [show (s.node c).engine.core.matchIndex q = some m from h.matchIndex, Option.getD_some] at hack
  obtain ⟨hle, hin⟩ := hnq.prefix_of_acked (inv_of_reachable ha) hnc hrole h.term hack
  have hlen : m ≤ (a.log q).length := by
    have := hin.length_le
    rwa [List.length_take_of_le hle] at this
  refine ⟨hnq.holds.length ▸ hlen, hnc.holds.length ▸ hle, ?_⟩
  rw [hnq.holds.termAt h.base hlen, hnc.holds.termAt h.covered hle,
    take_eq_of_le hin (by rw [List.length_take_of_le hle]), List.take_take, Nat.min_self]

/-- It takes what comes next, whatever commit point comes with it. -/
theorem exists_taken (hG : 2 ≤ G.members.length) (hc : c ∈ Q) (hq : q ∈ Q) (hne : q ≠ c)
    (hrole : (s.node c).engine.role = .leader) (hceil : (s.node c).engine.lastIndex ≤ u64Max)
    {m commit : Nat} (h : Attached s c q m)
    (hmsg : s.InNet c q (.appendEntries
      { (s.node c).engine.appendRequest (m + 1) with leaderCommit := commit })) :
    ∃ s' resp, Within Q s s' ∧ (∀ p, p ≠ q → s'.node p = s.node p) ∧
      (s'.node q).engine.currentTerm = (s.node c).engine.currentTerm ∧
      (s'.node q).engine.baseIndex = (s.node q).engine.baseIndex ∧
      (s'.node q).engine.commitIndex =
        max (s.node q).engine.commitIndex (min commit (s.node c).engine.lastIndex) ∧
      resp.term = (s.node c).engine.currentTerm ∧ resp.success = true ∧
      resp.matchIndex = (s.node c).engine.lastIndex ∧ s'.InNet q c (.appendEntriesResp resp) := by
  obtain ⟨hmq, hmc, hat⟩ := h.holds hr (hQ c hc) (hQ q hq) hne hrole
  have hranged := ranged_of_leader hr hG (hQ c hc) hrole hceil
  have hb : (s.node c).engine.baseIndex < m + 1 := Nat.lt_succ_of_le h.covered
  have hend := length_appendRequest hb (Nat.succ_le_succ hmc)
  obtain ⟨t, resp, hst, hothers, hterm, hrterm, hbase, hans, hanswer⟩ := exists_answer hQ hr hc hq
    hne hmsg (engine_peers hr (hQ c hc)).1 (hranged.request_contiguous hb (Nat.succ_le_succ hmc) _)
    h.term.le h.base
  cases hans with
  | short _ hshort _ => exact absurd hmq (Nat.not_le.mpr hshort)
  | differs _ _ _ hdiff _ => exact absurd hat hdiff
  | taken hyes hmatch hcommit =>
    have hm : resp.matchIndex = (s.node c).engine.lastIndex := hmatch.trans hend
    rw [hm] at hcommit
    exact ⟨t, resp, hst, hothers, hterm, hbase, hcommit, hrterm, hyes, hm, hanswer⟩

/-- The leader counts the answer, and tells everybody if that commits more. -/
theorem exists_confirmed (hG : 2 ≤ G.members.length) (hc : c ∈ Q) (hq : q ∈ Q) (hne : q ≠ c)
    (hrole : (s.node c).engine.role = .leader) (hceil : (s.node c).engine.lastIndex < u64Max)
    {m commit : Nat} (h : Attached s c q m)
    (hmsg : s.InNet c q (.appendEntries
      { (s.node c).engine.appendRequest (m + 1) with leaderCommit := commit })) :
    ∃ s', Within Q s s' ∧ (∀ p, p ≠ q → p ≠ c → s'.node p = s.node p) ∧
      Served q (s.node c).engine (s'.node c).engine ∧
      Attached s' c q (s.node c).engine.lastIndex ∧
      ((s'.node c).engine.commitIndex = (s.node c).engine.commitIndex ∨
        ∀ p ∈ G.members, p ≠ c → ∀ n, (s'.node c).engine.nextIndex p = some n →
          (s'.node c).engine.baseIndex < n →
          s'.InNet c p (.appendEntries ((s'.node c).engine.appendRequest n))) := by
  obtain ⟨-, hmc, -⟩ := h.holds hr (hQ c hc) (hQ q hq) hne hrole
  obtain ⟨t, resp, hst, hothers, hterm, hbase, -, hrterm, hyes, hmatch, hanswer⟩ :=
    exists_taken hQ hr hG hc hq hne hrole hceil.le h hmsg
  obtain ⟨u, htu, hact⟩ := exists_deliver hQ (hst.reachable hQ hr) hanswer hq hc hne rfl
  rw [hothers c hne.symm, show (s.node c).engine.handle q (.appendEntriesResp resp) =
    (s.node c).engine.handleAppendResp q resp from rfl] at hact
  have hnoted := noted_append (p := q) hrole hrterm hyes
  have hmax : max (min resp.matchIndex (s.node c).engine.lastIndex)
      (((s.node c).engine.matchIndex q).getD 0) = (s.node c).engine.lastIndex := by
    rw [hmatch, h.matchIndex, Option.getD_some]
    omega
  generalize (s.node c).engine.handleAppendResp q resp = g at hact hnoted
  have hengine := hact.engine
  have hserved : Served q (s.node c).engine (u.node c).engine := hengine ▸ hnoted.toServed.ready
  have huq : u.node q = t.node q := hact.others q hne
  refine ⟨u, hst.trans htu, fun p hp hp' => (hact.others p hp').trans (hothers p hp), hserved,
    ⟨?_, ?_, ?_, ?_, ?_⟩, ?_⟩
  · rw [hengine, ← hmax]
    exact hnoted.matchIndex
  · rw [hengine]
    refine hnoted.nextIndex.trans ?_
    rw [hmax]
    exact congrArg some (Nat.min_eq_left hceil)
  · rw [hserved.baseIndex]
    exact Nat.le_add_right _ _
  · rw [huq, hterm, hserved.currentTerm]
  · rw [huq, hbase]
    exact h.base.trans hmc
  · rcases hnoted.announced with hsame | hall
    · left
      rw [hengine]
      exact hsame
    · right
      intro p hp hpc n hn hb
      rw [hengine] at hn hb ⊢
      refine hact.sent ⟨p, _⟩ (hall p ?_ n hn hb)
      rw [hnoted.peers]
      exact mem_engine_peers hr (hQ c hc) hp hpc

/-! ## The commit -/

/-- The leader has told `q` that everything up to `i` is committed. -/
def Told (s : State) (c q : NodeId) (i : Nat) : Prop :=
  ∃ m commit, i ≤ commit ∧ Attached s c q m ∧ s.InNet c q (.appendEntries
    { (s.node c).engine.appendRequest (m + 1) with leaderCommit := commit })

/-- Members that the leader has told nothing of `i` yet; those in `V` are known to hold it. -/
def Pending (s : State) (c : NodeId) (i : Nat) (Q V : Finset NodeId) : Prop :=
  (s.node c).engine.commitIndex < i ∧ ∀ q ∈ Q, q ≠ c → ∃ m, Attached s c q m ∧ (q ∈ V → m = i) ∧
    (q ∉ V → ∃ commit, s.InNet c q (.appendEntries
      { (s.node c).engine.appendRequest (m + 1) with leaderCommit := commit }))

/-- One more confirmation leaves the commit point where it is or tells everybody. -/
theorem exists_counted (hG : 2 ≤ G.members.length) (hc : c ∈ Q)
    (hrole : (s.node c).engine.role = .leader) (hceil : (s.node c).engine.lastIndex < u64Max)
    {V : Finset NodeId} {v : NodeId} (hv : v ∈ Q) (hne : v ≠ c) (hvV : v ∉ V)
    (h : Pending s c (s.node c).engine.lastIndex Q V) :
    ∃ s', Within Q s s' ∧ Steady (s.node c).engine (s'.node c).engine ∧
      (Pending s' c (s.node c).engine.lastIndex Q (insert v V) ∨
        (s.node c).engine.lastIndex ≤ (s'.node c).engine.commitIndex ∧
          ∀ q ∈ Q, q ≠ c → Told s' c q (s.node c).engine.lastIndex) := by
  obtain ⟨hcommit, hall⟩ := h
  obtain ⟨m, hatt, -, hmsg⟩ := hall v hv hne
  obtain ⟨commit, hmsg⟩ := hmsg hvV
  obtain ⟨t, hst, hsame, hserved, hattv, hnews⟩ :=
    exists_confirmed hQ hr hG hc hv hne hrole hceil hatt hmsg
  refine ⟨t, hst, hserved.toSteady, ?_⟩
  rcases Nat.lt_or_ge (t.node c).engine.commitIndex (s.node c).engine.lastIndex with hlt | hge
  · refine Or.inl ⟨hlt, fun q hq hqc => ?_⟩
    rcases eq_or_ne q v with rfl | hqv
    · exact ⟨_, hattv, fun _ => rfl, fun hno => absurd (Finset.mem_insert_self q V) hno⟩
    · obtain ⟨m', hatt', hin, hout⟩ := hall q hq hqc
      refine ⟨m', hatt'.mono hserved hqv (hsame q hqv hqc),
        fun hqV => hin (Finset.mem_of_mem_insert_of_ne hqV hqv), fun hqV => ?_⟩
      rw [Finset.mem_insert, not_or] at hqV
      obtain ⟨commit', hmsg'⟩ := hout hqV.2
      rw [← hserved.appendRequest] at hmsg'
      exact ⟨commit', hmsg'.mono hst.net⟩
  · right
    refine ⟨hge, fun q hq hqc => ?_⟩
    have htold : ∀ m', Attached t c q m' → Told t c q (s.node c).engine.lastIndex := by
      intro m' hatt'
      refine ⟨m', (t.node c).engine.commitIndex, hge, hatt', ?_⟩
      rcases hnews with hsame | hnews
      · omega
      · exact hnews q (hQ q hq) hqc _ hatt'.nextIndex (Nat.lt_succ_of_le hatt'.covered)
    rcases eq_or_ne q v with rfl | hqv
    · exact htold _ hattv
    · obtain ⟨m', hatt', -⟩ := hall q hq hqc
      exact htold m' (hatt'.mono hserved hqv (hsame q hqv hqc))

/-- With a majority's confirmations the leader's last entry is committed and everybody told. -/
theorem exists_committed (hG : 2 ≤ G.members.length) (hmaj : G.members.length < 2 * Q.card)
    (hc : c ∈ Q) (hrole : (s.node c).engine.role = .leader)
    (hceil : (s.node c).engine.lastIndex < u64Max) {e : LogEntry} (he : e ∈ (s.node c).engine.log)
    (hlast : e.index = (s.node c).engine.lastIndex) (hterm : e.term = (s.node c).engine.currentTerm)
    (h : Pending s c (s.node c).engine.lastIndex Q ∅) :
    ∃ s', Within Q s s' ∧ Steady (s.node c).engine (s'.node c).engine ∧
      (s.node c).engine.lastIndex ≤ (s'.node c).engine.commitIndex ∧
      ∀ q ∈ Q, q ≠ c → Told s' c q (s.node c).engine.lastIndex := by
  suffices hall : ∃ t, Within Q s t ∧ Steady (s.node c).engine (t.node c).engine ∧
      (Pending t c (s.node c).engine.lastIndex Q (Q.erase c) ∨
        (s.node c).engine.lastIndex ≤ (t.node c).engine.commitIndex ∧
          ∀ q ∈ Q, q ≠ c → Told t c q (s.node c).engine.lastIndex) by
    obtain ⟨t, hst, hsteady, ⟨hless, hheld⟩ | hdone⟩ := hall
    · -- nothing a majority holds is left uncommitted
      exfalso
      have hrt := hst.reachable hQ hr
      have hsettled := (quiescent_of_reachable hrt (hQ c hc) hG).settled
        (hsteady.role.trans hrole) e (hsteady.log ▸ he) (hlast ▸ hless)
        (hterm.trans hsteady.currentTerm.symm)
      have hcard := card_lt_replicaCount (r := (t.node c).engine) (A := Q.erase c)
        (i := e.index) fun q hq => by
          obtain ⟨hqc, hqQ⟩ := Finset.mem_erase.mp hq
          obtain ⟨m, hatt, hin, -⟩ := hheld q hqQ hqc
          refine ⟨mem_engine_peers hrt (hQ c hc) (hQ q hqQ) hqc, ?_⟩
          rw [hatt.matchIndex, Option.getD_some, hin hq, hlast]
      rw [Finset.card_erase_of_mem hc] at hcard
      rw [engine_quorum hrt (hQ c hc)] at hsettled
      omega
    · exact ⟨t, hst, hsteady, hdone⟩
  refine Within.each (I := fun V t => Steady (s.node c).engine (t.node c).engine ∧
      (Pending t c (s.node c).engine.lastIndex Q V ∨
        (s.node c).engine.lastIndex ≤ (t.node c).engine.commitIndex ∧
          ∀ q ∈ Q, q ≠ c → Told t c q (s.node c).engine.lastIndex)) hQ ?_ hr ⟨.refl _, Or.inl h⟩
  rintro V v t hvA hvV hrt ⟨hsteady, hpending | hdone⟩
  · obtain ⟨hne, hv⟩ := Finset.mem_erase.mp hvA
    rw [← hsteady.lastIndex] at hpending hceil ⊢
    obtain ⟨u, htu, hsteadyu, hu⟩ := exists_counted hQ hrt hG hc (hsteady.role.trans hrole) hceil
      hv hne hvV hpending
    exact ⟨u, htu, hsteady.trans hsteadyu, hu⟩
  · exact ⟨t, .refl t, hsteady, Or.inr hdone⟩

/-- Whoever is told commits. -/
theorem exists_informed (hG : 2 ≤ G.members.length) (hc : c ∈ Q)
    (hrole : (s.node c).engine.role = .leader) (hceil : (s.node c).engine.lastIndex ≤ u64Max)
    {i : Nat} (hi : i ≤ (s.node c).engine.lastIndex) (h : ∀ q ∈ Q, q ≠ c → Told s c q i) :
    ∃ s', Within Q s s' ∧ s'.node c = s.node c ∧
      ∀ q ∈ Q, q ≠ c → i ≤ (s'.node q).engine.commitIndex := by
  suffices hall : ∃ t, Within Q s t ∧ t.node c = s.node c ∧ s.net ⊆ t.net ∧
      ∀ q ∈ Q, q ≠ c → (q ∈ Q.erase c → i ≤ (t.node q).engine.commitIndex) ∧
        (q ∉ Q.erase c → t.node q = s.node q) by
    obtain ⟨t, hst, hsame, -, hdone⟩ := hall
    exact ⟨t, hst, hsame, fun q hq hqc => (hdone q hq hqc).1 (Finset.mem_erase.mpr ⟨hqc, hq⟩)⟩
  refine Within.each (I := fun V t => t.node c = s.node c ∧ s.net ⊆ t.net ∧
      ∀ q ∈ Q, q ≠ c → (q ∈ V → i ≤ (t.node q).engine.commitIndex) ∧
        (q ∉ V → t.node q = s.node q)) hQ ?_ hr
    ⟨rfl, List.Subset.refl _, fun q _ _ => ⟨fun hno => absurd hno (Finset.notMem_empty q), fun _ => rfl⟩⟩
  rintro V v t hvA hvV hrt ⟨hsame, hnet, hall⟩
  obtain ⟨hne, hv⟩ := Finset.mem_erase.mp hvA
  have hvn := (hall v hv hne).2 hvV
  obtain ⟨m, commit, hcommit, hatt, hmsg⟩ := h v hv hne
  have hatt' : Attached t c v m :=
    { matchIndex := by rw [hsame]; exact hatt.matchIndex
      nextIndex := by rw [hsame]; exact hatt.nextIndex
      covered := by rw [hsame]; exact hatt.covered
      term := by rw [hsame, hvn]; exact hatt.term
      base := by rw [hvn]; exact hatt.base }
  have hmsg' : t.InNet c v (.appendEntries
      { (t.node c).engine.appendRequest (m + 1) with leaderCommit := commit }) := by
    rw [hsame]
    exact hmsg.mono hnet
  obtain ⟨u, resp, htu, hothers, -, -, hnew, -⟩ := exists_taken hQ hrt hG hc hv hne
    (by rw [hsame]; exact hrole) (by rw [hsame]; exact hceil) hatt' hmsg'
  refine ⟨u, htu, (hothers c hne.symm).trans hsame, List.Subset.trans hnet htu.net,
    fun q hq hqc => ⟨fun hqV => ?_, fun hqV => ?_⟩⟩
  · rcases eq_or_ne q v with rfl | hqv
    · rw [hnew, hsame]
      omega
    · rw [hothers q hqv]
      exact (hall q hq hqc).1 (Finset.mem_of_mem_insert_of_ne hqV hqv)
  · rw [Finset.mem_insert, not_or] at hqV
    rw [hothers q hqV.1]
    exact (hall q hq hqc).2 hqV.2

end

/-! ## Recovery -/

/-- A leader in step with everybody takes a proposal. -/
theorem pending_propose (hQ : ∀ q ∈ Q, q ∈ G.members) (hr : G.system.Reachable s)
    (hG : 2 ≤ G.members.length) (hc : c ∈ Q) (hrole : (s.node c).engine.role = .leader)
    (h : ∀ q ∈ Q, q ≠ c → ∃ m, Attached s c q m) (cmd : Command) :
    ((s.node c).engine.propose cmd).1 = .ok ((s.node c).engine.lastIndex + 1) ∧
      ((s.act c (.propose cmd) []).node c).engine.role = .leader ∧
      ((s.act c (.propose cmd) []).node c).engine.currentTerm = (s.node c).engine.currentTerm ∧
      ((s.act c (.propose cmd) []).node c).engine.baseIndex = (s.node c).engine.baseIndex ∧
      ((s.act c (.propose cmd) []).node c).engine.log = (s.node c).engine.log ++
        [proposed s c cmd ((s.node c).engine.lastIndex + 1)] ∧
      Pending (s.act c (.propose cmd) []) c ((s.node c).engine.lastIndex + 1) Q ∅ := by
  obtain ⟨hok, hnext, hmatch, hsent⟩ := propose_offers hrole cmd
  have hquiet := quiescent_of_reachable hr (hQ c hc) hG
  obtain ⟨hstalled, -⟩ := hquiet.stalled (c := .input (.propose cmd)) trivial
  have hact : Acted s c ((s.node c).engine.propose cmd).2 (s.act c (.propose cmd) []) :=
    acted_act (i := .propose cmd) (engine_peers hr (hQ c hc)).1
  have hengine := hact.engine
  obtain ⟨-, -, _, hcore⟩ := propose_ok hok
  have hlog : ((s.node c).engine.propose cmd).2.log = (s.node c).engine.log ++
      [proposed s c cmd ((s.node c).engine.lastIndex + 1)] := congrArg Core.log hcore
  have hcommit : ((s.node c).engine.propose cmd).2.commitIndex =
      (s.node c).engine.commitIndex := hstalled.commit
  refine ⟨hok, ?_, ?_, ?_, ?_, ?_, fun q hq hne => ?_⟩
  · rw [hengine]
    exact (congrArg Core.role hcore).trans hrole
  · rw [hengine]
    exact hstalled.term
  · rw [hengine]
    exact hstalled.base
  · rw [hengine]
    exact hlog
  · rw [hengine]
    exact hcommit ▸ Nat.lt_succ_of_le hquiet.wellFormed.commit_le_last
  · obtain ⟨m, hatt⟩ := h q hq hne
    refine ⟨m, ⟨?_, ?_, ?_, ?_, ?_⟩, fun hno => absurd hno (Finset.notMem_empty q), fun _ =>
      ⟨((s.node c).engine.propose cmd).2.commitIndex, ?_⟩⟩
    · rw [hengine]
      exact (congrFun hmatch q).trans hatt.matchIndex
    · rw [hengine]
      exact (congrFun hnext q).trans hatt.nextIndex
    · rw [hengine]
      exact (show ((s.node c).engine.propose cmd).2.baseIndex = _ from hstalled.base).le.trans
        hatt.covered
    · rw [hact.others q hne, hengine]
      exact hatt.term.trans hstalled.term.symm
    · rw [hact.others q hne]
      exact hatt.base
    · rw [hengine]
      exact hact.sent _ (hsent q (mem_engine_peers hr (hQ c hc) (hQ q hq) hne) _ hatt.nextIndex
        (Nat.lt_succ_of_le hatt.covered))

/--
**A majority is enough.** Take any reachable state of a group of two or more, and any majority `Q`
of its members with room in their logs. By ticks, restarts and deliveries among `Q` alone the group
comes to a leader that takes a proposal, and from there, again within `Q` alone, to a state in which
the test of `await_commit` passes and every member of `Q` has committed the command.
-/
theorem majority_recovers (hr : G.system.Reachable s) (hG : 2 ≤ G.members.length)
    (hQ : ∀ q ∈ Q, q ∈ G.members) (hmaj : G.members.length < 2 * Q.card)
    (hroom : ∀ q ∈ Q, (s.node q).engine.lastIndex + 3 ≤ u64Max) (cmd : Command) :
    ∃ s₁ c i s₂, Within Q s s₁ ∧ c ∈ Q ∧ ((s₁.node c).engine.propose cmd).1 = .ok i ∧
      Within Q (s₁.act c (.propose cmd) []) s₂ ∧
      (s₂.node c).engine.currentTerm = (s₁.node c).engine.currentTerm ∧
      ∀ q ∈ Q, i ≤ (s₂.node q).engine.commitIndex ∧
        (s₂.node q).history[i - 1]? = some (proposed s₁ c cmd i) := by
  obtain ⟨t, c, hst, hc, hrole, hlast, hb, hcon⟩ := exists_elected hQ hr hG hmaj
  have hspace := hroom c hc
  have hrt := hst.reachable hQ hr
  obtain ⟨u, htu, hsteady, hatt⟩ := exists_all_attached hQ hrt hG hc hrole (by omega) hb hcon
  have hru := htu.reachable hQ hrt
  have hlastu := hsteady.lastIndex
  obtain ⟨hok, hrole', hterm', hbase', hlog', hpending⟩ :=
    pending_propose hQ hru hG hc (hsteady.role.trans hrole) hatt cmd
  have hrp := hru.step (Step.propose u c cmd (hQ c hc))
  have hlast' : ((u.act c (.propose cmd) []).node c).engine.lastIndex =
      (u.node c).engine.lastIndex + 1 := by
    rw [Raft.lastIndex, hbase', hlog', List.length_append, List.length_singleton, Raft.lastIndex]
    omega
  rw [← hlast'] at hpending
  obtain ⟨w, huw, hsteadyw, hcommit, htold⟩ := exists_committed hQ hrp hG hmaj hc hrole' (by omega)
    (e := proposed u c cmd ((u.node c).engine.lastIndex + 1))
    (by rw [hlog']; exact List.mem_append_right _ (List.mem_singleton.mpr rfl)) hlast'.symm
    hterm'.symm hpending
  obtain ⟨x, hwx, hsame, hdone⟩ := exists_informed hQ (huw.reachable hQ hrp) hG hc
    (hsteadyw.role.trans hrole') (by rw [hsteadyw.lastIndex]; omega) hsteadyw.lastIndex.ge htold
  rw [hlast'] at hcommit hdone
  have hall : ∀ q ∈ Q, (u.node c).engine.lastIndex + 1 ≤ (x.node q).engine.commitIndex := by
    intro q hq
    rcases eq_or_ne q c with rfl | hne
    · rw [hsame]
      exact hcommit
    · exact hdone q hq hne
  refine ⟨u, c, _, x, hst.trans htu, hc, hok, huw.trans hwx, ?_, fun q hq => ⟨hall q hq, ?_⟩⟩
  · rw [hsame, hsteadyw.currentTerm, hterm']
  obtain ⟨a, ha, hsa⟩ := simulation.reachable ((huw.trans hwx).reachable hQ hrp)
  have hinv := inv_of_reachable ha
  have hnc := hsa.node c (hQ c hc)
  have hnq := hsa.node q (hQ q hq)
  -- what the leader has committed is in everybody's committed prefix
  have htake := hnq.mirrors.take_eq_of_committed hinv hnq.wellFormed
    (hnc.committed hinv (hall c hc)) (by
      rw [List.length_take_of_le ((hall c hc).trans hnc.commit_le)]
      exact hall q hq)
  rw [List.length_take_of_le ((hall c hc).trans hnc.commit_le)] at htake
  have hentry : (x.node c).engine.entryAt ((u.node c).engine.lastIndex + 1) =
      some (proposed u c cmd ((u.node c).engine.lastIndex + 1)) := by
    refine entryAt_eq_some.mpr ?_
    rw [hsame, hsteadyw.baseIndex, hsteadyw.log, hbase', hlog', Raft.lastIndex]
    refine ⟨by omega, ?_⟩
    rw [show (u.node c).engine.baseIndex + (u.node c).engine.log.length + 1 -
      (u.node c).engine.baseIndex - 1 = (u.node c).engine.log.length by omega]
    exact List.getElem?_concat_length
  rw [hnc.holds.entryAt (entryAt_eq_some.mp hentry).1] at hentry
  rw [hnq.history, ← List.getElem?_take_of_lt (Nat.sub_lt (Nat.succ_pos _) Nat.one_pos), htake,
    List.getElem?_take_of_lt (Nat.sub_lt (Nat.succ_pos _) Nat.one_pos)]
  exact hentry

/-- Members `x`, `y` and `z`. -/
def trio : Group where
  members := ["x", "y", "z"]
  nodup := by decide
  peers n := ["x", "y", "z"].erase n
  peers_perm := fun _ _ => List.Perm.refl _
  cfg _ := { heartbeatTicks := 3, electionMinTicks := 10, electionMaxTicks := 20 }

/-- `y` and `z` need nothing of `x`. -/
theorem majority_recovers_trio :
    let s : State := { node := trio.freshNode fun _ => 7, net := [] }
    ∃ s₁ c i s₂, Within {"y", "z"} s s₁ ∧ c ∈ ({"y", "z"} : Finset NodeId) ∧
      ((s₁.node c).engine.propose forgetNode9).1 = .ok i ∧
      Within {"y", "z"} (s₁.act c (.propose forgetNode9) []) s₂ ∧
      (s₂.node c).engine.currentTerm = (s₁.node c).engine.currentTerm ∧
      ∀ q ∈ ({"y", "z"} : Finset NodeId), i ≤ (s₂.node q).engine.commitIndex ∧
        (s₂.node q).history[i - 1]? = some (proposed s₁ c forgetNode9 i) :=
  majority_recovers (G := trio) (.of_init ⟨fun _ => 7, rfl⟩) (by decide) (by decide) (by decide)
    (by decide +kernel) forgetNode9

end FiduciaBrain.Group
