import FiduciaBrain.Group.Elect
import FiduciaBrain.Group.MatchIndex

/-!
# A leader brings a member up to date

From the first offer on, leader and member exchange appends that are refused and retried from
further and further back, until one is taken or the member is sent a snapshot (`exists_attached`).
From then on an append is never refused again in that term.
-/

namespace FiduciaBrain.Group

open Infra TermLog Raft

variable {G : Group} {Q : Finset NodeId} {s : State} {c q : NodeId}

/-- The leader `c` knows where `q` is, and sends it what comes next. -/
structure Attached (s : State) (c q : NodeId) (m : Nat) : Prop where
  matchIndex : (s.node c).engine.matchIndex q = some m
  nextIndex : (s.node c).engine.nextIndex q = some (m + 1)
  covered : (s.node c).engine.baseIndex ≤ m
  term : (s.node q).engine.currentTerm = (s.node c).engine.currentTerm
  base : (s.node q).engine.baseIndex ≤ m

/-- What the leader hears from another member does not concern `q`. -/
theorem Attached.mono {m : Nat} (h : Attached s c q m) {s' : State} {p : NodeId}
    (hserved : Served p (s.node c).engine (s'.node c).engine) (hne : q ≠ p)
    (hsame : s'.node q = s.node q) : Attached s' c q m where
  matchIndex := (hserved.matched q hne).trans h.matchIndex
  nextIndex := (hserved.next q hne).trans h.nextIndex
  covered := hserved.baseIndex.le.trans h.covered
  term := by rw [hsame, hserved.currentTerm]; exact h.term
  base := by rw [hsame]; exact h.base

theorem Contacted.mono {next : Nat} (h : Contacted s c q next) {s' : State} {p : NodeId}
    (hserved : Served p (s.node c).engine (s'.node c).engine) (hne : q ≠ p)
    (hsame : s'.node q = s.node q) (hnet : s.net ⊆ s'.net)
    (hb : (s.node c).engine.baseIndex < next) : Contacted s' c q next where
  nextIndex := (hserved.next q hne).trans h.nextIndex
  offered := by
    obtain ⟨msg, hoffer, hmsg⟩ := h.offered
    cases hoffer with
    | append commit _ =>
      rw [← hserved.appendRequest] at hmsg
      exact ⟨_, .append commit (hserved.baseIndex ▸ hb), hmsg.mono hnet⟩
    | snapshot _ hle _ _ => exact absurd hb (Nat.not_lt.mpr hle)
  term := by rw [hsame, hserved.currentTerm]; exact h.term
  base := by rw [hsame]; exact h.base

section

variable (hQ : ∀ q ∈ Q, q ∈ G.members) (hr : G.system.Reachable s)

include hQ hr

/-! ## One append -/

omit hQ in
theorem ranged_of_leader (hG : 2 ≤ G.members.length) (hc : c ∈ G.members)
    (hrole : (s.node c).engine.role = .leader) (hceil : (s.node c).engine.lastIndex ≤ u64Max) :
    (s.node c).engine.Ranged := by
  have hquiet := quiescent_of_reachable hr hc hG
  exact hquiet.books.ranged hquiet.wellFormed hrole hceil

omit hQ in
/-- A member and an append on its way to it agree on what the member has committed. -/
theorem append_agrees (hq : q ∈ G.members) {req : AppendEntriesReq}
    (hmsg : s.InNet c q (.appendEntries req)) (hcont : entriesAreContiguous req = true)
    (hterm : (s.node q).engine.currentTerm ≤ req.term)
    (hbase : (s.node q).engine.baseIndex ≤ req.prevLogIndex) :
    (req.prevLogIndex ≤ (s.node q).engine.commitIndex →
      (s.node q).engine.termAt req.prevLogIndex = req.prevLogTerm) ∧
    ∀ e ∈ req.entries, e.index ≤ (s.node q).engine.commitIndex →
      (s.node q).engine.termAt e.index = e.term := by
  obtain ⟨a, ha, hsa⟩ := simulation.reachable hr
  obtain ⟨folded, hp⟩ := hmsg
  have hbacked := (hsa.net _ hp).backed
  have hnode := hsa.node q hq
  have hagrees := fun hcommit =>
    hnode.probe_agrees (inv_of_reachable ha) hbacked hterm hcommit hcont
  refine ⟨fun hcommit => (hagrees hcommit).1 hbase, fun e he hec => ?_⟩
  have hprev : req.prevLogIndex < e.index := by
    obtain ⟨_, _, hv⟩ := logValid_of_contiguous hcont
    obtain ⟨k, hk, rfl⟩ := List.getElem_of_mem he
    rw [hv.index_eq hk]
    omega
  exact (hagrees (by omega)).2 e he (by omega) hec

/-- An append that starts where a member can compare is delivered and answered. -/
theorem exists_answer (hc : c ∈ Q) (hq : q ∈ Q) (hne : q ≠ c) {req : AppendEntriesReq}
    (hmsg : s.InNet c q (.appendEntries req)) (hname : req.leaderId = c)
    (hcont : entriesAreContiguous req = true)
    (hterm : (s.node q).engine.currentTerm ≤ req.term)
    (hbase : (s.node q).engine.baseIndex ≤ req.prevLogIndex) :
    ∃ s' resp, Within Q s s' ∧ (∀ m, m ≠ q → s'.node m = s.node m) ∧
      (s'.node q).engine.currentTerm = req.term ∧ resp.term = req.term ∧
      (s'.node q).engine.baseIndex = (s.node q).engine.baseIndex ∧
      AppendAnswer (s.node q).engine (s'.node q).engine req resp ∧
      s'.InNet q c (.appendEntriesResp resp) := by
  obtain ⟨t, hst, hact⟩ := exists_deliver hQ hr hmsg hc hq hne.symm
    (by simp [bodyIdentityMatches, hname])
  obtain ⟨resp, hout, hrt, hct, hb, hans⟩ := handleAppend_answer (l := c)
    (engine_wellFormed hr (hQ q hq)) hterm hcont
    (append_agrees hr (hQ q hq) hmsg hcont hterm hbase).2
  have hengine : (t.node q).engine = ((s.node q).engine.handleAppend c req).ready.2 := hact.engine
  refine ⟨t, resp, hst, hact.others, ?_, hrt, ?_, ?_, hact.sent ⟨c, _⟩ ?_⟩
  · rw [hengine]
    exact hct
  · rw [hengine]
    exact hb
  · rw [hengine]
    cases hans with
    | short h1 h2 h3 => exact .short h1 h2 h3
    | differs h1 h2 h3 h4 h5 => exact .differs h1 h2 h3 h4 h5
    | taken h1 h2 h3 => exact .taken h1 h2 h3
  · show _ ∈ ((s.node q).engine.handleAppend c req).out
    rw [hout]
    exact List.mem_append_right _ (List.mem_singleton.mpr rfl)

/-! ## Until one is taken -/

/-- **A leader brings any member of its term up to date**, however far behind it is and whatever
it has at the end of its log. -/
theorem exists_attached (hG : 2 ≤ G.members.length) (hc : c ∈ Q) (hq : q ∈ Q) (hne : q ≠ c)
    (hrole : (s.node c).engine.role = .leader) (hceil : (s.node c).engine.lastIndex < u64Max)
    {next : Nat} (h : Contacted s c q next) :
    ∃ s' m, Within Q s s' ∧ (∀ p, p ≠ q → p ≠ c → s'.node p = s.node p) ∧
      Served q (s.node c).engine (s'.node c).engine ∧ Attached s' c q m := by
  -- by induction on where the offer starts
  induction next using Nat.strong_induction_on generalizing s with
  | _ next ih =>
    have hquiet := quiescent_of_reachable hr (hQ c hc) hG
    have hranged := ranged_of_leader hr hG (hQ c hc) hrole hceil.le
    have hid := (engine_peers hr (hQ c hc)).1
    obtain ⟨m, n, hm, hn, hml, hn1, hnl⟩ :=
      hquiet.books.tables hrole q (mem_engine_peers hr (hQ c hc) (hQ q hq) hne)
    obtain rfl : n = next := Option.some.inj (hn.symm.trans h.nextIndex)
    obtain ⟨msg, hoffer, hmsg⟩ := h.offered
    have hbase := h.base
    cases hoffer with
    | append commit hb =>
      obtain ⟨t, resp, hst, hothers, hterm, hrterm, hbq, hans, hanswer⟩ := exists_answer hQ hr hc hq
        hne hmsg hid (hranged.request_contiguous hb hnl commit) h.term
        (by show (s.node q).engine.baseIndex ≤ n - 1; omega)
      obtain ⟨u, htu, hact⟩ := exists_deliver hQ (hst.reachable hQ hr) hanswer hq hc hne rfl
      have hengine : (u.node c).engine =
          ((s.node c).engine.handleAppendResp q resp).ready.2 := by
        rw [hact.engine, hothers c hne.symm]
        rfl
      have huq : u.node q = t.node q := hact.others q hne
      have hsame : ∀ p, p ≠ q → p ≠ c → u.node p = s.node p := fun p hp hp' =>
        (hact.others p hp').trans (hothers p hp)
      -- a refusal starts another round
      have retry : resp.success = false →
          (s.node c).engine.rewound q resp.matchIndex < n →
          (s.node q).engine.baseIndex < (s.node c).engine.rewound q resp.matchIndex →
          ∃ s' m, Within Q s s' ∧ (∀ p, p ≠ q → p ≠ c → s'.node p = s.node p) ∧
            Served q (s.node c).engine (s'.node c).engine ∧ Attached s' c q m := by
        intro hno hlt hbr
        obtain ⟨hserved, hnext, msg', hoffer', hout⟩ :=
          served_refused hquiet.wellFormed hrole hrterm hno hn hlt
        have hservedu : Served q (s.node c).engine (u.node c).engine := hengine ▸ hserved.ready
        obtain ⟨v, m', huv, hrest, hservedv, hatt⟩ := ih _ hlt
          (htu.reachable hQ (hst.reachable hQ hr)) (hservedu.role.trans hrole)
          (by rw [hservedu.lastIndex]; exact hceil)
          { nextIndex := by rw [hengine]; exact hnext
            offered := ⟨msg', by rw [hengine]; exact hoffer'.ready, hact.sent ⟨q, msg'⟩ (by
              rw [hothers c hne.symm]
              exact hout)⟩
            term := by rw [huq, hterm, hservedu.currentTerm]; exact Nat.le_refl _
            base := by rw [huq, hbq]; exact hbr }
        exact ⟨v, m', (hst.trans htu).trans huv, fun p hp hp' => (hrest p hp hp').trans (hsame p hp hp'),
          hservedu.trans hservedv, hatt⟩
      have hrew : (s.node c).engine.rewound q resp.matchIndex =
          min n (min (max (saturatingAdd resp.matchIndex 1) 1) (max (n - 1) 1)) := by
        rw [rewound, hn]
        rfl
      cases hans with
      | short hno hshort hhint =>
        have hprev : (s.node q).engine.lastIndex < n - 1 := hshort
        have hsat : saturatingAdd resp.matchIndex 1 = (s.node q).engine.lastIndex + 1 := by
          rw [hhint]
          exact Nat.min_eq_left (by omega)
        have hbl : (s.node q).engine.baseIndex ≤ (s.node q).engine.lastIndex := Nat.le_add_right _ _
        exact retry hno (by omega) (by omega)
      | differs hno hpos hle hdiff hhint =>
        have hpos' : 0 < n - 1 := hpos
        have hhint' : resp.matchIndex = n - 1 - 1 := hhint
        have hsat : saturatingAdd resp.matchIndex 1 = n - 1 := by
          rw [hhint', show n - 1 = n - 1 - 1 + 1 by omega]
          exact Nat.min_eq_left (by omega)
        -- what is committed does not differ
        have hcommit : (s.node q).engine.commitIndex < n - 1 := by
          by_contra hle'
          exact hdiff ((append_agrees hr (hQ q hq) hmsg
            (hranged.request_contiguous hb hnl commit) h.term
            (by show (s.node q).engine.baseIndex ≤ n - 1; omega)).1 (Nat.not_lt.mp hle'))
        have hbc := (engine_wellFormed hr (hQ q hq)).base_le_commit
        exact retry hno (by omega) (by omega)
      | taken hyes hmatch _ =>
        have hend : resp.matchIndex = (s.node c).engine.lastIndex :=
          hmatch.trans (length_appendRequest hb hnl)
        have hnoted := noted_append (p := q) hrole hrterm hyes
        have hserved : Served q (s.node c).engine (u.node c).engine :=
          hengine ▸ hnoted.toServed.ready
        have hmax : max (min resp.matchIndex (s.node c).engine.lastIndex)
            (((s.node c).engine.matchIndex q).getD 0) = (s.node c).engine.lastIndex := by
          rw [hend, hm, Option.getD_some]
          omega
        refine ⟨u, (s.node c).engine.lastIndex, hst.trans htu, hsame, hserved, ?_, ?_, ?_, ?_, ?_⟩
        · rw [hengine, ← hmax]
          exact hnoted.matchIndex
        · rw [hengine]
          refine hnoted.nextIndex.trans ?_
          rw [hmax, saturatingAdd, Nat.min_eq_left hceil]
        · rw [hserved.baseIndex]
          exact Nat.le_add_right _ _
        · rw [huq, hterm, hserved.currentTerm]
          rfl
        · rw [huq, hbq]
          omega
    | snapshot data hb hsent hd =>
      obtain ⟨t, hst, hact⟩ := exists_deliver hQ hr hmsg hc hq hne.symm
        (by simp [bodyIdentityMatches, snapshotRequest, hid])
      have hmeta : snapshotMetadataIsValid ((s.node c).engine.snapshotRequest data) = true :=
        hranged.snapshot_passes hd
      obtain ⟨hout, hct, hbase'⟩ := handleInstallSnapshot_answer (r := (s.node q).engine) (l := c)
        h.term hmeta
      obtain ⟨u, htu, hact'⟩ := exists_deliver hQ (hst.reachable hQ hr)
        (hact.sent ⟨c, _⟩ (by
          show _ ∈ ((s.node q).engine.handleInstallSnapshot c _).out
          rw [hout]
          exact List.mem_append_right _ (List.mem_singleton.mpr rfl))) hq hc hne rfl
      have hengine : (u.node c).engine = ((s.node c).engine.handleInstallSnapshotResp q
          { term := (s.node c).engine.currentTerm
            success := true
            lastIncludedIndex := (s.node c).engine.baseIndex }).ready.2 := by
        rw [hact'.engine, hact.others c hne.symm]
        rfl
      have huq : (u.node q).engine = ((s.node q).engine.handleInstallSnapshot c
          ((s.node c).engine.snapshotRequest data)).ready.2 := by
        rw [hact'.others q hne, hact.engine]
        rfl
      let resp : InstallSnapshotResp :=
        { term := (s.node c).engine.currentTerm
          success := true
          lastIncludedIndex := (s.node c).engine.baseIndex }
      have hrterm : resp.term = (s.node c).engine.currentTerm := rfl
      have hnoted := noted_snapshot hrole hrterm rfl hsent
      have hserved : Served q (s.node c).engine (u.node c).engine :=
        hengine ▸ hnoted.toServed.ready
      have hmax : max (min (s.node c).engine.baseIndex (s.node c).engine.baseIndex)
          (((s.node c).engine.matchIndex q).getD 0) = max (s.node c).engine.baseIndex m := by
        rw [hm, Option.getD_some, Nat.min_self]
      have hbl : (s.node c).engine.baseIndex ≤ (s.node c).engine.lastIndex := Nat.le_add_right _ _
      have hbq : (u.node q).engine.baseIndex ≤
          max (s.node q).engine.baseIndex (s.node c).engine.baseIndex := by
        rw [huq]
        exact hbase'
      refine ⟨u, max (s.node c).engine.baseIndex m, hst.trans htu, fun p hp hp' =>
        (hact'.others p hp').trans (hact.others p hp), hserved, ?_, ?_, ?_, ?_, ?_⟩
      · rw [hengine, ← hmax]
        exact hnoted.matchIndex
      · rw [hengine]
        refine hnoted.nextIndex.trans ?_
        rw [hmax]
        exact congrArg some (Nat.min_eq_left (by omega))
      · rw [hserved.baseIndex]
        exact Nat.le_max_left _ _
      · rw [huq, hserved.currentTerm]
        exact hct
      · omega

/-- Every member that a leader has contacted is brought up to date. -/
theorem exists_all_attached (hG : 2 ≤ G.members.length) (hc : c ∈ Q)
    (hrole : (s.node c).engine.role = .leader) (hceil : (s.node c).engine.lastIndex < u64Max)
    {next : Nat} (hb : (s.node c).engine.baseIndex < next)
    (h : ∀ q ∈ Q, q ≠ c → Contacted s c q next) :
    ∃ s', Within Q s s' ∧ Steady (s.node c).engine (s'.node c).engine ∧
      ∀ q ∈ Q, q ≠ c → ∃ m, Attached s' c q m := by
  suffices hall : ∃ t, Within Q s t ∧ Steady (s.node c).engine (t.node c).engine ∧
      (∀ q ∈ Q.erase c, q ≠ c → ∃ m, Attached t c q m) ∧
      ∀ q ∈ Q, q ≠ c → q ∉ Q.erase c → Contacted t c q next by
    obtain ⟨t, hst, hsteady, hatt, -⟩ := hall
    exact ⟨t, hst, hsteady, fun q hq hne => hatt q (Finset.mem_erase.mpr ⟨hne, hq⟩) hne⟩
  refine Within.each (I := fun V t => Steady (s.node c).engine (t.node c).engine ∧
      (∀ q ∈ V, q ≠ c → ∃ m, Attached t c q m) ∧
      ∀ q ∈ Q, q ≠ c → q ∉ V → Contacted t c q next) hQ ?_ hr
    ⟨.refl _, by simp, fun q hq hne _ => h q hq hne⟩
  rintro V v t hvA hvV hrt ⟨hsteady, hatt, hcon⟩
  obtain ⟨hne, hv⟩ := Finset.mem_erase.mp hvA
  obtain ⟨u, m, htu, hsame, hserved, hm⟩ := exists_attached hQ hrt hG hc hv hne
    (hsteady.role.trans hrole) (hsteady.lastIndex ▸ hceil) (hcon v hv hne hvV)
  refine ⟨u, htu, hsteady.trans hserved.toSteady, fun q hq hqc => ?_, fun q hq hqc hqV => ?_⟩
  · rcases eq_or_ne q v with rfl | hqv
    · exact ⟨m, hm⟩
    · obtain ⟨m', hm'⟩ := hatt q (Finset.mem_of_mem_insert_of_ne hq hqv) hqc
      exact ⟨m', hm'.mono hserved hqv (hsame q hqv hqc)⟩
  · rw [Finset.mem_insert, not_or] at hqV
    exact (hcon q hq hqc hqV.2).mono hserved hqV.1 (hsame q hqV.1 hqc) htu.net
      (hsteady.baseIndex ▸ hb)

end

end FiduciaBrain.Group
