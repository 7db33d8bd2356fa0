import FiduciaBrain.Raft.Leader
import FiduciaBrain.Raft.Run

/-!
# A leader's replication tables

`Books` bounds the two tables of a leader and the snapshots it has on the way, whatever arrives:
`Books.run`. That a peer's `nextIndex` lies above its `matchIndex` (`Ordered`) is another matter: a
refusal rewinds `nextIndex` without looking at `matchIndex`, so `Ordered` survives the refusals that
are `Orderly` and no others (`ordered_rewound_iff`).
-/

namespace FiduciaBrain.Raft

variable {r r' : Raft} {i : Input}

/-- A leader's tables cover its peers and stay inside its log. -/
structure Books (r : Raft) : Prop where
  tables : r.role = .leader → ∀ p ∈ r.peers, ∃ m n, r.matchIndex p = some m ∧
    r.nextIndex p = some n ∧ m ≤ r.lastIndex ∧ 1 ≤ n ∧ n ≤ r.lastIndex + 1
  inflight : r.role = .leader → ∀ p i, r.snapshotInflight p = some i → i ≤ r.baseIndex

/-- Nothing is sent again that is acknowledged. -/
def Ordered (r : Raft) : Prop :=
  r.role = .leader → ∀ p ∈ r.peers, ∀ m n, r.matchIndex p = some m → r.nextIndex p = some n → m < n

/-- Every acknowledgement is still on record. -/
def Grown (r r' : Raft) : Prop :=
  ∀ p m, r.matchIndex p = some m → ∃ m', r'.matchIndex p = some m' ∧ m ≤ m'

theorem Grown.refl (r : Raft) : Grown r r := fun _ m hm => ⟨m, hm, Nat.le_refl _⟩

theorem Grown.of_eq (h : r'.matchIndex = r.matchIndex) : Grown r r' :=
  fun _ m hm => ⟨m, by rw [h]; exact hm, Nat.le_refl _⟩

theorem Grown.trans {s t : Raft} (h : Grown r s) (h' : Grown s t) : Grown r t := by
  intro p m hm
  obtain ⟨m', hm', hle⟩ := h p m hm
  obtain ⟨m'', hm'', hle'⟩ := h' p m' hm'
  exact ⟨m'', hm'', hle.trans hle'⟩

/-! ## What a call leaves of the tables -/

/-- A call that keeps the lead moves at most one peer's row. -/
inductive Rows (i : Input) (r r' : Raft) : Prop
  | same : r'.matchIndex = r.matchIndex → r'.nextIndex = r.nextIndex → Rows i r r'
  | acknowledged (p : NodeId) (matched : Nat) : p ∈ r.peers → (r.matchIndex p).getD 0 ≤ matched →
      matched ≤ max r.lastIndex (max ((r.snapshotInflight p).getD 0) ((r.matchIndex p).getD 0)) →
      r'.matchIndex = Function.update r.matchIndex p (some matched) →
      r'.nextIndex = Function.update r.nextIndex p (some (saturatingAdd matched 1)) →
      Rows i r r'
  | rewound (p : NodeId) (resp : AppendEntriesResp) : i = .step p (.appendEntriesResp resp) →
      p ∈ r.peers → resp.term = r.currentTerm → resp.success = false →
      r'.matchIndex = r.matchIndex →
      r'.nextIndex = Function.update r.nextIndex p (some (r.rewound p resp.matchIndex)) →
      Rows i r r'

/-- A call a leader survives as one: its rows, its log, and the snapshots on their way. -/
structure Stayed (i : Input) (r r' : Raft) : Prop where
  rows : Rows i r r'
  role : r'.role = r.role
  peers : r'.peers = r.peers
  term : r'.currentTerm = r.currentTerm
  last_le : r.lastIndex ≤ r'.lastIndex
  base_le : r.baseIndex ≤ r'.baseIndex
  shipped : Shipped r r'

theorem Stayed.of_core (hrows : Rows i r r') (hc : r'.core = r.core) (hs : Shipped r r') :
    Stayed i r r' where
  rows := hrows
  role := congrArg Core.role hc
  peers := congrArg Core.peers hc
  term := congrArg Core.currentTerm hc
  last_le := (congrArg Core.lastIndex hc).ge
  base_le := (congrArg Core.baseIndex hc).ge
  shipped := hs

/-- **A leader either stays one, with at most a row changed, or follows.** -/
theorem stayed_or_follows (h : r.WellFormed) (hl : r.role = .leader) (i : Input) :
    Stayed i r (r.run i) ∨ (r.run i).role = .follower := by
  have same : ∀ {r'}, r'.core = r.core → r'.office.nextIndex = r.nextIndex → Rows i r r' :=
    fun hc ho => .same (congrArg Core.matchIndex hc) ho
  cases leader_run hl i with
  | ignored hc ho hs => exact .inl (.of_core (same hc (congrArg Office.nextIndex ho)) hc (.of_eq hs))
  | beat _ _ hc ho hs => exact .inl (.of_core (same hc (congrArg Office.nextIndex ho)) hc hs)
  | kept _ _ _ _ _ hc ho hs =>
    exact .inl (.of_core (same hc (congrArg Office.nextIndex ho)) hc hs)
  | deposed _ _ _ hc =>
    refine .inr ((congrArg Core.role hc).trans ?_)
    rw [Core.follow_of_le (c := r.core) (Nat.le_refl r.currentTerm)]
  | resigned _ _ _ _ hrole => exact .inr hrole
  | voted c req _ _ _ hc hn hs =>
    exact .inl
      { rows := .same (congrArg Core.matchIndex hc) hn
        role := congrArg Core.role hc
        peers := congrArg Core.peers hc
        term := congrArg Core.currentTerm hc
        last_le := (congrArg Core.lastIndex hc).ge
        base_le := (congrArg Core.baseIndex hc).ge
        shipped := .of_eq hs }
  | refused _ _ _ _ _ _ hc ho hs =>
    exact .inl (.of_core (same hc (congrArg Office.nextIndex ho)) hc (.of_eq hs))
  | acknowledged p msg n _ hp _ _ hn hc ho hs =>
    obtain ⟨d, hcore⟩ := core_maybeAdvanceCommit (r.noteMatch p n)
    have hc' := hc.trans hcore
    exact .inl
      { rows := .acknowledged p (max n ((r.matchIndex p).getD 0)) hp (Nat.le_max_right _ _)
          (by omega) (congrArg Core.matchIndex hc') (congrArg Office.nextIndex ho)
        role := congrArg Core.role hc'
        peers := congrArg Core.peers hc'
        term := congrArg Core.currentTerm hc'
        last_le := (congrArg Core.lastIndex hc').ge
        base_le := (congrArg Core.baseIndex hc').ge
        shipped := hs }
  | rewound p resp hi hp hterm hfail hc ho hs =>
    exact .inl (.of_core (.rewound p resp hi hp hterm hfail (congrArg Core.matchIndex hc)
      (congrArg Office.nextIndex ho)) hc hs)
  | proposed c _ hc ho hs =>
    obtain ⟨d, hcore⟩ := core_maybeAdvanceCommit (r.pushEntry (some c))
    have hc' := hc.trans hcore
    have hlast : (r.run i).lastIndex = (r.pushEntry (some c)).lastIndex :=
      congrArg Core.lastIndex hc'
    exact .inl
      { rows := .same (congrArg Core.matchIndex hc') (congrArg Office.nextIndex ho)
        role := congrArg Core.role hc'
        peers := congrArg Core.peers hc'
        term := congrArg Core.currentTerm hc'
        last_le := by
          rw [hlast]
          simp [lastIndex, pushEntry]
        base_le := (congrArg Core.baseIndex hc').ge
        shipped := hs }
  | compacted index snapshot _ hb hcommit heq =>
    have hlast := h.commit_le_last
    rw [heq, compact, if_neg (by omega)]
    refine .inl
      { rows := .same rfl rfl
        role := rfl
        peers := rfl
        term := rfl
        last_le := ?_
        base_le := hb.le
        shipped := .of_eq rfl }
    simp only [lastIndex, List.length_drop] at hlast ⊢
    omega

/-! ## A fresh leader -/

theorem Elected.eq_becomeLeader (h : Elected i r r') : ∃ s : Raft, r' = s.becomeLeader := by
  cases h with
  | tally _ _ _ _ _ _ _ _ _ heq => exact ⟨_, heq⟩
  | alone _ _ _ _ _ _ heq => exact ⟨_, heq⟩

theorem lastIndex_becomeLeader (r : Raft) : r.becomeLeader.lastIndex = r.lastIndex + 1 := by
  refine (congrArg Core.lastIndex (core_becomeLeader r)).trans ?_
  simp only [Core.lastIndex, List.length_append, List.length_singleton]
  rfl

theorem Elected.lastIndex {i : Input} (h : Elected i r r') : r'.lastIndex = r.lastIndex + 1 := by
  cases h with
  | tally v _ _ _ _ _ _ _ _ heq =>
    rw [heq]
    exact lastIndex_becomeLeader { r with votes := insert v r.votes }
  | alone s _ _ _ hcore _ heq =>
    rw [heq, lastIndex_becomeLeader]
    have hstand : s.stand.lastIndex = s.lastIndex := congrArg Core.lastIndex (core_stand s)
    have hs : s.lastIndex = r.lastIndex := congrArg Core.lastIndex hcore
    omega

theorem Elected.peers {i : Input} (h : Elected i r r') : r'.peers = r.peers := by
  cases h with
  | tally v _ _ _ _ _ _ _ _ heq =>
    rw [heq]
    exact congrArg Core.peers (core_becomeLeader _)
  | alone s _ _ _ hcore _ heq =>
    rw [heq]
    have hlead : s.stand.becomeLeader.peers = s.stand.peers :=
      congrArg Core.peers (core_becomeLeader _)
    have hstand : s.stand.peers = s.peers := congrArg Core.peers (core_stand s)
    have hs : s.peers = r.peers := congrArg Core.peers hcore
    rw [hlead, hstand, hs]

theorem books_becomeLeader (r : Raft) : r.becomeLeader.Books := by
  have hc := core_becomeLeader r
  have hlast := lastIndex_becomeLeader r
  have hpeers : r.becomeLeader.peers = r.peers := congrArg Core.peers hc
  have hmatch : r.becomeLeader.matchIndex = fun p => if p ∈ r.peers then some 0 else none :=
    congrArg Core.matchIndex hc
  obtain ⟨⟨timeout, _, ho⟩, hs⟩ := becomeLeader_frame r
  have hnext : r.becomeLeader.nextIndex =
      fun p => if p ∈ r.peers then some (r.lastIndex + 1) else none := congrArg Office.nextIndex ho
  constructor
  · intro _ p hp
    rw [hpeers] at hp
    refine ⟨0, r.lastIndex + 1, ?_, ?_, Nat.zero_le _, Nat.succ_pos _, ?_⟩
    · rw [hmatch]
      exact if_pos hp
    · rw [hnext]
      exact if_pos hp
    · omega
  · intro _ p x hx
    rw [hs p x hx]
    exact (congrArg Core.baseIndex hc).ge

theorem ordered_becomeLeader (r : Raft) : r.becomeLeader.Ordered := by
  have hc := core_becomeLeader r
  have hpeers : r.becomeLeader.peers = r.peers := congrArg Core.peers hc
  have hmatch : r.becomeLeader.matchIndex = fun p => if p ∈ r.peers then some 0 else none :=
    congrArg Core.matchIndex hc
  obtain ⟨⟨timeout, _, ho⟩, _⟩ := becomeLeader_frame r
  have hnext : r.becomeLeader.nextIndex =
      fun p => if p ∈ r.peers then some (r.lastIndex + 1) else none := congrArg Office.nextIndex ho
  intro _ p hp m n hm hn
  rw [hpeers] at hp
  rw [hmatch] at hm
  rw [hnext] at hn
  simp only [hp, if_true, Option.some.injEq] at hm hn
  omega

/-! ## The bounds -/

theorem saturatingAdd_le (a b : Nat) : saturatingAdd a b ≤ a + b := Nat.min_le_left _ _

theorem saturatingAdd_one_pos (a : Nat) : 1 ≤ saturatingAdd a 1 :=
  Nat.le_min.mpr ⟨Nat.le_add_left _ _, by decide⟩

theorem rewound_pos (r : Raft) (p : NodeId) (hint : Nat) (h : 1 ≤ (r.nextIndex p).getD 1) :
    1 ≤ r.rewound p hint := by
  unfold rewound
  simp only
  omega

theorem rewound_le (r : Raft) (p : NodeId) (hint : Nat) :
    r.rewound p hint ≤ (r.nextIndex p).getD 1 := Nat.min_le_left _ _

/-- A row's bounds after a call. -/
theorem Books.rows (hb : r.Books) (hl : r.role = .leader) (hst : Stayed i r r')
    {q : NodeId} (hq : q ∈ r'.peers) : ∃ m n, r'.matchIndex q = some m ∧ r'.nextIndex q = some n ∧
      m ≤ r'.lastIndex ∧ 1 ≤ n ∧ n ≤ r'.lastIndex + 1 := by
  rw [hst.peers] at hq
  have hlast := hst.last_le
  obtain ⟨m, n, hm, hn, hml, hn1, hnl⟩ := hb.tables hl q hq
  cases hst.rows with
  | same hmatch hnext =>
    rw [hmatch, hnext]
    exact ⟨m, n, hm, hn, hml.trans hlast, hn1, by omega⟩
  | acknowledged p matched hp _ hbound hmatch hnext =>
    rw [hmatch, hnext]
    rcases eq_or_ne q p with rfl | hne
    · have hsent : (r.snapshotInflight q).getD 0 ≤ r.lastIndex := by
        cases hs : r.snapshotInflight q with
        | none => exact Nat.zero_le _
        | some x =>
          have := hb.inflight hl q x hs
          simp only [Option.getD_some, lastIndex]
          omega
      have hadd := saturatingAdd_le matched 1
      rw [hm, Option.getD_some] at hbound
      refine ⟨matched, _, Function.update_self .., Function.update_self .., ?_,
        saturatingAdd_one_pos matched, ?_⟩
      · omega
      · omega
    · rw [Function.update_of_ne hne, Function.update_of_ne hne]
      exact ⟨m, n, hm, hn, hml.trans hlast, hn1, by omega⟩
  | rewound p resp _ hp _ _ hmatch hnext =>
    rw [hmatch, hnext]
    rcases eq_or_ne q p with rfl | hne
    · have hprev : (r.nextIndex q).getD 1 = n := by rw [hn, Option.getD_some]
      have hle := rewound_le r q resp.matchIndex
      refine ⟨m, _, hm, Function.update_self .., hml.trans hlast,
        rewound_pos r q resp.matchIndex (by omega), ?_⟩
      omega
    · rw [Function.update_of_ne hne]
      exact ⟨m, n, hm, hn, hml.trans hlast, hn1, by omega⟩

/-- **The bounds survive every call.** -/
theorem Books.run (h : r.WellFormed) (hb : r.Books) (i : Input) : (r.run i).Books := by
  by_cases hl : r.role = .leader
  · rcases stayed_or_follows h hl i with hst | hrole
    · refine ⟨fun _ p hp => hb.rows hl hst hp, fun _ p x hx => ?_⟩
      have hbase := hst.base_le
      rcases hst.shipped p x hx with hx | rfl
      · exact (hb.inflight hl p x hx).trans hbase
      · exact hbase
    · exact ⟨fun hl' => absurd (hrole.symm.trans hl') (by simp),
        fun hl' => absurd (hrole.symm.trans hl') (by simp)⟩
  · by_cases hl' : (r.run i).role = .leader
    · obtain ⟨s, heq⟩ := (elected_run hl hl').eq_becomeLeader
      rw [heq]
      exact books_becomeLeader s
    · exact ⟨fun h => absurd h hl', fun h => absurd h hl'⟩

theorem Books.ready (hb : r.Books) : r.ready.2.Books := ⟨hb.tables, hb.inflight⟩

theorem role_new (id : NodeId) (peers : List NodeId) (cfg : RaftConfig) (seed : UInt64)
    (p : Persisted) : (Raft.new id peers cfg seed p).role = .follower := rfl

theorem books_new (id : NodeId) (peers : List NodeId) (cfg : RaftConfig) (seed : UInt64)
    (p : Persisted) : (Raft.new id peers cfg seed p).Books :=
  ⟨fun h => absurd ((role_new id peers cfg seed p).symm.trans h) (by simp),
    fun h => absurd ((role_new id peers cfg seed p).symm.trans h) (by simp)⟩

/-- **Within one leadership no acknowledgement is forgotten.** -/
theorem grown_run (h : r.WellFormed) (hl : r.role = .leader)
    (hl' : (r.run i).role = .leader) : Grown r (r.run i) := by
  rcases stayed_or_follows h hl i with hst | hrole
  · cases hst.rows with
    | same hmatch _ => exact .of_eq hmatch
    | acknowledged p matched hp hle _ hmatch _ =>
      intro q m hm
      rw [hmatch]
      rcases eq_or_ne q p with rfl | hne
      · exact ⟨matched, Function.update_self .., by rwa [hm, Option.getD_some] at hle⟩
      · exact ⟨m, by rw [Function.update_of_ne hne]; exact hm, Nat.le_refl _⟩
    | rewound p resp _ _ _ _ hmatch _ => exact .of_eq hmatch
  · exact absurd (hrole.symm.trans hl') (by simp)

/-! ## The order -/

/-- A refusal that does not ask for what its sender acknowledged: there is nothing to rewind, or
it hints at no less than the match and leaves room above it. -/
def Orderly (r : Raft) : Input → Prop
  | .step p (.appendEntriesResp resp) => r.role = .leader → p ∈ r.peers →
      resp.term = r.currentTerm → resp.success = false → (r.nextIndex p).getD 1 = 1 ∨
        (r.matchIndex p).getD 0 ≤ resp.matchIndex ∧
          (r.matchIndex p).getD 0 + 1 < (r.nextIndex p).getD 1
  | _ => True

instance (r : Raft) (i : Input) : Decidable (r.Orderly i) := by
  unfold Orderly
  split <;> infer_instance

/-- **Exactly the orderly refusals leave `nextIndex` above the match.** -/
theorem lt_rewound_iff {p : NodeId} {m n hint : Nat} (hn : r.nextIndex p = some n) (hmn : m < n)
    (hceil : n ≤ u64Max) :
    m < r.rewound p hint ↔ n = 1 ∨ m ≤ hint ∧ m + 1 < n := by
  unfold rewound
  simp only [hn, Option.getD_some, saturatingAdd]
  omega

/-- **The order survives orderly calls.** -/
theorem Ordered.run (h : r.WellFormed) (hb : r.Books) (ho : r.Ordered) (hi : r.Orderly i)
    (hceil : (r.run i).lastIndex < u64Max) : (r.run i).Ordered := by
  intro hl' q hq m' n' hm' hn'
  by_cases hl : r.role = .leader
  · rcases stayed_or_follows h hl i with hst | hrole
    · rw [hst.peers] at hq
      have hlast := hst.last_le
      obtain ⟨m, n, hm, hn, hml, hn1, hnl⟩ := hb.tables hl q hq
      have hmn := ho hl q hq m n hm hn
      cases hst.rows with
      | same hmatch hnext =>
        rw [hmatch, hm] at hm'
        rw [hnext, hn] at hn'
        cases hm'
        cases hn'
        exact hmn
      | acknowledged p matched hp _ _ hmatch hnext =>
        rcases eq_or_ne q p with rfl | hne
        · -- the acknowledged index is in the log, and that ends below the ceiling
          obtain ⟨m₁, n₁, hm₁, _, hle, _, _⟩ := hb.rows hl hst (hst.peers ▸ hq)
          rw [hm'] at hm₁
          cases hm₁
          rw [hmatch, Function.update_self] at hm'
          rw [hnext, Function.update_self] at hn'
          cases hm'
          cases hn'
          simp only [saturatingAdd]
          omega
        · rw [hmatch, Function.update_of_ne hne, hm] at hm'
          rw [hnext, Function.update_of_ne hne, hn] at hn'
          cases hm'
          cases hn'
          exact hmn
      | rewound p resp hin hp hterm hfail hmatch hnext =>
        rw [hmatch, hm] at hm'
        cases hm'
        rcases eq_or_ne q p with rfl | hne
        · rw [hnext, Function.update_self] at hn'
          cases hn'
          subst hin
          have hok := hi hl hp hterm hfail
          rw [hm, hn, Option.getD_some, Option.getD_some] at hok
          exact (lt_rewound_iff hn hmn (by omega)).mpr hok
        · rw [hnext, Function.update_of_ne hne, hn] at hn'
          cases hn'
          exact hmn
    · exact absurd (hrole.symm.trans hl') (by simp)
  · obtain ⟨s, heq⟩ := (elected_run hl hl').eq_becomeLeader
    rw [heq] at hl' hq hm' hn'
    exact ordered_becomeLeader s hl' q hq m' n' hm' hn'

end FiduciaBrain.Raft
