import FiduciaBrain.Raft.WellFormed

/-!
# What moves never take back

Terms, commit points, bases and hand-outs only move forward, a committed entry stays in the log
until it is folded into a snapshot (`Move.progress`), and nothing durable changes without the dirty
flag (`Move.persistedSnapshot`).
-/

namespace FiduciaBrain.Raft

/-- The engine got from `r` to `r'` without taking anything back. -/
structure Progress (r r' : Raft) : Prop where
  id : r'.id = r.id
  peers : r'.peers = r.peers
  term_le : r.currentTerm ≤ r'.currentTerm
  commit_le : r.commitIndex ≤ r'.commitIndex
  base_le : r.baseIndex ≤ r'.baseIndex
  applied_le : r.lastApplied ≤ r'.lastApplied
  kept : ∀ e ∈ r.log, e.index ≤ r.commitIndex → r'.baseIndex < e.index → e ∈ r'.log

namespace Progress

theorem refl (r : Raft) : Progress r r where
  id := rfl
  peers := rfl
  term_le := Nat.le_refl _
  commit_le := Nat.le_refl _
  base_le := Nat.le_refl _
  applied_le := Nat.le_refl _
  kept := fun _ he _ _ => he

theorem trans {r s t : Raft} (h : Progress r s) (h' : Progress s t) : Progress r t where
  id := h'.id.trans h.id
  peers := h'.peers.trans h.peers
  term_le := h.term_le.trans h'.term_le
  commit_le := h.commit_le.trans h'.commit_le
  base_le := h.base_le.trans h'.base_le
  applied_le := h.applied_le.trans h'.applied_le
  kept := fun e he hc hb => h'.kept e (h.kept e he hc (Nat.lt_of_le_of_lt h'.base_le hb))
    (hc.trans h.commit_le) hb

/-- A move that only touches the term, the role, the vote or the bookkeeping. -/
theorem of_core {r r' : Raft} {c : Core} (hc : r'.core = c) (hid : c.id = r.id)
    (hpeers : c.peers = r.peers) (hterm : r.currentTerm ≤ c.currentTerm)
    (hcommit : r.commitIndex ≤ c.commitIndex) (hbase : r.baseIndex ≤ c.baseIndex)
    (happlied : r.lastApplied ≤ c.lastApplied)
    (hkept : ∀ e ∈ r.log, e.index ≤ r.commitIndex → c.baseIndex < e.index → e ∈ c.log) :
    Progress r r' := by
  subst hc
  exact ⟨hid, hpeers, hterm, hcommit, hbase, happlied, hkept⟩

end Progress

/-- **A move takes nothing back.** -/
theorem Move.progress {i : Input} {r r' : Raft} (h : r.WellFormed) (hm : Move i r r') :
    Progress r r' := by
  have hidx : ∀ {k : Nat} (hk : k < r.log.length), r.log[k].index = r.baseIndex + k + 1 :=
    fun hk => h.log_valid.index_eq hk
  have same : ∀ {c : Core}, r'.core = c → c.id = r.id → c.peers = r.peers →
      r.currentTerm ≤ c.currentTerm → c.commitIndex = r.commitIndex →
      c.baseIndex = r.baseIndex → c.lastApplied = r.lastApplied →
      (∀ e ∈ r.log, e ∈ c.log) → Progress r r' := fun hc h1 h2 h3 h4 h5 h6 h7 =>
    .of_core hc h1 h2 h3 h4.ge h5.ge h6.ge fun e he _ _ => h7 e he
  cases hm with
  | quiet hc _ => exact same hc rfl rfl (Nat.le_refl _) rfl rfl rfl fun _ he => he
  | follow t hc _ =>
    rcases Nat.lt_or_ge r.currentTerm t with hlt | hle
    · exact same (hc.trans (Core.follow_of_lt hlt)) rfl rfl hlt.le rfl rfl rfl fun _ he => he
    · exact same (hc.trans (Core.follow_of_le hle)) rfl rfl (Nat.le_refl _) rfl rfl rfl
        fun _ he => he
  | poll _ heq =>
    exact same (heq ▸ core_poll r) rfl rfl (Nat.le_refl _) rfl rfl rfl fun _ he => he
  | stand _ heq =>
    exact same (heq ▸ core_stand r) rfl rfl (Nat.le_succ _) rfl rfl rfl fun _ he => he
  | tally v resp _ _ _ heq =>
    exact same (congrArg core heq) rfl rfl (Nat.le_refl _) rfl rfl rfl fun _ he => he
  | lead _ _ heq =>
    exact same (heq ▸ core_becomeLeader r) rfl rfl (Nat.le_refl _) rfl rfl rfl
      fun _ he => List.mem_append_left _ he
  | grant _ _ _ _ _ _ _ _ hc _ =>
    exact same hc rfl rfl (Nat.le_refl _) rfl rfl rfl fun _ he => he
  | append l req g _ _ _ hcont _ _ htook hc _ =>
    obtain ⟨d, hcore⟩ := core_took htook
      (min req.leaderCommit (req.prevLogIndex + req.entries.length))
    refine .of_core (hc.trans hcore) rfl rfl (Nat.le_refl _) (Nat.le_max_left _ _) (Nat.le_refl _)
      (Nat.le_refl _) fun e he hcommit _ => ?_
    rcases htook with ⟨_, rfl⟩ | ⟨pre, x, post, _, _, _, hci, _, rfl⟩
    · exact he
    · -- the loop cuts the log above the commit point
      obtain ⟨k, hk, rfl⟩ := List.getElem_of_mem he
      rw [hidx hk] at hcommit
      refine List.mem_append_left _ (List.mem_take_iff_getElem.mpr ⟨k, ?_, rfl⟩)
      omega
  | covered _ _ _ _ _ _ _ hc _ =>
    exact same hc rfl rfl (Nat.le_refl _) rfl rfl rfl fun _ he => he
  | install l req _ _ _ _ hbase hcommit hc _ =>
    refine .of_core hc rfl rfl (Nat.le_refl _) (Nat.le_max_left _ _) hbase.le
      (h.applied_le.trans hcommit.le) fun e _ he hb => ?_
    exact absurd (Nat.lt_of_le_of_lt he hcommit) (Nat.not_lt.mpr (Nat.le_of_lt hb))
  | matched _ _ _ _ _ _ hc _ =>
    exact same hc rfl rfl (Nat.le_refl _) rfl rfl rfl fun _ he => he
  | advance n _ hlt _ _ _ heq =>
    exact .of_core (congrArg core heq) rfl rfl (Nat.le_refl _) hlt.le (Nat.le_refl _)
      (Nat.le_refl _) fun _ he _ _ => he
  | push _ _ _ heq =>
    exact same (congrArg core heq) rfl rfl (Nat.le_refl _) rfl rfl rfl
      fun _ he => List.mem_append_left _ he
  | compact index snapshot _ hbase hcommit heq =>
    rw [Raft.compact, if_neg (by omega)] at heq
    refine .of_core (congrArg core heq) rfl rfl (Nat.le_refl _) (Nat.le_refl _) hbase.le
      (Nat.le_refl _) fun e he _ hb => ?_
    obtain ⟨k, hk, rfl⟩ := List.getElem_of_mem he
    have hb' : index < r.log[k].index := hb
    rw [hidx hk] at hb'
    refine List.mem_drop_iff_getElem.mpr ⟨k - (index - r.baseIndex), by omega, ?_⟩
    congr 1
    omega

/-- A live entry that was committed before was live before. -/
theorem Progress.mem_of_committed {r r' : Raft} (hp : Progress r r') (h : r.WellFormed)
    (h' : r'.WellFormed) {e : LogEntry} (he : e ∈ r'.log) (hc : e.index ≤ r.commitIndex) :
    e ∈ r.log := by
  obtain ⟨k, hk, rfl⟩ := List.getElem_of_mem he
  have hbase := hp.base_le
  have hlast : r.commitIndex ≤ r.baseIndex + r.log.length := h.commit_le_last
  have hindex := h'.log_valid.index_eq hk
  obtain ⟨n, hn⟩ : ∃ n, n = r'.log[k].index - r.baseIndex - 1 := ⟨_, rfl⟩
  have hslot : n < r.log.length := by omega
  have hold := h.log_valid.index_eq hslot
  -- it was kept, and an index names one entry
  have hkept := hp.kept _ (List.getElem_mem hslot) (by omega) (by omega)
  obtain ⟨k', hk', heq⟩ := List.getElem_of_mem hkept
  have hindex' := h'.log_valid.index_eq hk'
  obtain rfl : k' = k := by
    rw [heq] at hindex'
    omega
  rw [heq]
  exact List.getElem_mem hslot

/-! ## Durability -/

/-- A move that leaves the engine clean changed nothing durable. -/
theorem Move.persistedSnapshot {i : Input} {r r' : Raft} (hm : Move i r r')
    (hclean : r'.dirty = false) :
    r.dirty = false ∧ r'.persistedSnapshot = r.persistedSnapshot := by
  have dirty : ∀ {c : Core}, r'.core = c → c.dirty = true → r.dirty = false ∧
      r'.persistedSnapshot = r.persistedSnapshot := fun hc hd =>
    absurd (hclean.symm.trans ((congrArg Core.dirty hc).trans hd)) (by decide)
  have clean : ∀ {c : Core}, r'.core = c → c.dirty = r.dirty →
      c.currentTerm = r.currentTerm → c.votedFor = r.votedFor → c.commitIndex = r.commitIndex →
      c.log = r.log → c.baseIndex = r.baseIndex → c.baseTerm = r.baseTerm →
      c.snapshot = r.snapshot → r.dirty = false ∧
      r'.persistedSnapshot = r.persistedSnapshot := by
    intro c hc hd h1 h2 h3 h4 h5 h6 h7
    subst hc
    refine ⟨hd.symm.trans hclean, ?_⟩
    simp only [core] at h1 h2 h3 h4 h5 h6 h7
    simp only [Raft.persistedSnapshot, h1, h2, h3, h4, h5, h6, h7]
  cases hm with
  | quiet hc _ => exact clean hc rfl rfl rfl rfl rfl rfl rfl rfl
  | follow t hc _ =>
    rcases Nat.lt_or_ge r.currentTerm t with hlt | hle
    · exact dirty (hc.trans (Core.follow_of_lt hlt)) rfl
    · exact clean (hc.trans (Core.follow_of_le hle)) rfl rfl rfl rfl rfl rfl rfl rfl
  | poll _ heq => exact clean (heq ▸ core_poll r) rfl rfl rfl rfl rfl rfl rfl rfl
  | stand _ heq => exact dirty (heq ▸ core_stand r) rfl
  | tally _ _ _ _ _ heq => exact clean (congrArg core heq) rfl rfl rfl rfl rfl rfl rfl rfl
  | lead _ _ heq => exact dirty (heq ▸ core_becomeLeader r) rfl
  | grant _ _ _ _ _ _ _ _ hc _ => exact dirty hc rfl
  | append l req g _ _ _ _ _ _ htook hc _ =>
    unfold commitThrough at hc
    split at hc
    · exact dirty hc rfl
    · rcases htook with ⟨_, rfl⟩ | ⟨pre, x, post, _, _, _, _, _, rfl⟩
      · exact clean hc rfl rfl rfl rfl rfl rfl rfl rfl
      · exact dirty hc rfl
  | covered _ _ _ _ _ _ _ hc _ => exact clean hc rfl rfl rfl rfl rfl rfl rfl rfl
  | install _ _ _ _ _ _ _ _ hc _ => exact dirty hc rfl
  | matched _ _ _ _ _ _ hc _ => exact clean hc rfl rfl rfl rfl rfl rfl rfl rfl
  | advance _ _ _ _ _ _ heq => exact dirty (congrArg core heq) rfl
  | push _ _ _ heq => exact dirty (congrArg core heq) rfl
  | compact index snapshot _ hbase hcommit heq =>
    rw [Raft.compact, if_neg (by omega)] at heq
    exact dirty (congrArg core heq) rfl

end FiduciaBrain.Raft
