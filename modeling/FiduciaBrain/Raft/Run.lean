import FiduciaBrain.Raft.Progress
import FiduciaBrain.Infra.Transition

/-!
# Calls and runs of one engine

* `WellFormed.run`, `progress_run`: what every move keeps, a call keeps
* `persistedSnapshot_run`: a call that changes the durable state marks the engine dirty
* `rebased_run`: the base moves by compaction and by a leader's snapshot only
* `restore_run`, `lastApplied_run`: what is handed out moves forward past a leader's snapshot only
* `engineSystem`: an engine under arbitrary calls
-/

namespace FiduciaBrain.Raft

open Infra

/-! ## Calls -/

theorem Move.admissible {i : Input} {r r' : Raft} (h : r.WellFormed) (ha : r.Admissible i)
    (hm : Move i r r') : r'.Admissible i := by
  cases i with
  | compact index snapshot => exact ha.trans (hm.progress h).applied_le
  | _ => trivial

/-- **Call rule.** What every move from a well-formed state keeps, a call keeps. -/
theorem run_preserves {P : Raft → Prop} {i : Input} {r : Raft} (h : r.WellFormed)
    (ha : r.Admissible i) (hp : P r)
    (hmove : ∀ s t, s.WellFormed → P s → Move i s t → P t) :
    (r.run i).WellFormed ∧ P (r.run i) := by
  have hmoves := moves_run h.base_le_commit h.commit_le_last i
  have key := hmoves.preserves (P := fun s => (s.WellFormed ∧ s.Admissible i) ∧ P s)
    (fun s t hs hm => ⟨⟨hm.wellFormed hs.1.1 hs.1.2, hm.admissible hs.1.1 hs.1.2⟩,
      hmove s t hs.1.1 hs.2 hm⟩) ⟨⟨h, ha⟩, hp⟩
  exact ⟨key.1.1, key.2⟩

/-- **A call keeps the invariant.** -/
theorem WellFormed.run {r : Raft} (h : r.WellFormed) {i : Input} (ha : r.Admissible i) :
    (r.run i).WellFormed :=
  (run_preserves (P := fun _ => True) h ha trivial fun _ _ _ _ _ => trivial).1

theorem WellFormed.ready {r : Raft} (h : r.WellFormed) : r.ready.2.WellFormed := by
  have hmax : max r.lastApplied r.commitIndex = r.commitIndex := Nat.max_eq_right h.applied_le
  exact { h with
    base_le := h.base_le.trans (Nat.le_max_left _ _)
    applied_le := hmax.le }

theorem lastApplied_ready {r : Raft} (h : r.WellFormed) : r.ready.2.lastApplied = r.commitIndex :=
  Nat.max_eq_right h.applied_le

theorem appliedUpto_ready {r : Raft} (h : r.WellFormed) : r.ready.1.appliedUpto = r.commitIndex :=
  Nat.max_eq_right h.applied_le

/-- **A call takes nothing back.** -/
theorem progress_run {r : Raft} (h : r.WellFormed) {i : Input} (ha : r.Admissible i) :
    Progress r (r.run i) :=
  (run_preserves (P := Progress r) h ha (.refl r) fun _ _ hs hp hm => hp.trans (hm.progress hs)).2

theorem progress_ready (r : Raft) : Progress r r.ready.2 :=
  { Progress.refl r with applied_le := Nat.le_max_left _ _ }

/-- **A call that changes the durable state leaves the engine dirty.** -/
theorem persistedSnapshot_run {r : Raft} (h : r.WellFormed) {i : Input}
    (hclean : (r.run i).dirty = false) :
    r.dirty = false ∧ (r.run i).persistedSnapshot = r.persistedSnapshot := by
  have hmoves := moves_run h.base_le_commit h.commit_le_last i
  have key := hmoves.preserves (P := fun s => s.dirty = false → r.dirty = false ∧
      s.persistedSnapshot = r.persistedSnapshot) (fun s t hs hm ht => ?_) (fun hd => ⟨hd, rfl⟩)
  · exact key hclean
  · obtain ⟨hsd, heq⟩ := hm.persistedSnapshot ht
    exact ⟨(hs hsd).1, heq.trans (hs hsd).2⟩

/-- What is left to save after a call, over what was saved before it. -/
theorem persist_ready {r : Raft} (h : r.WellFormed) (i : Input) :
    ((r.run i).ready.1.persist).getD r.persistedSnapshot = (r.run i).ready.2.persistedSnapshot := by
  cases hd : (r.run i).dirty with
  | true => simp [Raft.ready, hd, Raft.persistedSnapshot]
  | false =>
    simp only [Raft.ready, hd, Bool.false_eq_true, if_false, Option.getD_none]
    exact (persistedSnapshot_run h hd).2.symm

/-- Where a call with input `i` took the base, and the snapshot with it. -/
inductive Rebased (i : Input) (r r' : Raft) : Prop
  | kept : r'.baseIndex = r.baseIndex → r'.snapshot = r.snapshot → Rebased i r r'
  | compacted (index : Nat) (bytes : Bytes) : i = .compact index bytes → r'.baseIndex = index →
      r'.snapshot = some bytes → Rebased i r r'
  | installed (l : NodeId) (req : InstallSnapshotReq) : i = .step l (.installSnapshot req) →
      r'.baseIndex = req.lastIncludedIndex → r'.snapshot = some req.data → Rebased i r r'

/-- **Where the base can go in one call.** -/
theorem rebased_run {r : Raft} (hbc : r.baseIndex ≤ r.commitIndex)
    (hcl : r.commitIndex ≤ r.lastIndex) (i : Input) : Rebased i r (r.run i) := by
  refine (moves_run hbc hcl i).preserves (P := Rebased i r) (fun s t hs hm => ?_) (.kept rfl rfl)
  -- a move that leaves the two alone
  have same : ∀ {c : Core}, t.core = c → c.baseIndex = s.baseIndex → c.snapshot = s.snapshot →
      Rebased i r t := by
    intro c hc hb hsnap
    have hb' : t.baseIndex = s.baseIndex := (congrArg Core.baseIndex hc).trans hb
    have hsnap' : t.snapshot = s.snapshot := (congrArg Core.snapshot hc).trans hsnap
    cases hs with
    | kept h1 h2 => exact .kept (hb'.trans h1) (hsnap'.trans h2)
    | compacted index bytes hi h1 h2 =>
      exact .compacted index bytes hi (hb'.trans h1) (hsnap'.trans h2)
    | installed l req hi h1 h2 => exact .installed l req hi (hb'.trans h1) (hsnap'.trans h2)
  cases hm with
  | quiet hc _ => exact same hc rfl rfl
  | follow x hc _ =>
    rcases Nat.lt_or_ge s.currentTerm x with hlt | hle
    · exact same (hc.trans (Core.follow_of_lt hlt)) rfl rfl
    · exact same (hc.trans (Core.follow_of_le hle)) rfl rfl
  | poll _ heq => exact same (heq ▸ core_poll s) rfl rfl
  | stand _ heq => exact same (heq ▸ core_stand s) rfl rfl
  | tally _ _ _ _ _ heq => exact same (congrArg core heq) rfl rfl
  | lead _ _ heq => exact same (heq ▸ core_becomeLeader s) rfl rfl
  | grant _ _ _ _ _ _ _ _ hc _ => exact same hc rfl rfl
  | append l req g _ _ _ _ _ _ htook hc _ =>
    obtain ⟨d, hcore⟩ := core_took htook
      (min req.leaderCommit (req.prevLogIndex + req.entries.length))
    exact same (hc.trans hcore) rfl rfl
  | covered _ _ _ _ _ _ _ hc _ => exact same hc rfl rfl
  | install l req hin _ _ _ _ _ hc _ =>
    exact .installed l req hin (congrArg Core.baseIndex hc) (congrArg Core.snapshot hc)
  | matched _ _ _ _ _ _ hc _ => exact same hc rfl rfl
  | advance _ _ _ _ _ _ heq => exact same (congrArg core heq) rfl rfl
  | push _ _ _ heq => exact same (congrArg core heq) rfl rfl
  | compact index bytes hin hbase hcommit heq =>
    rw [Raft.compact, if_neg (by omega)] at heq
    exact .compacted index bytes hin (by rw [heq]) (by rw [heq])

/-- **Where the hand-out point can go in one call**: a call other than a compaction leaves it, the
snapshot and what is due of it alone, or installs a leader's snapshot of what was not committed
here. -/
theorem restore_run {r : Raft} (h : r.WellFormed) {i : Input}
    (hi : ∀ index snapshot, i ≠ .compact index snapshot) :
    ((r.run i).pendingRestore = r.pendingRestore ∧ (r.run i).lastApplied = r.lastApplied ∧
        (r.run i).baseIndex = r.baseIndex ∧ (r.run i).snapshot = r.snapshot) ∨
      ((r.run i).pendingRestore = true ∧ r.commitIndex < (r.run i).baseIndex ∧
        ∃ l req, i = .step l (.installSnapshot req) ∧
          (r.run i).lastApplied = req.lastIncludedIndex ∧
          (r.run i).baseIndex = req.lastIncludedIndex ∧ (r.run i).snapshot = some req.data) := by
  have hmoves := moves_run h.base_le_commit h.commit_le_last i
  have key := hmoves.preserves (P := fun s => r.commitIndex ≤ s.commitIndex ∧
    ((s.pendingRestore = r.pendingRestore ∧ s.lastApplied = r.lastApplied ∧
        s.baseIndex = r.baseIndex ∧ s.snapshot = r.snapshot) ∨
      (s.pendingRestore = true ∧ r.commitIndex < s.baseIndex ∧
        ∃ l req, i = .step l (.installSnapshot req) ∧ s.lastApplied = req.lastIncludedIndex ∧
          s.baseIndex = req.lastIncludedIndex ∧ s.snapshot = some req.data)))
    (fun s t hs hm => ?_) ⟨Nat.le_refl _, Or.inl ⟨rfl, rfl, rfl, rfl⟩⟩
  · exact key.2
  -- a move that leaves the four components alone
  have same : ∀ {c : Core}, t.core = c → s.commitIndex ≤ c.commitIndex →
      c.pendingRestore = s.pendingRestore → c.lastApplied = s.lastApplied →
      c.baseIndex = s.baseIndex → c.snapshot = s.snapshot →
      r.commitIndex ≤ t.commitIndex ∧
      ((t.pendingRestore = r.pendingRestore ∧ t.lastApplied = r.lastApplied ∧
          t.baseIndex = r.baseIndex ∧ t.snapshot = r.snapshot) ∨
        (t.pendingRestore = true ∧ r.commitIndex < t.baseIndex ∧
          ∃ l req, i = .step l (.installSnapshot req) ∧ t.lastApplied = req.lastIncludedIndex ∧
            t.baseIndex = req.lastIncludedIndex ∧ t.snapshot = some req.data)) := by
    intro c hc h1 h2 h3 h4 h5
    subst hc
    simp only [core] at h1 h2 h3 h4 h5
    rw [h2, h3, h4, h5]
    exact ⟨hs.1.trans h1, hs.2⟩
  cases hm with
  | quiet hc _ => exact same hc (Nat.le_refl _) rfl rfl rfl rfl
  | follow x hc _ =>
    rcases Nat.lt_or_ge s.currentTerm x with hlt | hle
    · exact same (hc.trans (Core.follow_of_lt hlt)) (Nat.le_refl _) rfl rfl rfl rfl
    · exact same (hc.trans (Core.follow_of_le hle)) (Nat.le_refl _) rfl rfl rfl rfl
  | poll _ heq => exact same (heq ▸ core_poll s) (Nat.le_refl _) rfl rfl rfl rfl
  | stand _ heq => exact same (heq ▸ core_stand s) (Nat.le_refl _) rfl rfl rfl rfl
  | tally _ _ _ _ _ heq => exact same (congrArg core heq) (Nat.le_refl _) rfl rfl rfl rfl
  | lead _ _ heq => exact same (heq ▸ core_becomeLeader s) (Nat.le_refl _) rfl rfl rfl rfl
  | grant _ _ _ _ _ _ _ _ hc _ => exact same hc (Nat.le_refl _) rfl rfl rfl rfl
  | append l req g _ _ _ _ _ _ htook hc _ =>
    obtain ⟨d, hcore⟩ := core_took htook
      (min req.leaderCommit (req.prevLogIndex + req.entries.length))
    exact same (hc.trans hcore) (Nat.le_max_left _ _) rfl rfl rfl rfl
  | covered _ _ _ _ _ _ _ hc _ => exact same hc (Nat.le_refl _) rfl rfl rfl rfl
  | install l req hin _ _ _ _ hcommit hc _ =>
    have hbase : t.baseIndex = req.lastIncludedIndex := congrArg Core.baseIndex hc
    have hci : t.commitIndex = max s.commitIndex req.lastIncludedIndex :=
      congrArg Core.commitIndex hc
    have hpending : t.pendingRestore = true := congrArg Core.pendingRestore hc
    refine ⟨?_, Or.inr ⟨hpending, ?_, l, req, hin, congrArg Core.lastApplied hc, hbase,
      congrArg Core.snapshot hc⟩⟩
    · rw [hci]
      exact hs.1.trans (Nat.le_max_left _ _)
    · rw [hbase]
      exact Nat.lt_of_le_of_lt hs.1 hcommit
  | matched _ _ _ _ _ _ hc _ => exact same hc (Nat.le_refl _) rfl rfl rfl rfl
  | advance _ _ hlt _ _ _ heq => exact same (congrArg core heq) hlt.le rfl rfl rfl rfl
  | push _ _ _ heq => exact same (congrArg core heq) (Nat.le_refl _) rfl rfl rfl rfl
  | compact index snapshot hin => exact absurd hin (hi index snapshot)

/-- The same for an engine that has nothing to restore. -/
theorem lastApplied_run {r : Raft} (h : r.WellFormed) {i : Input}
    (hi : ∀ index snapshot, i ≠ .compact index snapshot) (hp : r.pendingRestore = false) :
    ((r.run i).pendingRestore = false ∧ (r.run i).lastApplied = r.lastApplied ∧
        (r.run i).baseIndex = r.baseIndex ∧ (r.run i).snapshot = r.snapshot) ∨
      ((r.run i).pendingRestore = true ∧ r.commitIndex < (r.run i).baseIndex ∧
        ∃ l req, i = .step l (.installSnapshot req) ∧
          (r.run i).lastApplied = req.lastIncludedIndex ∧
          (r.run i).baseIndex = req.lastIncludedIndex ∧ (r.run i).snapshot = some req.data) := by
  have hrun := restore_run h hi
  rwa [hp] at hrun

/-! ## Runs -/

/-- What the driver does to one engine: admissible calls, and draining. -/
inductive EngineStep : Raft → Raft → Prop
  | call (r : Raft) (i : Input) : r.Admissible i → EngineStep r (r.run i)
  | ready (r : Raft) : EngineStep r r.ready.2

/-- One engine, rebuilt from a durable state that satisfies `Valid`. -/
def engineSystem (Valid : Persisted → Prop) : TransitionSystem Raft where
  init r := ∃ id peers cfg seed p, Valid p ∧ r = Raft.new id peers cfg seed p
  step := EngineStep

theorem EngineStep.wellFormed {r r' : Raft} (h : r.WellFormed) (hs : EngineStep r r') :
    r'.WellFormed := by
  cases hs with
  | call i ha => exact h.run ha
  | ready => exact h.ready

theorem EngineStep.progress {r r' : Raft} (h : r.WellFormed) (hs : EngineStep r r') :
    Progress r r' := by
  cases hs with
  | call i ha => exact progress_run h ha
  | ready => exact progress_ready r

end FiduciaBrain.Raft
