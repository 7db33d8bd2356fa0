import FiduciaBrain.RaftStore.Crash

/-!
# What was saved is what opens

One engine that starts empty and has its state saved after every call (`savedSystem`). Opening the
directory gives the last state back exactly if its snapshot is not empty (`reopen_iff`): the engine
installs whatever bytes a leader sends and `RaftStore::save` writes them, and `RaftStore::open`
takes an empty snapshot file for a damaged one.
-/

namespace FiduciaBrain.RaftStore

open Infra

variable {S : Serde}

/-! ## A member that saves -/

/-- A compaction comes with bytes. -/
def CompactsBytes (i : Raft.Input) : Prop := ∀ index bytes, i = .compact index bytes → bytes ≠ []

/-- A leader's snapshot comes with bytes. -/
def InstallsBytes (i : Raft.Input) : Prop :=
  ∀ l req, i = .step l (.installSnapshot req) → req.data ≠ []

/-- What happens to a member that saves: a call whose outcome the store accepts, a drain. -/
inductive SavedStep (S : Serde) (Allowed : Raft.Input → Prop) : Member → Member → Prop
  | call (s : Member) (i : Raft.Input) (dir : Directory) : Allowed i →
      save S s.dir (s.engine.run i).persistedSnapshot = .ok dir →
      SavedStep S Allowed s ⟨s.engine.run i, dir, (s.engine.run i).persistedSnapshot⟩
  | ready (s : Member) : SavedStep S Allowed s { s with engine := s.engine.ready.2 }

/-- A member that starts in an empty directory and saves after every call. -/
def savedSystem (S : Serde) (Allowed : Raft.Input → Prop) : TransitionSystem Member where
  init := (memberSystem S).init
  step := SavedStep S Allowed

/-- The directory stands for the engine's state. -/
structure SavedInv (S : Serde) (s : Member) : Prop where
  represents : Represents S s.dir s.saved
  current : s.saved = s.engine.persistedSnapshot

/-- A call keeps a snapshot that is there. -/
theorem SavedInv.rebased {s : Member} (h : SavedInv S s) (i : Raft.Input) :
    Raft.Rebased i s.engine (s.engine.run i) := by
  have hv := (validatePersisted_ok_iff.mp h.represents.validated).1
  rw [h.current] at hv
  exact Raft.rebased_run hv.base_le hv.commit_le i

theorem SavedInv.snapshot {s : Member} (h : SavedInv S s) (i : Raft.Input)
    (hne : s.saved.snapshot ≠ none) : (s.engine.run i).persistedSnapshot.snapshot ≠ none := by
  rw [h.current] at hne
  show (s.engine.run i).snapshot ≠ none
  cases h.rebased i with
  | kept _ heq => exact heq ▸ hne
  | compacted _ _ _ _ heq => simp [heq]
  | installed _ _ _ _ heq => simp [heq]

/-- **A saved call keeps the directory and the engine together.** -/
theorem SavedInv.step {Allowed : Raft.Input → Prop} {s t : Member} (h : SavedInv S s)
    (hs : SavedStep S Allowed s t) : SavedInv S t := by
  cases hs with
  | call i dir _ hsave =>
    cases hp : validatePersisted (s.engine.run i).persistedSnapshot with
    | error e =>
      rw [save, hp] at hsave
      cases hsave
    | ok _ =>
      rw [save_eq hp] at hsave
      cases hsave
      exact ⟨represents_afterMeta h.represents hp (h.snapshot i), rfl⟩
  | ready => exact ⟨h.represents, h.current⟩

theorem savedInv_of_init {s : Member} (hS : S.Lawful) (h : (memberSystem S).init s) :
    SavedInv S s ∧ s.saved = Persisted.default := by
  obtain ⟨id, peers, cfg, seed, dir, p, hopen, rfl⟩ := h
  rw [Directory.empty, openStore_of_fresh hS (Or.inl rfl)] at hopen
  cases hopen
  exact ⟨⟨.fresh, rfl⟩, rfl⟩

theorem savedInv_of_reachable (hS : S.Lawful) {Allowed : Raft.Input → Prop} {s : Member}
    (h : (savedSystem S Allowed).Reachable s) : SavedInv S s := by
  refine h.invariant (fun s h0 => ?_) fun s t _ hs hstep => ?_
  · exact (savedInv_of_init hS h0).1
  · exact SavedInv.step hs hstep

/-- Where every snapshot comes with bytes, none on disk is empty. -/
theorem snapshot_of_reachable (hS : S.Lawful) {s : Member}
    (h : (savedSystem S fun i => CompactsBytes i ∧ InstallsBytes i).Reachable s) :
    s.saved.snapshot ≠ some [] := by
  refine h.invariant (P := fun s => s.saved.snapshot ≠ some []) ?_ fun s t hr hs hstep => ?_
  · intro s h0
    rw [(savedInv_of_init hS h0).2]
    simp [Persisted.default]
  cases hstep with
  | call i dir hallowed hsave =>
    have hinv := savedInv_of_reachable hS hr
    show (s.engine.run i).snapshot ≠ some []
    cases hinv.rebased i with
    | kept _ heq =>
      rw [hinv.current] at hs
      exact heq ▸ hs
    | compacted index bytes hi _ heq => simpa [heq] using hallowed.1 index bytes hi
    | installed l req hi _ heq => simpa [heq] using hallowed.2 l req hi
  | ready => exact hs

/-! ## Opening it -/

/-- **What `save` accepts, `open` returns, unless its snapshot is empty.** -/
theorem SavedInv.openStore_iff (hS : S.Lawful) {s : Member} (h : SavedInv S s) :
    (∃ dir, openStore S s.dir = .ok (dir, s.engine.persistedSnapshot)) ↔
      s.engine.snapshot ≠ some [] := by
  rw [← h.current, show s.engine.snapshot = s.saved.snapshot by rw [h.current]; rfl]
  constructor
  · rintro ⟨dir, hopen⟩ hempty
    obtain ⟨e, he⟩ := openStore_of_snapshot_empty (S := S)
      (h.represents.snapshotFile.trans hempty)
    rw [he] at hopen
    cases hopen
  · intro hsnap
    exact ⟨s.dir, h.represents.openStore hS hsnap⟩

/-- **Reopening.** In any run that saves after every call, the directory opens into the last state
exactly if its snapshot is not empty, and it is not in a run whose leaders send no empty one. -/
theorem reopen_iff (hS : S.Lawful) :
    (∀ s, (savedSystem S CompactsBytes).Reachable s →
      ((∃ dir, openStore S s.dir = .ok (dir, s.engine.persistedSnapshot)) ↔
        s.engine.snapshot ≠ some [])) ∧
    ∀ s, (savedSystem S fun i => CompactsBytes i ∧ InstallsBytes i).Reachable s →
      ∃ dir, openStore S s.dir = .ok (dir, s.engine.persistedSnapshot) := by
  refine ⟨fun s hs => (savedInv_of_reachable hS hs).openStore_iff hS, fun s hs => ?_⟩
  have hinv := savedInv_of_reachable hS hs
  refine (hinv.openStore_iff hS).mpr ?_
  have hsnap := snapshot_of_reachable hS hs
  rwa [hinv.current] at hsnap

/-- A fresh member with one peer. -/
def joinedMember : Member where
  engine := Raft.new "brain-1" ["brain-0"] ⟨1, 1, 1⟩ 7 Persisted.default
  dir := ⟨none, some (encodeLog jsonSerde 0 0 []), none⟩
  saved := Persisted.default

/-- The peer's snapshot of its first entry. -/
def snapshotOf (data : Bytes) : Raft.Input :=
  .step "brain-0" (.installSnapshot
    { term := 1, leaderId := "brain-0", lastIncludedIndex := 1, lastIncludedTerm := 1, data := data })

/-- The member once it has installed and saved it. -/
def installedMember (data : Bytes) : Member :=
  let r := joinedMember.engine.run (snapshotOf data)
  ⟨r, afterMeta jsonSerde r.persistedSnapshot joinedMember.dir, r.persistedSnapshot⟩

theorem reachable_installedMember {Allowed : Raft.Input → Prop} {data : Bytes}
    (h : Allowed (snapshotOf data))
    (hp : validatePersisted (joinedMember.engine.run (snapshotOf data)).persistedSnapshot = .ok ()) :
    (savedSystem jsonSerde Allowed).Reachable (installedMember data) := by
  have hopen : openStore jsonSerde Directory.empty = .ok (joinedMember.dir, Persisted.default) := by
    rw [Directory.empty, openStore_of_fresh jsonSerde_lawful (Or.inl rfl), joinedMember]
  have hinit : (savedSystem jsonSerde Allowed).Reachable joinedMember :=
    .of_init ⟨"brain-1", ["brain-0"], ⟨1, 1, 1⟩, 7, joinedMember.dir, Persisted.default, hopen, by
      rw [joinedMember]⟩
  exact hinit.step (.call joinedMember (snapshotOf data) _ h (save_eq hp))

/-- One byte is enough. -/
theorem reopen_iff_installedMember :
    ∃ dir, openStore jsonSerde (installedMember [123]).dir
      = .ok (dir, (installedMember [123]).engine.persistedSnapshot) := by
  have hallowed : CompactsBytes (snapshotOf [123]) ∧ InstallsBytes (snapshotOf [123]) := by
    constructor
    · rintro index bytes ⟨⟩
    · rintro l req ⟨⟩
      simp
  exact (reopen_iff jsonSerde_lawful).2 (installedMember [123])
    (reachable_installedMember hallowed (by decide))

/-- No byte, and the store does not open again. -/
theorem installed_empty_not_reopened :
    (savedSystem jsonSerde CompactsBytes).Reachable (installedMember []) ∧
      ∃ e, openStore jsonSerde (installedMember []).dir = .error e := by
  constructor
  · refine reachable_installedMember ?_ (by decide)
    rintro index bytes ⟨⟩
  · exact openStore_of_snapshot_empty (by rfl)

end FiduciaBrain.RaftStore
