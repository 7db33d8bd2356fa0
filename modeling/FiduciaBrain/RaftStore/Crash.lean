import FiduciaBrain.RaftStore.Store
import FiduciaBrain.RaftStore.Json

/-!
# Crashes between the writes of a save

What `RaftStore::open` makes of a directory that a crash left between two file replacements of
`RaftStore::save`. The directory is followed through a whole run of a member (`memberSystem`):
engine calls, saves, crashes at any boundary, recoveries.

* `Represents`: the files of a directory stand for a state, with the hard state possibly behind
* `crash_consistent`: when a save is safe to die in, exactly
-/

namespace FiduciaBrain.RaftStore

open Infra

variable {S : Serde}

/-! ## Boundaries -/

/-- The snapshot replacement of a save, if it has one. -/
def afterSnapshot (p : Persisted) (dir : Directory) : Directory :=
  match p.snapshot with
  | some snapshot => writeSnapshot snapshot dir
  | none => dir

/-- The directory between the log replacement of a save and its hard-state replacement. -/
def afterLog (S : Serde) (p : Persisted) (dir : Directory) : Directory :=
  writeLog S p.baseIndex p.baseTerm p.log (afterSnapshot p dir)

/-- The directory behind a whole save. -/
def afterMeta (S : Serde) (p : Persisted) (dir : Directory) : Directory :=
  writeMeta S (metaOf p) (afterLog S p dir)

/-- **The boundaries of a save.** What holds at each of them holds wherever the save dies. -/
theorem forall_crashAt {P : Directory → Prop} {dir : Directory} {p : Persisted}
    (hp : validatePersisted p = .ok ()) :
    (∀ k, P (crashAt S dir p k)) ↔
      P dir ∧ P (afterSnapshot p dir) ∧ P (afterLog S p dir) ∧ P (afterMeta S p dir) := by
  simp only [crashAt, hp, saveWrites]
  cases hs : p.snapshot with
  | none =>
    simp only [afterMeta, afterLog, afterSnapshot, hs]
    constructor
    · intro h
      exact ⟨h 0, h 0, h 1, h 2⟩
    · rintro ⟨h0, _, h1, h2⟩ k
      match k with
      | 0 => exact h0
      | 1 => exact h1
      | k + 2 => simpa using h2
  | some snapshot =>
    simp only [afterMeta, afterLog, afterSnapshot, hs]
    constructor
    · intro h
      exact ⟨h 0, h 1, h 2, h 3⟩
    · rintro ⟨h0, h1, h2, h3⟩ k
      match k with
      | 0 => exact h0
      | 1 => exact h1
      | 2 => exact h2
      | k + 3 => simpa using h3

theorem save_eq {dir : Directory} {p : Persisted} (hp : validatePersisted p = .ok ()) :
    save S dir p = .ok (afterMeta S p dir) := by
  simp only [save, hp, saveWrites]
  cases hs : p.snapshot <;> simp [afterMeta, afterLog, afterSnapshot, hs]

/-! ## What a directory stands for -/

/-- The files of a directory, and the state that opening it gives unless its snapshot is empty. The
hard state may be behind the base that the log file carries. -/
inductive Represents (S : Serde) : Directory → Persisted → Prop
  | fresh : Represents S ⟨none, some (encodeLog S 0 0 []), none⟩ Persisted.default
  | files (m : Meta) (baseIndex baseTerm : Nat) (log : List LogEntry) (snapshot : Option Bytes) :
      validatePersisted (restored m baseIndex baseTerm log snapshot) = .ok () →
      Represents S ⟨some (S.encodeMeta m), some (encodeLog S baseIndex baseTerm log), snapshot⟩
        (restored m baseIndex baseTerm log snapshot)

theorem Represents.validated {dir : Directory} {saved : Persisted} (h : Represents S dir saved) :
    validatePersisted saved = .ok () := by
  cases h with
  | fresh => decide
  | files _ _ _ _ _ hv => exact hv

theorem Represents.snapshotFile {dir : Directory} {saved : Persisted} (h : Represents S dir saved) :
    dir.snapshotFile = saved.snapshot := by
  cases h <;> rfl

/-- Opening rewrites the log as it was, and gives the state. -/
theorem Represents.openStore (hS : S.Lawful) {dir : Directory} {saved : Persisted}
    (h : Represents S dir saved) (hsnap : saved.snapshot ≠ some []) :
    openStore S dir = .ok (dir, saved) := by
  cases h with
  | fresh => exact openStore_of_fresh hS (Or.inr rfl)
  | files m baseIndex baseTerm log snapshot hv =>
    have hread : snapshot ≠ some [] := hsnap
    rw [openStore_of_written hS m baseIndex baseTerm log hread, hv]
    rfl

/-! ## What a save must not lose -/

/-- The recovered state has what the saved one had. -/
structure Keeps (saved p : Persisted) : Prop where
  commit_le : saved.commitIndex ≤ p.commitIndex
  base_le : saved.baseIndex ≤ p.baseIndex
  kept : ∀ e ∈ saved.log, e.index ≤ saved.commitIndex → e.index ≤ p.baseIndex ∨ e ∈ p.log

/-- The directory boots, into a valid state that has what the saved one had. -/
def Recovers (S : Serde) (saved : Persisted) (dir : Directory) : Prop :=
  ∃ dir' p, openStore S dir = .ok (dir', p) ∧ Keeps saved p ∧ validatePersisted p = .ok ()

theorem Keeps.refl (p : Persisted) : Keeps p p where
  commit_le := Nat.le_refl _
  base_le := Nat.le_refl _
  kept := fun _ he _ => Or.inr he

theorem Keeps.trans {p q w : Persisted} (h : Keeps p q) (h' : Keeps q w) : Keeps p w where
  commit_le := h.commit_le.trans h'.commit_le
  base_le := h.base_le.trans h'.base_le
  kept := fun e he hc => by
    rcases h.kept e he hc with hb | hq
    · exact Or.inl (hb.trans h'.base_le)
    · exact h'.kept e hq (hc.trans h.commit_le)

theorem not_recovers {saved : Persisted} {dir : Directory} (h : ∃ e, openStore S dir = .error e) :
    ¬ Recovers S saved dir := by
  rintro ⟨dir', p, hopen, _⟩
  obtain ⟨e, he⟩ := h
  rw [he] at hopen
  cases hopen

theorem not_recovers_of_empty {saved : Persisted} {dir : Directory}
    (h : dir.snapshotFile = some []) : ¬ Recovers S saved dir :=
  not_recovers (openStore_of_snapshot_empty h)

/-- The engine's progress, as the store sees it. -/
theorem keeps_of_progress {r r' : Raft} (h : Raft.Progress r r') :
    Keeps r.persistedSnapshot r'.persistedSnapshot where
  commit_le := h.commit_le
  base_le := h.base_le
  kept := fun e he hc => by
    rcases Nat.lt_or_ge r'.baseIndex e.index with hb | hb
    · exact Or.inr (h.kept e he hc hb)
    · exact Or.inl hb

/-! ## The four boundaries -/

theorem recovers_self (hS : S.Lawful) {dir : Directory} {saved : Persisted}
    (h : Represents S dir saved) : Recovers S saved dir ↔ saved.snapshot ≠ some [] := by
  constructor
  · intro hr hsnap
    exact not_recovers_of_empty (h.snapshotFile.trans hsnap) hr
  · intro hsnap
    exact ⟨dir, saved, h.openStore hS hsnap, Keeps.refl saved, h.validated⟩

/-- Behind the snapshot replacement the old log is read beside the new snapshot. -/
theorem recovers_snapshot (hS : S.Lawful) {dir : Directory} {saved : Persisted} {bytes : Bytes}
    (h : Represents S dir saved) :
    Recovers S saved (writeSnapshot bytes dir) ↔ bytes ≠ [] ∧ 0 < saved.baseIndex := by
  by_cases hbytes : bytes = []
  · subst hbytes
    exact iff_of_false (not_recovers_of_empty rfl) fun h => h.1 rfl
  cases h with
  | fresh =>
    refine iff_of_false (not_recovers (openStore_of_meta_missing hS _ (Or.inr (Or.inr ?_)))) ?_
    · simp
    · rintro ⟨_, hb⟩
      exact absurd hb (Nat.lt_irrefl 0)
  | files m baseIndex baseTerm log snapshot hv =>
    have hsome : some bytes ≠ some [] := by simpa using hbytes
    have hopen := openStore_of_written hS m baseIndex baseTerm log hsome
    obtain ⟨hvalid, hmax⟩ := validatePersisted_ok_iff.mp hv
    rw [show writeSnapshot bytes ⟨some (S.encodeMeta m), some (encodeLog S baseIndex baseTerm log),
      snapshot⟩ = ⟨some (S.encodeMeta m), some (encodeLog S baseIndex baseTerm log), some bytes⟩
      from rfl]
    constructor
    · rintro ⟨dir', p, hp, _, hpv⟩
      rw [hopen] at hp
      cases hr : validatePersisted (restored m baseIndex baseTerm log (some bytes)) with
      | error e =>
        rw [hr] at hp
        cases hp
      | ok _ =>
        exact ⟨hbytes, (validatePersisted_ok_iff.mp hr).1.snapshot.mp (by simp [restored])⟩
    · rintro ⟨_, hbase⟩
      have hok : validatePersisted (restored m baseIndex baseTerm log (some bytes)) = .ok () :=
        validatePersisted_ok_iff.mpr
          ⟨{ hvalid with snapshot := iff_of_true (by simp [restored]) hbase }, hmax⟩
      rw [hok] at hopen
      exact ⟨_, _, hopen, ⟨Nat.le_refl _, Nat.le_refl _, fun _ he _ => Or.inr he⟩, hok⟩

/-- A snapshot stays: the base it stands for does. -/
theorem Keeps.snapshot {dir : Directory} {saved p : Persisted} (hk : Keeps saved p)
    (h : Represents S dir saved) (hp : validatePersisted p = .ok ()) (hne : saved.snapshot ≠ none) :
    p.snapshot ≠ none := by
  have hpos := (validatePersisted_ok_iff.mp h.validated).1.snapshot.mp hne
  exact (validatePersisted_ok_iff.mp hp).1.snapshot.mpr (Nat.lt_of_lt_of_le hpos hk.base_le)

/-- The files behind the log replacement: a state without a snapshot replaces none. -/
theorem afterLog_eq {dir : Directory} {saved p : Persisted} (h : Represents S dir saved)
    (hk : saved.snapshot ≠ none → p.snapshot ≠ none) :
    afterLog S p dir
      = ⟨dir.metaFile, some (encodeLog S p.baseIndex p.baseTerm p.log), p.snapshot⟩ := by
  cases hps : p.snapshot with
  | some bytes => simp [afterLog, afterSnapshot, writeLog, writeSnapshot, hps]
  | none =>
    have hsaved : saved.snapshot = none := Decidable.not_not.mp fun hne => hk hne hps
    simp [afterLog, afterSnapshot, writeLog, hps, h.snapshotFile, hsaved]

/-- Behind the log replacement the new log is read beside the old hard state. -/
theorem recovers_log (hS : S.Lawful) {dir : Directory} {saved p : Persisted}
    (h : Represents S dir saved) (hp : validatePersisted p = .ok ()) (hk : Keeps saved p) :
    Recovers S saved (afterLog S p dir) ↔
      p.snapshot ≠ some [] ∧ endTerm p.baseTerm p.log ≤ saved.currentTerm := by
  obtain ⟨hpv, hpmax⟩ := validatePersisted_ok_iff.mp hp
  obtain ⟨hsv, _⟩ := validatePersisted_ok_iff.mp h.validated
  rw [afterLog_eq h (hk.snapshot h hp)]
  by_cases hbytes : p.snapshot = some []
  · exact iff_of_false (not_recovers_of_empty hbytes) fun h => h.1 hbytes
  cases h with
  | fresh =>
    by_cases hnew : 0 < p.baseIndex ∨ p.log ≠ [] ∨ p.snapshot ≠ none
    · refine iff_of_false (not_recovers (openStore_of_meta_missing hS _ hnew)) ?_
      rintro ⟨_, hle⟩
      have hterm : endTerm p.baseTerm p.log = 0 := Nat.le_zero.mp hle
      have hbt : p.baseTerm = 0 := Nat.le_zero.mp (hterm ▸ hpv.log.le_endTerm)
      have hbase : p.baseIndex = 0 := hpv.base.mpr hbt
      rcases hnew with hb | hl | hs
      · omega
      · -- the last entry of a valid log has a term
        cases hq : p.log using List.reverseRecOn with
        | nil => exact hl hq
        | append_singleton q e =>
          rw [hq, endTerm_append_cons] at hterm
          exact hpv.log.term_ne_zero (e := e) (by simp [hq]) hterm
      · exact absurd (hpv.snapshot.mp hs) (by omega)
    · simp only [not_or, Decidable.not_not] at hnew
      obtain ⟨hb, hl, hs⟩ := hnew
      have hb0 : p.baseIndex = 0 := by omega
      have hbt : p.baseTerm = 0 := hpv.base.mp hb0
      rw [hb0, hbt, hl, hs]
      refine iff_of_true ⟨_, _, openStore_of_fresh hS (Or.inr rfl), Keeps.refl _, by decide⟩ ?_
      exact ⟨by simp, by simp [Persisted.default]⟩
  | files m baseIndex baseTerm log snapshot hv =>
    have hopen := openStore_of_written hS m p.baseIndex p.baseTerm p.log hbytes
    have hbase : baseIndex ≤ p.baseIndex := hk.base_le
    have hcommit : max m.commitIndex baseIndex ≤ p.commitIndex := hk.commit_le
    constructor
    · rintro ⟨dir', w, hw, _, _⟩
      rw [hopen] at hw
      cases hr : validatePersisted (restored m p.baseIndex p.baseTerm p.log p.snapshot) with
      | error e =>
        rw [hr] at hw
        cases hw
      | ok _ =>
        have hrv := (validatePersisted_ok_iff.mp hr).1
        exact ⟨hbytes, hrv.log.endTerm_le hrv.baseTerm_le⟩
    · rintro ⟨_, hterm⟩
      have hok : validatePersisted (restored m p.baseIndex p.baseTerm p.log p.snapshot)
          = .ok () := by
        refine validatePersisted_ok_iff.mpr ⟨?_, hpmax⟩
        exact {
          vote := hsv.vote
          base := hpv.base
          snapshot := hpv.snapshot
          baseTerm_le := hpv.log.le_endTerm.trans hterm
          base_le := Nat.le_max_right _ _
          log := hpv.log.of_endTerm_le hterm
          commit_le := by
            have := hpv.commit_le
            have := hpv.base_le
            simp only [restored]
            omega }
      rw [hok] at hopen
      refine ⟨_, _, hopen, ⟨?_, hbase, hk.kept⟩, hok⟩
      simp only [restored]
      omega

/-- A whole save leaves a directory that stands for the saved state. -/
theorem represents_afterMeta {dir : Directory} {saved p : Persisted}
    (h : Represents S dir saved) (hp : validatePersisted p = .ok ())
    (hk : saved.snapshot ≠ none → p.snapshot ≠ none) : Represents S (afterMeta S p dir) p := by
  have hrestored : restored (metaOf p) p.baseIndex p.baseTerm p.log p.snapshot = p := by
    have hbase := (validatePersisted_ok_iff.mp hp).1.base_le
    simp only [restored, metaOf, Nat.max_eq_left hbase]
  have hfiles := Represents.files (S := S) (metaOf p) p.baseIndex p.baseTerm p.log p.snapshot
    (by rwa [hrestored])
  rw [hrestored] at hfiles
  rwa [afterMeta, afterLog_eq h hk, writeMeta]

theorem recovers_meta (hS : S.Lawful) {dir : Directory} {saved p : Persisted}
    (h : Represents S dir saved) (hp : validatePersisted p = .ok ()) (hk : Keeps saved p) :
    Recovers S saved (afterMeta S p dir) ↔ p.snapshot ≠ some [] := by
  have hrep := represents_afterMeta h hp (hk.snapshot h hp)
  constructor
  · intro hr hsnap
    exact not_recovers_of_empty (hrep.snapshotFile.trans hsnap) hr
  · intro hsnap
    exact ⟨_, _, hrep.openStore hS hsnap, hk, hp⟩

/-! ## Recovery -/

/-- The store wrote the files of the directory, not necessarily in one save. -/
structure Written (S : Serde) (dir : Directory) : Prop where
  hardState : dir.metaFile = none ∨ ∃ m, dir.metaFile = some (S.encodeMeta m)
  log : ∃ baseIndex baseTerm entries, (baseIndex = 0 → baseTerm = 0) ∧
    dir.logFile = some (encodeLog S baseIndex baseTerm entries)

theorem Represents.written {dir : Directory} {saved : Persisted} (h : Represents S dir saved) :
    Written S dir := by
  cases h with
  | fresh => exact ⟨Or.inl rfl, 0, 0, [], fun _ => rfl, rfl⟩
  | files m baseIndex baseTerm log snapshot hv =>
    exact ⟨Or.inr ⟨m, rfl⟩, baseIndex, baseTerm, log,
      (validatePersisted_ok_iff.mp hv).1.base.mp, rfl⟩

/-- A crash leaves files that the store wrote. -/
theorem Written.crashAt {dir : Directory} (h : Written S dir) (p : Persisted) (k : Nat) :
    Written S (crashAt S dir p k) := by
  cases hp : validatePersisted p with
  | error e => simpa only [RaftStore.crashAt, hp] using h
  | ok _ =>
    have hbase := (validatePersisted_ok_iff.mp hp).1.base.mp
    have hsnap : Written S (afterSnapshot p dir) := by
      unfold afterSnapshot
      split
      · exact ⟨h.hardState, h.log⟩
      · exact h
    have hlog : Written S (afterLog S p dir) :=
      ⟨hsnap.hardState, p.baseIndex, p.baseTerm, p.log, hbase, rfl⟩
    exact (forall_crashAt hp).mpr ⟨h, hsnap, hlog, Or.inr ⟨metaOf p, rfl⟩, hlog.log⟩ k

/-- **What a recovered directory stands for**: the recovered state. -/
theorem Written.represents (hS : S.Lawful) {dir dir' : Directory} {p : Persisted}
    (h : Written S dir) (hopen : openStore S dir = .ok (dir', p)) : Represents S dir' p := by
  obtain ⟨metaFile, logFile, snapshot⟩ := dir
  obtain ⟨hmeta, baseIndex, baseTerm, log, hbase, hlog⟩ := h
  simp only at hmeta hlog
  subst hlog
  have hsnap : snapshot ≠ some [] := by
    rintro rfl
    obtain ⟨e, he⟩ : ∃ e, openStore S
        ⟨metaFile, some (encodeLog S baseIndex baseTerm log), some []⟩ = .error e :=
      openStore_of_snapshot_empty rfl
    rw [he] at hopen
    cases hopen
  rcases hmeta with rfl | ⟨m, rfl⟩
  · by_cases hany : 0 < baseIndex ∨ log ≠ [] ∨ snapshot ≠ none
    · obtain ⟨e, he⟩ := openStore_of_meta_missing hS baseTerm hany
      rw [he] at hopen
      cases hopen
    · simp only [not_or, Decidable.not_not] at hany
      obtain ⟨hb, rfl, rfl⟩ := hany
      have hb0 : baseIndex = 0 := by omega
      rw [hb0, hbase hb0, openStore_of_fresh hS (Or.inr rfl)] at hopen
      cases hopen
      exact .fresh
  · rw [openStore_of_written hS m baseIndex baseTerm log hsnap] at hopen
    cases hv : validatePersisted (restored m baseIndex baseTerm log snapshot) with
    | error e =>
      rw [hv] at hopen
      cases hopen
    | ok _ =>
      rw [hv] at hopen
      cases hopen
      exact .files m baseIndex baseTerm log snapshot hv

/-! ## A member and its directory -/

/-- A running engine, its directory, and what it last saved or recovered. -/
structure Member where
  engine : Raft
  dir : Directory
  saved : Persisted

/-- What happens to a member: an engine call, a save, a crash with the save of the current state
done up to some boundary and the recovery after it. -/
inductive MemberStep (S : Serde) : Member → Member → Prop
  | engine (s : Member) (r : Raft) : Raft.EngineStep s.engine r → MemberStep S s { s with engine := r }
  | save (s : Member) (dir : Directory) :
      RaftStore.save S s.dir s.engine.persistedSnapshot = .ok dir →
      MemberStep S s { s with dir := dir, saved := s.engine.persistedSnapshot }
  | crash (s : Member) (k : Nat) (dir : Directory) (p : Persisted) (id : NodeId)
      (peers : List NodeId) (cfg : RaftConfig) (seed : UInt64) :
      openStore S (crashAt S s.dir s.engine.persistedSnapshot k) = .ok (dir, p) →
      MemberStep S s ⟨Raft.new id peers cfg seed p, dir, p⟩

/-- A member that starts in an empty directory. -/
def memberSystem (S : Serde) : TransitionSystem Member where
  init s := ∃ id peers cfg seed dir p, openStore S Directory.empty = .ok (dir, p) ∧
    s = ⟨Raft.new id peers cfg seed p, dir, p⟩
  step := MemberStep S

/-- The directory stands for what was saved, and the engine has gone on from there. -/
structure MemberInv (S : Serde) (s : Member) : Prop where
  represents : Represents S s.dir s.saved
  wellFormed : s.engine.WellFormed
  keeps : Keeps s.saved s.engine.persistedSnapshot

/-- A member that has just opened its directory. -/
theorem memberInv_new {dir : Directory} {p : Persisted} (h : Represents S dir p) (id : NodeId)
    (peers : List NodeId) (cfg : RaftConfig) (seed : UInt64) :
    MemberInv S ⟨Raft.new id peers cfg seed p, dir, p⟩ where
  represents := h
  wellFormed := Raft.wellFormed_new (validatePersisted_ok_iff.mp h.validated).1
  keeps := Keeps.refl p

/-- **A step keeps the directory behind the engine.** -/
theorem MemberInv.step (hS : S.Lawful) {s t : Member} (h : MemberInv S s) (hs : MemberStep S s t) :
    MemberInv S t := by
  cases hs with
  | engine r hr =>
    exact {
      represents := h.represents
      wellFormed := hr.wellFormed h.wellFormed
      keeps := h.keeps.trans (keeps_of_progress (hr.progress h.wellFormed)) }
  | save dir hsave =>
    cases hp : validatePersisted s.engine.persistedSnapshot with
    | error e =>
      rw [RaftStore.save, hp] at hsave
      cases hsave
    | ok _ =>
      rw [save_eq hp] at hsave
      cases hsave
      exact {
        represents := represents_afterMeta h.represents hp (h.keeps.snapshot h.represents hp)
        wellFormed := h.wellFormed
        keeps := Keeps.refl _ }
  | crash k dir p id peers cfg seed hopen =>
    have hw := h.represents.written.crashAt s.engine.persistedSnapshot k
    exact memberInv_new (hw.represents hS hopen) id peers cfg seed

theorem memberInv_of_reachable (hS : S.Lawful) {s : Member} (h : (memberSystem S).Reachable s) :
    MemberInv S s := by
  refine h.invariant ?_ fun _ _ _ hs hstep => hs.step hS hstep
  rintro _ ⟨id, peers, cfg, seed, dir, p, hopen, rfl⟩
  rw [Directory.empty, openStore_of_fresh hS (Or.inl rfl)] at hopen
  cases hopen
  exact memberInv_new .fresh id peers cfg seed

/-! ## When a save is safe to die in -/

/-- The state `new` can be saved over `old`: the snapshot on disk is readable, the new entries are
of terms the old hard state has reached, and a new snapshot replaces an old one. -/
structure SafeToSave (old new : Persisted) : Prop where
  readable : old.snapshot ≠ some []
  snapshot : ∀ bytes, new.snapshot = some bytes → bytes ≠ [] ∧ 0 < old.baseIndex
  terms : endTerm new.baseTerm new.log ≤ old.currentTerm

/-- **Crashes in a save.** In any run of a member, the directory that a save of the engine's state
leaves at each of its boundaries recovers what was saved before exactly if the save was safe. -/
theorem crash_consistent (hS : S.Lawful) {s : Member} (h : (memberSystem S).Reachable s)
    (hmax : s.engine.lastIndex ≤ u64Max) :
    (∀ k, Recovers S s.saved (crashAt S s.dir s.engine.persistedSnapshot k)) ↔
      SafeToSave s.saved s.engine.persistedSnapshot := by
  have hinv := memberInv_of_reachable hS h
  have hp : validatePersisted s.engine.persistedSnapshot = .ok () :=
    validatePersisted_ok_iff.mpr ⟨hinv.wellFormed.valid, fun _ => hmax⟩
  rw [forall_crashAt hp, recovers_self hS hinv.represents, recovers_log hS hinv.represents hp
    hinv.keeps, recovers_meta hS hinv.represents hp hinv.keeps]
  have hsnap : Recovers S s.saved (afterSnapshot s.engine.persistedSnapshot s.dir) ↔
      match s.engine.persistedSnapshot.snapshot with
      | some bytes => bytes ≠ [] ∧ 0 < s.saved.baseIndex
      | none => s.saved.snapshot ≠ some [] := by
    unfold afterSnapshot
    split
    · exact recovers_snapshot hS hinv.represents
    · exact recovers_self hS hinv.represents
  rw [hsnap]
  constructor
  · rintro ⟨hreadable, hnew, ⟨_, hterms⟩, _⟩
    refine ⟨hreadable, fun bytes hbytes => ?_, hterms⟩
    rwa [hbytes] at hnew
  · rintro ⟨hreadable, hnew, hterms⟩
    have hfull : s.engine.persistedSnapshot.snapshot ≠ some [] := fun hempty =>
      (hnew [] hempty).1 rfl
    refine ⟨hreadable, ?_, ⟨hfull, hterms⟩, hfull⟩
    split
    · next bytes hbytes => exact hnew bytes hbytes
    · exact hreadable

/-- A fresh member of a group of one. -/
def freshMember : Member where
  engine := Raft.new "brain-0" [] ⟨1, 1, 1⟩ 7 Persisted.default
  dir := ⟨none, some (encodeLog jsonSerde 0 0 []), none⟩
  saved := Persisted.default

/-- The member once it has elected itself, before it has saved that. -/
def electedMember : Member := { freshMember with engine := Raft.loneLeader }

/-- The member with its election saved, and a proposal in its log. -/
def proposedMember : Member where
  engine := Raft.loneLeader.run (.propose (.setScalePlan ⟨3, 3⟩))
  dir := afterMeta jsonSerde Raft.loneLeader.persistedSnapshot freshMember.dir
  saved := Raft.loneLeader.persistedSnapshot

theorem reachable_electedMember : (memberSystem jsonSerde).Reachable electedMember := by
  have hopen : openStore jsonSerde Directory.empty = .ok (freshMember.dir, Persisted.default) := by
    rw [Directory.empty, openStore_of_fresh jsonSerde_lawful (Or.inl rfl), freshMember]
  have hinit : (memberSystem jsonSerde).Reachable freshMember :=
    .of_init ⟨"brain-0", [], ⟨1, 1, 1⟩, 7, freshMember.dir, Persisted.default, hopen, by
      rw [freshMember]⟩
  have htick : Raft.EngineStep freshMember.engine Raft.loneLeader :=
    .call freshMember.engine .tick trivial
  exact hinit.step (.engine freshMember Raft.loneLeader htick)

theorem reachable_proposedMember : (memberSystem jsonSerde).Reachable proposedMember := by
  have hvalid : validatePersisted Raft.loneLeader.persistedSnapshot = .ok () := by decide
  have hsaved := reachable_electedMember.step (.save electedMember _ (save_eq hvalid))
  have hpropose : Raft.EngineStep Raft.loneLeader
      (Raft.loneLeader.run (.propose (.setScalePlan ⟨3, 3⟩))) := .call _ _ trivial
  exact hsaved.step (.engine _ _ hpropose)

theorem crash_consistent_proposedMember :
    SafeToSave proposedMember.saved proposedMember.engine.persistedSnapshot ∧
      ∀ k, Recovers jsonSerde proposedMember.saved
        (crashAt jsonSerde proposedMember.dir proposedMember.engine.persistedSnapshot k) := by
  have hsafe : SafeToSave proposedMember.saved proposedMember.engine.persistedSnapshot :=
    { readable := by decide
      snapshot := fun bytes h => by cases h
      terms := by decide }
  exact ⟨hsafe,
    (crash_consistent jsonSerde_lawful reachable_proposedMember (by decide)).mpr hsafe⟩

/-- The first save of a fresh member, dead between the log and the hard state: the directory does
not boot. -/
theorem first_save_not_crash_consistent :
    (memberSystem jsonSerde).Reachable electedMember ∧
      electedMember.engine.lastIndex ≤ u64Max ∧
      ¬ Recovers jsonSerde electedMember.saved
        (crashAt jsonSerde electedMember.dir electedMember.engine.persistedSnapshot 1) := by
  refine ⟨reachable_electedMember, by decide, not_recovers ?_⟩
  have hvalid : validatePersisted Raft.loneLeader.persistedSnapshot = .ok () := by decide
  have hcrash : crashAt jsonSerde electedMember.dir electedMember.engine.persistedSnapshot 1
      = ⟨none, some (encodeLog jsonSerde 0 0 Raft.loneLeader.log), none⟩ := by
    simp only [crashAt, electedMember, freshMember, hvalid]
    rfl
  rw [hcrash]
  exact openStore_of_meta_missing jsonSerde_lawful _ (Or.inr (Or.inl (by decide)))

end FiduciaBrain.RaftStore
