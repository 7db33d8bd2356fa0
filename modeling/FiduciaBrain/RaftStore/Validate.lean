import FiduciaBrain.Raft.Run

/-!
# What the store accepts

`validate_persisted` of `src/raft_store.rs`, with the texts of its errors.

* `validatePersisted_ok_iff`: it accepts exactly the states in which every clause of
  `Persisted.Valid` holds and no entry's index overflows
* `engine_state_savable`: every state of an engine run is one of them
-/

namespace FiduciaBrain

/-! ## The check -/

/-- The walk over the entries, from position `position` on, behind an entry of term
`previousTerm`. -/
def validateEntries (currentTerm baseIndex : Nat) : Nat → Nat → List LogEntry → Except String Unit
  | _, _, [] => .ok ()
  | position, previousTerm, entry :: rest =>
    match (checkedAdd baseIndex 1).bind (checkedAdd · position) with
    | none => .error "Raft log index overflow"
    | some expected =>
      if entry.index ≠ expected then
        .error s!"Raft log is not contiguous: expected index {expected}, found {entry.index}"
      else if entry.term = 0 then .error s!"Raft log entry {entry.index} has term zero"
      else if entry.term < previousTerm then
        .error s!"Raft log term descends at index {entry.index}: previous {previousTerm}, found {
          entry.term}"
      else if entry.term > currentTerm then
        .error s!"Raft log term {entry.term} at index {entry.index} exceeds current term {
          currentTerm}"
      else validateEntries currentTerm baseIndex (position + 1) entry.term rest

/-- Reject inconsistent durable state. -/
def validatePersisted (p : Persisted) : Except String Unit :=
  if p.currentTerm = 0 ∧ p.votedFor.isSome then
    .error "Raft hard state contains a vote in term zero"
  else if decide (p.baseIndex = 0) ≠ decide (p.baseTerm = 0) then
    .error s!"Raft snapshot base index/term mismatch: index={p.baseIndex}, term={p.baseTerm}"
  else if decide (p.baseIndex > 0) ≠ p.snapshot.isSome then
    .error "Raft snapshot presence does not match the non-zero snapshot base"
  else if p.baseTerm > p.currentTerm then
    .error s!"Raft snapshot term {p.baseTerm} exceeds current term {p.currentTerm}"
  else if p.commitIndex < p.baseIndex then
    .error s!"Raft commit_index {p.commitIndex} precedes snapshot base {p.baseIndex}"
  else
    match validateEntries p.currentTerm p.baseIndex 0 p.baseTerm p.log with
    | .error e => .error e
    | .ok () =>
      let lastIndex := (p.log.getLast?.map LogEntry.index).getD p.baseIndex
      if p.commitIndex > lastIndex then
        .error s!"Raft commit_index {p.commitIndex} exceeds last recoverable index {
          lastIndex}; refusing to truncate committed entries"
      else .ok ()

/-! ## What it lets through -/

/-- The walk accepts valid runs of entries whose indices stay below the ceiling. -/
theorem validateEntries_ok_iff (currentTerm baseIndex : Nat) (l : List LogEntry) :
    ∀ position previousTerm, validateEntries currentTerm baseIndex position previousTerm l = .ok () ↔
      LogValid currentTerm (baseIndex + position) previousTerm l ∧
        (l ≠ [] → baseIndex + position + l.length ≤ u64Max) := by
  induction l with
  | nil => simp [validateEntries, LogValid]
  | cons e rest ih =>
    intro position previousTerm
    rw [validateEntries]
    by_cases hmax : baseIndex + position + 1 ≤ u64Max
    · have hexp : (checkedAdd baseIndex 1).bind (checkedAdd · position)
          = some (baseIndex + position + 1) := by
        rw [checkedAdd, if_pos (by omega), Option.bind_some, checkedAdd, if_pos (by omega)]
        congr 1
        omega
      simp only [hexp, LogValid]
      have hih := ih (position + 1) e.term
      rw [← Nat.add_assoc] at hih
      split
      · next h1 => exact iff_of_false (by simp) fun h => h1 h.1.1
      split
      · next h2 => exact iff_of_false (by simp) fun h => h.1.2.1 h2
      split
      · next h3 => exact iff_of_false (by simp) fun h => absurd h.1.2.2.1 (by omega)
      split
      · next h4 => exact iff_of_false (by simp) fun h => absurd h.1.2.2.2.1 (by omega)
      next h1 h2 h3 h4 =>
      rw [hih]
      constructor
      · rintro ⟨hv, hb⟩
        refine ⟨⟨by simpa using h1, h2, by omega, by omega, hv⟩, fun _ => ?_⟩
        cases rest with
        | nil => simpa using hmax
        | cons f more =>
          have := hb (by simp)
          simp only [List.length_cons] at this ⊢
          omega
      · rintro ⟨⟨_, _, _, _, hv⟩, hb⟩
        refine ⟨hv, fun _ => ?_⟩
        have := hb (by simp)
        simp only [List.length_cons] at this
        omega
    · have hexp : (checkedAdd baseIndex 1).bind (checkedAdd · position) = none := by
        rw [Option.bind_eq_none_iff]
        intro first hfirst
        rw [checkedAdd] at hfirst
        split at hfirst
        · simp only [Option.some.injEq] at hfirst
          rw [checkedAdd, if_neg (by omega)]
        · cases hfirst
      rw [hexp]
      refine iff_of_false (by simp) fun h => ?_
      have := h.2 (by simp)
      simp only [List.length_cons] at this
      omega

/-- The last entry of a valid run carries the index its length says. -/
theorem LogValid.getLast_index {maxTerm idx prev : Nat} {l : List LogEntry}
    (h : LogValid maxTerm idx prev l) :
    (l.getLast?.map LogEntry.index).getD idx = idx + l.length := by
  cases l using List.reverseRecOn with
  | nil => rfl
  | append_singleton q e =>
    obtain ⟨_, he, _⟩ := LogValid.append.mp h
    simp [he]
    omega

/-- **What the store accepts.** -/
theorem validatePersisted_ok_iff {p : Persisted} : validatePersisted p = .ok () ↔
    p.Valid ∧ (p.log ≠ [] → p.baseIndex + p.log.length ≤ u64Max) := by
  have hent := validateEntries_ok_iff p.currentTerm p.baseIndex p.log 0 p.baseTerm
  rw [Nat.add_zero] at hent
  unfold validatePersisted
  split
  · next h =>
    exact iff_of_false (by simp) fun hv => hv.1.vote (by rintro hn; simp [hn] at h) h.1
  split
  · next h => exact iff_of_false (by simp) fun hv => h (decide_eq_decide.mpr hv.1.base)
  split
  · next h =>
    refine iff_of_false (by simp) fun hv => h ?_
    rw [Bool.eq_iff_iff, decide_eq_true_iff, Option.isSome_iff_ne_none]
    exact hv.1.snapshot.symm
  split
  · next h => exact iff_of_false (by simp) fun hv => absurd hv.1.baseTerm_le (by omega)
  split
  · next h => exact iff_of_false (by simp) fun hv => absurd hv.1.base_le (by omega)
  next hvote hbase hsnap hbt hcommit =>
  cases hw : validateEntries p.currentTerm p.baseIndex 0 p.baseTerm p.log with
  | error e =>
    refine iff_of_false (by simp) fun hv => ?_
    rw [hw] at hent
    exact absurd (hent.mpr ⟨hv.1.log, hv.2⟩) (by simp)
  | ok _ =>
    obtain ⟨hlog, hmax⟩ := hent.mp hw
    simp only [hlog.getLast_index]
    split
    · next h => exact iff_of_false (by simp) fun hv => absurd hv.1.commit_le (by omega)
    · next h =>
      refine iff_of_true rfl ⟨?_, hmax⟩
      exact {
        vote := fun hv h0 => hvote ⟨h0, Option.isSome_iff_ne_none.mpr hv⟩
        base := decide_eq_decide.mp (Decidable.not_not.mp hbase)
        snapshot := by
          rw [← Option.isSome_iff_ne_none, ← Decidable.not_not.mp hsnap, decide_eq_true_iff]
        baseTerm_le := by omega
        base_le := by omega
        log := hlog
        commit_le := by omega }

/-! ## The engine's states -/

namespace Raft

open Infra

theorem wellFormed_of_reachable {r : Raft}
    (h : (engineSystem fun p => validatePersisted p = .ok ()).Reachable r) : r.WellFormed := by
  refine h.invariant (P := WellFormed) ?_ fun s t _ hs hstep => EngineStep.wellFormed hs hstep
  rintro _ ⟨id, peers, cfg, seed, p, hp, rfl⟩
  exact wellFormed_new (validatePersisted_ok_iff.mp hp).1

/-- **Every state of an engine run is a savable state**: whatever messages and calls it took, the
store accepts it, and its indices are in order. -/
theorem engine_state_savable {r : Raft}
    (h : (engineSystem fun p => validatePersisted p = .ok ()).Reachable r)
    (hmax : r.lastIndex ≤ u64Max) :
    validatePersisted r.persistedSnapshot = .ok () ∧ r.persistedSnapshot.Valid ∧
      r.baseIndex ≤ r.lastApplied ∧ r.lastApplied ≤ r.commitIndex ∧
      r.commitIndex ≤ r.lastIndex := by
  have hw := wellFormed_of_reachable h
  exact ⟨validatePersisted_ok_iff.mpr ⟨hw.valid, fun _ => hmax⟩, hw.valid, hw.base_le,
    hw.applied_le, hw.commit_le⟩

/-- A group of one, after the tick that elects it. -/
def loneLeader : Raft :=
  (Raft.new "brain-0" [] { heartbeatTicks := 1, electionMinTicks := 1, electionMaxTicks := 1 } 7
    Persisted.default).tick

theorem engine_state_savable_loneLeader :
    validatePersisted loneLeader.persistedSnapshot = .ok () ∧ loneLeader.persistedSnapshot.Valid ∧
      loneLeader.baseIndex ≤ loneLeader.lastApplied ∧
      loneLeader.lastApplied ≤ loneLeader.commitIndex ∧
      loneLeader.commitIndex ≤ loneLeader.lastIndex :=
  engine_state_savable
    (TransitionSystem.Reachable.step
      (TransitionSystem.Reachable.of_init ⟨"brain-0", [], _, 7, Persisted.default, rfl, rfl⟩)
      (EngineStep.call _ .tick trivial))
    (by decide)

end Raft

end FiduciaBrain
