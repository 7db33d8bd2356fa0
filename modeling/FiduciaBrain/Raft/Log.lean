import FiduciaBrain.Raft.Engine
import FiduciaBrain.TermLog.Basic

/-!
# Reading the log

* `LogValid`: the shape of a run of entries that both the engine's append check and the store's
  recovery check walk through
* `Raft.Holds`: the engine's compacted log stands for a whole list of entries `l`, the ones folded
  into its snapshot included; `lastIndex`, `lastTerm` and `termAt` then read that list
-/

namespace FiduciaBrain

open TermLog (Termed termOf)

instance : Termed LogEntry where
  termOf := LogEntry.term

@[simp] theorem termOf_logEntry (e : LogEntry) : termOf e = e.term := rfl

/-! ## Valid runs of entries -/

/-- Entries that run on from index `idx` with non-zero terms from `prev` up to `maxTerm`, never
descending. -/
def LogValid (maxTerm : Nat) : Nat → Nat → List LogEntry → Prop
  | _, _, [] => True
  | idx, prev, e :: rest =>
    e.index = idx + 1 ∧ e.term ≠ 0 ∧ prev ≤ e.term ∧ e.term ≤ maxTerm ∧
      LogValid maxTerm (idx + 1) e.term rest

/-- The term a run of entries ends in, started from `prev`. -/
def endTerm (prev : Nat) (l : List LogEntry) : Nat := (l.getLast?.map LogEntry.term).getD prev

@[simp] theorem endTerm_nil (prev : Nat) : endTerm prev [] = prev := rfl

@[simp] theorem endTerm_append_cons (prev : Nat) (l r : List LogEntry) (e : LogEntry) :
    endTerm prev (l ++ e :: r) = endTerm e.term r := by
  unfold endTerm
  rw [List.getLast?_append, List.getLast?_cons]
  cases r.getLast? <;> rfl

theorem endTerm_cons (prev : Nat) (e : LogEntry) (l : List LogEntry) :
    endTerm prev (e :: l) = endTerm e.term l := endTerm_append_cons prev [] l e

namespace LogValid

variable {maxTerm idx prev : Nat} {l r : List LogEntry}

theorem append : LogValid maxTerm idx prev (l ++ r) ↔
    LogValid maxTerm idx prev l ∧ LogValid maxTerm (idx + l.length) (endTerm prev l) r := by
  induction l generalizing idx prev with
  | nil => simp [LogValid]
  | cons e rest ih =>
    simp only [List.cons_append, LogValid, ih, endTerm_cons, List.length_cons, and_assoc,
      Nat.add_assoc, Nat.add_comm 1]

theorem mono {maxTerm' : Nat} (h : LogValid maxTerm idx prev l) (hle : maxTerm ≤ maxTerm') :
    LogValid maxTerm' idx prev l := by
  induction l generalizing idx prev with
  | nil => trivial
  | cons e rest ih =>
    obtain ⟨h1, h2, h3, h4, h5⟩ := h
    exact ⟨h1, h2, h3, h4.trans hle, ih h5⟩

theorem take (n : Nat) (h : LogValid maxTerm idx prev l) : LogValid maxTerm idx prev (l.take n) :=
  (append.mp ((List.take_append_drop n l).symm ▸ h)).1

theorem drop (n : Nat) (h : LogValid maxTerm idx prev l) :
    LogValid maxTerm (idx + (l.take n).length) (endTerm prev (l.take n)) (l.drop n) :=
  (append.mp ((List.take_append_drop n l).symm ▸ h)).2

theorem index_eq (h : LogValid maxTerm idx prev l) {i : Nat} (hi : i < l.length) :
    l[i].index = idx + i + 1 := by
  induction l generalizing idx prev i with
  | nil => simp at hi
  | cons e rest ih =>
    cases i with
    | zero => simpa using h.1
    | succ i =>
      rw [List.getElem_cons_succ, ih h.2.2.2.2]
      omega

theorem term_ne_zero (h : LogValid maxTerm idx prev l) {e : LogEntry} (he : e ∈ l) :
    e.term ≠ 0 := by
  induction l generalizing idx prev with
  | nil => cases he
  | cons x rest ih =>
    rcases List.mem_cons.mp he with rfl | he
    · exact h.2.1
    · exact ih h.2.2.2.2 he

theorem term_le (h : LogValid maxTerm idx prev l) {e : LogEntry} (he : e ∈ l) :
    e.term ≤ maxTerm := by
  induction l generalizing idx prev with
  | nil => cases he
  | cons x rest ih =>
    rcases List.mem_cons.mp he with rfl | he
    · exact h.2.2.2.1
    · exact ih h.2.2.2.2 he

theorem endTerm_le (h : LogValid maxTerm idx prev l) (hp : prev ≤ maxTerm) :
    endTerm prev l ≤ maxTerm := by
  induction l generalizing idx prev with
  | nil => exact hp
  | cons e rest ih => rw [endTerm_cons]; exact ih h.2.2.2.2 h.2.2.2.1

theorem le_endTerm (h : LogValid maxTerm idx prev l) : prev ≤ endTerm prev l := by
  induction l generalizing idx prev with
  | nil => exact Nat.le_refl _
  | cons e rest ih => rw [endTerm_cons]; exact h.2.2.1.trans (ih h.2.2.2.2)

/-- A run bounds its own terms by the last. -/
theorem of_endTerm_le {maxTerm' : Nat} (h : LogValid maxTerm idx prev l)
    (hle : endTerm prev l ≤ maxTerm') : LogValid maxTerm' idx prev l := by
  induction l generalizing idx prev with
  | nil => trivial
  | cons e rest ih =>
    rw [endTerm_cons] at hle
    exact ⟨h.1, h.2.1, h.2.2.1, (le_endTerm h.2.2.2.2).trans hle, ih h.2.2.2.2 hle⟩

end LogValid

/-- What the append check lets through. -/
theorem logValid_of_contiguous {req : AppendEntriesReq} (h : entriesAreContiguous req = true) :
    req.term ≠ 0 ∧ (req.prevLogIndex = 0 ↔ req.prevLogTerm = 0) ∧
      LogValid req.term req.prevLogIndex req.prevLogTerm req.entries := by
  have key : ∀ (l : List LogEntry) (position previousTerm : Nat),
      entriesAreContiguous.go req position previousTerm l = true →
      LogValid req.term (req.prevLogIndex + position) previousTerm l := by
    intro l
    induction l with
    | nil => intros; trivial
    | cons e rest ih =>
      intro position previousTerm h
      rw [entriesAreContiguous.go] at h
      split at h
      · cases h
      · next expectedIndex hexp =>
        have hexp' : expectedIndex = req.prevLogIndex + position + 1 := by
          simp only [checkedAdd, Option.bind_eq_some_iff] at hexp
          obtain ⟨first, h1, h2⟩ := hexp
          split at h1 <;> simp at h1
          split at h2 <;> simp at h2
          omega
        split at h
        · cases h
        · next hne =>
          simp only [not_or, Decidable.not_not] at hne
          exact ⟨by omega, hne.2.1, by omega, by omega, by
            simpa [Nat.add_assoc] using ih (position + 1) e.term h⟩
  unfold entriesAreContiguous at h
  split at h
  · cases h
  · next hne =>
    simp only [not_or, ne_eq, Decidable.not_not] at hne
    exact ⟨hne.1, by simpa using hne.2, by simpa using key _ _ _ h⟩

namespace Raft

/-! ## Terms at an index -/

variable {r : Raft}

theorem logSlot_eq_some {i : Nat} (h : r.baseIndex < i) (h' : i ≤ r.lastIndex) :
    r.logSlot i = some (i - r.baseIndex - 1) := by
  rw [logSlot, if_neg (by omega)]

theorem logSlot_eq_none {i : Nat} (h : i ≤ r.baseIndex ∨ r.lastIndex < i) : r.logSlot i = none := by
  rw [logSlot, if_pos (by omega)]

@[simp] theorem termAt_base : r.termAt r.baseIndex = r.baseTerm := if_pos rfl

theorem termAt_of_lt {i : Nat} (h : i < r.baseIndex) : r.termAt i = 0 := by
  rw [termAt, if_neg (by omega), logSlot_eq_none (by omega)]
  rfl

theorem termAt_of_gt {i : Nat} (h : r.lastIndex < i) : r.termAt i = 0 := by
  have : r.baseIndex ≤ r.lastIndex := Nat.le_add_right _ _
  rw [termAt, if_neg (by omega), logSlot_eq_none (by omega)]
  rfl

/-- Inside the live log: the term of the entry in its slot. -/
theorem termAt_eq_getElem {k : Nat} (h : k < r.log.length) :
    r.termAt (r.baseIndex + k + 1) = r.log[k].term := by
  have hlast : r.lastIndex = r.baseIndex + r.log.length := rfl
  rw [termAt, if_neg (by omega), logSlot_eq_some (by omega) (by omega)]
  have hk : r.baseIndex + k + 1 - r.baseIndex - 1 = k := by omega
  simp [hk, h]

/-- The term at the end of a prefix of the live log. -/
theorem termAt_eq_endTerm {k : Nat} (h : k ≤ r.log.length) :
    r.termAt (r.baseIndex + k) = endTerm r.baseTerm (r.log.take k) := by
  cases k with
  | zero => simp
  | succ k =>
    rw [show r.baseIndex + (k + 1) = r.baseIndex + k + 1 from rfl, termAt_eq_getElem (by omega),
      List.take_succ_eq_append_getElem (by omega), endTerm_append_cons, endTerm_nil]

/-- The entry at a log index, if it is live. -/
def entryAt (r : Raft) (index : Nat) : Option LogEntry := (r.logSlot index).bind (r.log[·]?)

/-! ## The log an engine stands for -/

/-- The engine's log stands for the whole list `l`: its first `baseIndex` entries are the ones
folded into the snapshot, the rest is live. -/
structure Holds (r : Raft) (l : List LogEntry) : Prop where
  length : l.length = r.lastIndex
  live : l.drop r.baseIndex = r.log
  base : TermLog.lastTerm (l.take r.baseIndex) = r.baseTerm

namespace Holds

variable {l : List LogEntry}

theorem base_le (h : r.Holds l) : r.baseIndex ≤ l.length := by
  rw [h.length]
  exact Nat.le_add_right _ _

theorem append_live (h : r.Holds l) : l.take r.baseIndex ++ r.log = l := by
  rw [← h.live, List.take_append_drop]

/-- Reading a term reads the list, from the boundary on. -/
theorem termAt (h : r.Holds l) {i : Nat} (hb : r.baseIndex ≤ i) (hi : i ≤ l.length) :
    r.termAt i = TermLog.lastTerm (l.take i) := by
  obtain ⟨k, rfl⟩ := Nat.exists_eq_add_of_le hb
  have hlen := h.length
  have hk : k ≤ r.log.length := by rw [lastIndex] at hlen; omega
  rw [termAt_eq_endTerm hk, List.take_add, h.live]
  cases hq : r.log.take k using List.reverseRecOn with
  | nil => simpa using h.base.symm
  | append_singleton q e =>
    rw [← List.append_assoc, TermLog.lastTerm_append_singleton, endTerm_append_cons]
    rfl

theorem lastTerm (h : r.Holds l) : r.lastTerm = TermLog.lastTerm l := by
  have hlast := h.termAt (i := l.length) h.base_le (Nat.le_refl _)
  rw [List.take_length, h.length, lastIndex, termAt_eq_endTerm (Nat.le_refl _),
    List.take_length] at hlast
  exact hlast

end Holds

end Raft

end FiduciaBrain
