import FiduciaBrain.Raft.Log

/-!
# The append loop

What `spliceEntries` does to a log, for any run of entries that starts inside it. Either every
entry is already there and nothing changes, or the log is cut at the first entry that is not and
the rest of the run is put in its place, or that entry is committed and the loop refuses before it
has changed anything (`spliceEntries_cases`).
-/

namespace FiduciaBrain.Raft

/-- Every entry of the run is in the log, as far as terms tell. -/
def Agrees (r : Raft) (entries : List LogEntry) : Prop :=
  ∀ e ∈ entries, e.index ≤ r.lastIndex ∧ r.termAt e.index = e.term

@[simp] theorem agrees_nil (r : Raft) : r.Agrees [] := by simp [Agrees]

theorem agrees_cons {r : Raft} {e : LogEntry} {l : List LogEntry} :
    r.Agrees (e :: l) ↔ (e.index ≤ r.lastIndex ∧ r.termAt e.index = e.term) ∧ r.Agrees l := by
  simp [Agrees]

/-- The log with everything from `e` on replaced. -/
def replaceFrom (r : Raft) (e : LogEntry) (rest : List LogEntry) : Raft :=
  { r with log := r.log.take (e.index - r.baseIndex - 1) ++ e :: rest, dirty := true }

theorem out_commitThrough (g : Raft) (spliced : Bool) (n : Nat) :
    (g.commitThrough spliced n).out = g.out := by
  unfold commitThrough
  split <;> rfl

/-- At the end of the log the loop only pushes. -/
theorem spliceEntries_push {maxTerm : Nat} (entries : List LogEntry) :
    ∀ (prev : Nat) (r : Raft), r.dirty = true → LogValid maxTerm r.lastIndex prev entries →
      r.spliceEntries r.lastIndex entries
        = ({ r with log := r.log ++ entries }, true, r.lastIndex + entries.length) := by
  induction entries with
  | nil =>
    intro prev r _ _
    simp [spliceEntries]
  | cons e rest ih =>
    intro prev r hd hv
    rw [spliceEntries, if_neg (by rw [hv.1]; omega)]
    have hlast : ({ r with log := r.log ++ [e], dirty := true } : Raft).lastIndex = e.index := by
      simp only [lastIndex, List.length_append, List.length_singleton] at hv ⊢
      have := hv.1
      omega
    have hih := ih e.term { r with log := r.log ++ [e], dirty := true } rfl
      (by rw [hlast, hv.1]; exact hv.2.2.2.2)
    rw [hlast] at hih
    rw [hih, hv.1]
    simp only [List.append_assoc, List.singleton_append, List.length_cons, hd]
    rw [show r.lastIndex + 1 + rest.length = r.lastIndex + (rest.length + 1) from by omega]

/-- **The three outcomes of the loop.** -/
theorem spliceEntries_cases {r : Raft} {maxTerm : Nat} (entries : List LogEntry) :
    ∀ (k prev : Nat), r.baseIndex ≤ r.commitIndex → r.commitIndex ≤ r.lastIndex →
      k ≤ r.lastIndex → LogValid maxTerm k prev entries →
      (∃ c, r.spliceEntries k entries = (r, false, c) ∧
        ∃ e ∈ entries, e.index ≤ r.commitIndex ∧ r.termAt e.index ≠ e.term) ∨
      (r.Agrees entries ∧ r.spliceEntries k entries = (r, true, k + entries.length)) ∨
      ∃ pre e post, entries = pre ++ e :: post ∧ r.Agrees pre ∧
        ¬ (e.index ≤ r.lastIndex ∧ r.termAt e.index = e.term) ∧ r.commitIndex < e.index ∧
        e.index ≤ r.lastIndex + 1 ∧
        r.spliceEntries k entries = (r.replaceFrom e post, true, k + entries.length) := by
  induction entries with
  | nil =>
    intro k prev _ _ _ _
    exact Or.inr (Or.inl ⟨agrees_nil r, rfl⟩)
  | cons e rest ih =>
    intro k prev hbc hcl hk hv
    have hidx := hv.1
    by_cases hin : e.index ≤ r.lastIndex
    · by_cases hterm : r.termAt e.index = e.term
      · -- the entry is there: go on behind it
        rw [spliceEntries, if_pos hin, if_neg (by simpa using hterm), hidx]
        rcases ih (k + 1) e.term hbc hcl (hidx ▸ hin) hv.2.2.2.2 with
          ⟨c, hc, x, hx, hrest⟩ | ⟨ha, hs⟩ | ⟨pre, x, post, rfl, ha, hne, hci, hle, hs⟩
        · exact Or.inl ⟨c, hc, x, List.mem_cons_of_mem e hx, hrest⟩
        · refine Or.inr (Or.inl ⟨agrees_cons.mpr ⟨⟨hin, hterm⟩, ha⟩, ?_⟩)
          rw [hs, List.length_cons, Nat.add_assoc, Nat.add_comm 1]
        · refine Or.inr (Or.inr ⟨e :: pre, x, post, rfl, agrees_cons.mpr ⟨⟨hin, hterm⟩, ha⟩, hne,
            hci, hle, ?_⟩)
          rw [hs, List.length_cons, Nat.add_assoc, Nat.add_comm 1]
      · by_cases hci : e.index ≤ r.commitIndex
        · -- a committed entry would be rewritten
          refine Or.inl ⟨k, ?_, e, List.mem_cons_self, hci, hterm⟩
          rw [spliceEntries, if_pos hin, if_pos (by simpa using hterm), truncateFrom, if_pos hci]
        · refine Or.inr (Or.inr ⟨[], e, rest, rfl, agrees_nil r, fun h => hterm h.2, by omega,
            by omega, ?_⟩)
          rw [spliceEntries, if_pos hin, if_pos (by simpa using hterm), truncateFrom, if_neg hci,
            logSlot_eq_some (by omega) hin]
          have hlast : (r.replaceFrom e []).lastIndex = e.index := by
            simp only [lastIndex, replaceFrom, List.length_append, List.length_take,
              List.length_singleton] at hin ⊢
            omega
          have hpush := spliceEntries_push rest e.term (r.replaceFrom e []) rfl
            (by rw [hlast, hidx]; exact hv.2.2.2.2)
          rw [hlast] at hpush
          show spliceEntries (r.replaceFrom e []) e.index rest = _
          rw [hpush, hidx]
          simp [replaceFrom, Nat.add_assoc, Nat.add_comm 1]
    · -- beyond the end of the log
      have hend : e.index = r.lastIndex + 1 := by omega
      refine Or.inr (Or.inr ⟨[], e, rest, rfl, agrees_nil r, fun h => hin h.1, by omega, by omega,
        ?_⟩)
      have hfull : r.log.take (e.index - r.baseIndex - 1) = r.log := by
        rw [hend, lastIndex, List.take_of_length_le (by omega)]
      have hlast : (r.replaceFrom e []).lastIndex = e.index := by
        rw [hend]
        simp [lastIndex, replaceFrom, hfull, Nat.add_assoc]
      have hpush := spliceEntries_push rest e.term (r.replaceFrom e []) rfl
        (by rw [hlast, hidx]; exact hv.2.2.2.2)
      rw [hlast] at hpush
      rw [spliceEntries, if_neg hin,
        show ({ r with log := r.log ++ [e], dirty := true } : Raft) = r.replaceFrom e [] from by
          rw [replaceFrom, hfull],
        hpush, hidx]
      simp [replaceFrom, Nat.add_assoc, Nat.add_comm 1]

end FiduciaBrain.Raft
