import FiduciaBrain.Raft.Durable

/-!
# Handing the committed log out

* `mem_newlyCommitted`, `newlyCommitted_sorted`: what one drain hands out
* `since_runAll`: where the calls since a drain leave the hand-out point
* `handed_out`: a drain takes up where the drain before it ended, or where a leader's snapshot
  reaches beyond that
* `drains_disjoint`: nothing is handed out twice
-/

namespace FiduciaBrain.Raft

open Infra

variable {r s t : Raft}

/-! ## One drain -/

/-- **A drain hands out the committed commands above the hand-out point**, each with its index. -/
theorem mem_newlyCommitted {i : Nat} {c : Command} :
    (i, c) ∈ r.newlyCommitted ↔ r.lastApplied < i ∧ i ≤ r.commitIndex ∧
      ∃ e, r.entryAt i = some e ∧ e.command = some c := by
  have hentry : ∀ j, (r.logSlot j).bind (r.log[·]?) = r.entryAt j := fun _ => rfl
  simp only [newlyCommitted, hentry, List.mem_filterMap, List.mem_range'_1, Option.bind_eq_some_iff,
    Option.map_eq_some_iff, Prod.mk.injEq]
  constructor
  · rintro ⟨j, hj, e, he, d, hd, rfl, rfl⟩
    exact ⟨by omega, by omega, e, he, hd⟩
  · rintro ⟨hlow, hupto, e, he, hd⟩
    exact ⟨i, by omega, e, he, c, hd, rfl, rfl⟩

/-- It hands them out in the order of the log. -/
theorem newlyCommitted_sorted : r.newlyCommitted.Pairwise (·.1 < ·.1) := by
  refine List.Pairwise.filterMap _ (R := (· < ·)) ?_ (List.pairwise_lt_range' 1)
  intro i j hlt b hb c hc
  obtain ⟨_, _, hb⟩ := Option.bind_eq_some_iff.mp hb
  obtain ⟨_, _, rfl⟩ := Option.map_eq_some_iff.mp hb
  obtain ⟨_, _, hc⟩ := Option.bind_eq_some_iff.mp hc
  obtain ⟨_, _, rfl⟩ := Option.map_eq_some_iff.mp hc
  exact hlt

/-- No index between the hand-out point and the commit point is missing from the log. -/
theorem exists_entryAt_of_committed (h : r.WellFormed) {i : Nat} (hlow : r.lastApplied < i)
    (hupto : i ≤ r.commitIndex) : ∃ e, r.entryAt i = some e := by
  obtain ⟨e, he, -⟩ := exists_entryAt (Nat.lt_of_le_of_lt h.base_le hlow)
    (hupto.trans h.commit_le_last)
  exact ⟨e, he⟩

/-! ## The calls between two drains -/

/-- The engine after the calls, with no drain between them. -/
def runAll (r : Raft) (inputs : List Input) : Raft := inputs.foldl run r

@[simp] theorem runAll_nil (r : Raft) : r.runAll [] = r := rfl

@[simp] theorem runAll_concat (r : Raft) (inputs : List Input) (i : Input) :
    r.runAll (inputs ++ [i]) = (r.runAll inputs).run i := List.foldl_concat ..

/-- Each call is admissible at the engine that gets it. -/
def AdmissibleAll (r : Raft) : List Input → Prop
  | [] => True
  | i :: rest => r.Admissible i ∧ (r.run i).AdmissibleAll rest

theorem admissibleAll_concat {inputs : List Input} {i : Input} :
    r.AdmissibleAll (inputs ++ [i]) ↔ r.AdmissibleAll inputs ∧ (r.runAll inputs).Admissible i := by
  induction inputs generalizing r with
  | nil => exact and_comm
  | cons j rest ih =>
    rw [List.cons_append, AdmissibleAll, AdmissibleAll, ih, and_assoc]
    rfl

theorem steps_runAll {Valid : Persisted → Prop} {inputs : List Input}
    (ha : r.AdmissibleAll inputs) : (engineSystem Valid).Steps r (r.runAll inputs) := by
  induction inputs generalizing r with
  | nil => exact .refl r
  | cons i rest ih =>
    have hstep : (engineSystem Valid).step r (r.run i) := .call r i ha.1
    exact (TransitionSystem.Steps.single hstep).trans (ih ha.2)

/-- The last of the calls that moved the base from where it was at `s` to where it is at `t` was an
InstallSnapshot with these bytes. -/
def InstalledLast (s t : Raft) (inputs : List Input) (data : Bytes) : Prop :=
  ∃ before leader req after,
    inputs = before ++ .step leader (.installSnapshot req) :: after ∧ req.data = data ∧
      (s.runAll before).baseIndex < t.baseIndex ∧
      ((s.runAll before).run (.step leader (.installSnapshot req))).baseIndex = t.baseIndex

theorem InstalledLast.concat {inputs : List Input} {data : Bytes} {i : Input}
    (h : InstalledLast s t inputs data) (hbase : r.baseIndex = t.baseIndex) :
    InstalledLast s r (inputs ++ [i]) data := by
  obtain ⟨before, leader, req, after, rfl, hdata, hlow, hmoved⟩ := h
  exact ⟨before, leader, req, after ++ [i], by rw [List.append_assoc, List.cons_append], hdata,
    hbase ▸ hlow, hbase ▸ hmoved⟩

/-- Where the calls since the drain that left `s` took the hand-out point: nowhere, or to the base
of a leader's snapshot that is still to be restored. -/
inductive Since (s : Raft) (inputs : List Input) (t : Raft) : Prop
  | calm : t.pendingRestore = false → t.lastApplied = s.lastApplied → Since s inputs t
  | restoring (data : Bytes) : t.pendingRestore = true → t.snapshot = some data →
      t.lastApplied = t.baseIndex → s.lastApplied < t.baseIndex →
      InstalledLast s t inputs data → Since s inputs t

/-- Compaction does not go beyond the hand-out point, so it leaves a snapshot that is still to be
restored alone. -/
theorem Since.compact {inputs : List Input} {index : Nat} {bytes : Bytes}
    (h : Since s inputs t) (hindex : index ≤ t.lastApplied) :
    Since s (inputs ++ [.compact index bytes]) (t.compact index bytes) := by
  cases h with
  | calm hp hl =>
    have hkept : (t.compact index bytes).pendingRestore = t.pendingRestore ∧
        (t.compact index bytes).lastApplied = t.lastApplied := by
      unfold Raft.compact
      split <;> exact ⟨rfl, rfl⟩
    exact .calm (hkept.1.trans hp) (hkept.2.trans hl)
  | restoring data hp hsnap hl hlt hlast =>
    have hnoop : t.compact index bytes = t := if_pos (Or.inl (hl ▸ hindex))
    rw [hnoop]
    exact .restoring data hp hsnap hl hlt (hlast.concat rfl)

/-- **One more call since the drain.** -/
theorem Since.run {inputs : List Input} {i : Input} (h : Since s inputs (s.runAll inputs))
    (hs : s.WellFormed) (hp : Progress s (s.runAll inputs)) (ht : (s.runAll inputs).WellFormed)
    (ha : (s.runAll inputs).Admissible i) : Since s (inputs ++ [i]) (s.runAll (inputs ++ [i])) := by
  rw [runAll_concat]
  by_cases hi : ∀ index snapshot, i ≠ .compact index snapshot
  · rcases restore_run ht hi with ⟨hpend, happ, hbase, hsnap⟩ |
      ⟨hpend, hlt, leader, req, rfl, happ, hbase, hsnap⟩
    · cases h with
      | calm hc hl => exact .calm (hpend.trans hc) (happ.trans hl)
      | restoring data hc hdata hl hlt hlast =>
        exact .restoring data (hpend.trans hc) (hsnap.trans hdata)
          (happ.trans (hl.trans hbase.symm)) (hbase ▸ hlt) (hlast.concat hbase)
    · -- the snapshot of a leader reaches beyond all that was committed here
      have happlied : s.lastApplied ≤ (s.runAll inputs).commitIndex :=
        hs.applied_le.trans hp.commit_le
      refine .restoring req.data hpend hsnap (happ.trans hbase.symm)
        (Nat.lt_of_le_of_lt happlied hlt) ⟨inputs, leader, req, [], rfl, rfl, ?_, rfl⟩
      exact Nat.lt_of_le_of_lt ht.base_le_commit hlt
  · obtain ⟨index, snapshot, rfl⟩ : ∃ index snapshot, i = .compact index snapshot := by
      simpa using hi
    exact h.compact ha

theorem since_runAll {inputs : List Input} (hs : s.WellFormed) (hcalm : s.pendingRestore = false)
    (ha : s.AdmissibleAll inputs) :
    (s.runAll inputs).WellFormed ∧ Progress s (s.runAll inputs) ∧
      Since s inputs (s.runAll inputs) := by
  induction inputs using List.reverseRecOn with
  | nil => exact ⟨hs, .refl s, .calm hcalm rfl⟩
  | append_singleton inputs i ih =>
    obtain ⟨hbefore, hi⟩ := admissibleAll_concat.mp ha
    obtain ⟨hwf, hp, hsince⟩ := ih hbefore
    refine ⟨?_, ?_, hsince.run hs hp hwf hi⟩
    · rw [runAll_concat]
      exact hwf.run hi
    · rw [runAll_concat]
      exact hp.trans (progress_run hwf hi)

/-! ## Two drains -/

/-- What the drain at `t` hands out, `second`, when the drain before it, `first`, left `s` and the
calls since led from there to `t`. -/
structure HandedOut (first second : Ready) (s t : Raft) (inputs : List Input) : Prop where
  continues : second.restore = none → second.appliedFrom = first.appliedUpto
  restores : ∀ data, second.restore = some data →
    t.snapshot = some data ∧ InstalledLast s t inputs data ∧
      second.appliedFrom = t.baseIndex ∧ first.appliedUpto < second.appliedFrom
  upto : second.appliedUpto = t.commitIndex
  committed : ∀ i c, (i, c) ∈ second.committed ↔
    second.appliedFrom < i ∧ i ≤ second.appliedUpto ∧
      ∃ e, t.entryAt i = some e ∧ e.index = i ∧ e.command = some c
  sorted : second.committed.Pairwise (·.1 < ·.1)
  noGap : ∀ i, second.appliedFrom < i → i ≤ second.appliedUpto → ∃ e, t.entryAt i = some e
  kept : ∀ u, (engineSystem fun p => validatePersisted p = .ok ()).Steps t u →
    ∀ i e, i ≤ second.appliedUpto → t.entryAt i = some e →
      u.entryAt i = some e ∨ i ≤ u.baseIndex

/-- **The committed log is handed out once and in order**, in every run of an engine rebuilt from a
validated state: from one drain to the next nothing is left out but what a leader's snapshot covers,
nothing is handed out again, and nothing that was handed out changes later. -/
theorem handed_out (h : (engineSystem fun p => validatePersisted p = .ok ()).Reachable r)
    {inputs : List Input} (ha : r.ready.2.AdmissibleAll inputs) :
    HandedOut r.ready.1 (r.ready.2.runAll inputs).ready.1 r.ready.2 (r.ready.2.runAll inputs)
      inputs := by
  have hwf := wellFormed_of_reachable h
  have hchain : r.ready.2.lastApplied = r.ready.1.appliedUpto := rfl
  have hreach : (engineSystem fun p => validatePersisted p = .ok ()).Reachable
      (r.ready.2.runAll inputs) :=
    (h.step (.ready r)).steps (steps_runAll ha)
  obtain ⟨ht, -, hsince⟩ := since_runAll hwf.ready rfl ha
  generalize r.ready.2.runAll inputs = t at hreach ht hsince ⊢
  refine ⟨fun hnone => ?_, fun data hsome => ?_, appliedUpto_ready ht, fun i c => ?_,
    newlyCommitted_sorted, fun i hlow hupto => ?_, fun u hu i e hupto he => ?_⟩
  · cases hsince with
    | calm _ hl => exact hl.trans hchain
    | restoring data hp hsnap =>
      simp [Raft.ready, hp, hsnap] at hnone
  · cases hsince with
    | calm hp => simp [Raft.ready, hp] at hsome
    | restoring data' hp hsnap hl hlt hlast =>
      obtain rfl : data' = data := by simpa [Raft.ready, hp, hsnap] using hsome
      exact ⟨hsnap, hlast, hl, Nat.lt_of_lt_of_eq hlt hl.symm⟩
  · rw [appliedUpto_ready ht]
    refine mem_newlyCommitted.trans (and_congr_right fun _ => and_congr_right fun _ =>
      exists_congr fun e => and_congr_right fun he => ?_)
    exact (and_iff_right (index_of_entryAt ht he)).symm
  · exact exists_entryAt_of_committed ht hlow (appliedUpto_ready ht ▸ hupto)
  · rw [or_iff_not_imp_right]
    exact fun hb => (durable_of_steps hreach hu).entryAt ht
      (wellFormed_of_reachable (hreach.steps hu)) he (appliedUpto_ready ht ▸ hupto)
      (Nat.lt_of_not_le hb)

/-- The follower is drained under its first leader and again under the next one, whose log has cut
off what it had not committed; a refused append comes in between. -/
theorem handed_out_takeover :
    let s := follower.ready.2
    let inputs := [.step "brain-2" (.appendEntries gapped),
      .step "brain-2" (.appendEntries takeover)]
    HandedOut follower.ready.1 (s.runAll inputs).ready.1 s (s.runAll inputs) inputs ∧
      follower.ready.1.committed = [(2, .setScalePlan ⟨5, 1⟩)] ∧
      (s.runAll inputs).ready.1.appliedFrom = 2 ∧
      (s.runAll inputs).ready.1.committed = [(4, .setScalePlan ⟨9, 1⟩)] := by
  intro s inputs
  have hout : HandedOut follower.ready.1 (s.runAll inputs).ready.1 s (s.runAll inputs) inputs :=
    handed_out reachable_follower ⟨trivial, trivial, trivial⟩
  have hupto : (s.runAll inputs).ready.1.restore = none ∧ follower.ready.1.appliedUpto = 2 := by
    decide +kernel
  refine ⟨hout, by decide +kernel, ?_, by decide +kernel⟩
  rw [hout.continues hupto.1, hupto.2]

/-- **Nothing is handed out twice**: every index that a drain hands out is below those of all later
drains. -/
theorem drains_disjoint (h : (engineSystem fun p => validatePersisted p = .ok ()).Reachable r)
    (hs : (engineSystem fun p => validatePersisted p = .ok ()).Steps r.ready.2 t)
    {i j : Nat} {c d : Command} (hi : (i, c) ∈ r.ready.1.committed)
    (hj : (j, d) ∈ t.ready.1.committed) : i < j := by
  have happlied := (durable_of_steps (h.step (.ready r)) hs).progress.applied_le
  rw [lastApplied_ready (wellFormed_of_reachable h)] at happlied
  obtain ⟨-, hupto, -⟩ := mem_newlyCommitted.mp hi
  obtain ⟨hlow, -⟩ := mem_newlyCommitted.mp hj
  exact Nat.lt_of_le_of_lt (hupto.trans happlied) hlow

end FiduciaBrain.Raft
