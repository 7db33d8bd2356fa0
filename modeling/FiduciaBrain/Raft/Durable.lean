import FiduciaBrain.Raft.AppendSpec

/-!
# What an engine never takes back

Over any run: terms, commit points, bases and hand-outs only grow, a vote stays for as long as its
term does, and a committed entry stays what it is until it is compacted (`durable_run`). Messages
from strangers and under another name change nothing (`step_of_forged`).
-/

namespace FiduciaBrain.Raft

open Infra

/-- Progress that keeps the vote of the term. -/
structure Durable (r r' : Raft) : Prop where
  progress : Progress r r'
  vote : r'.currentTerm = r.currentTerm → ∀ v, r.votedFor = some v → r'.votedFor = some v

namespace Durable

theorem refl (r : Raft) : Durable r r := ⟨.refl r, fun _ _ hv => hv⟩

theorem trans {r s t : Raft} (h : Durable r s) (h' : Durable s t) : Durable r t where
  progress := h.progress.trans h'.progress
  vote := by
    intro hterm v hv
    have hrs := h.progress.term_le
    have hst := h'.progress.term_le
    exact h'.vote (by omega) v (h.vote (by omega) v hv)

end Durable

/-- **A move keeps the vote of the term.** -/
theorem Move.vote {i : Input} {r r' : Raft} (hm : Move i r r')
    (hterm : r'.currentTerm = r.currentTerm) {v : NodeId} (hv : r.votedFor = some v) :
    r'.votedFor = some v := by
  have same : ∀ {c : Core}, r'.core = c → c.votedFor = r.votedFor → r'.votedFor = some v :=
    fun hc h => ((congrArg Core.votedFor hc).trans h).trans hv
  cases hm with
  | quiet hc _ => exact same hc rfl
  | follow t hc _ =>
    rcases Nat.lt_or_ge r.currentTerm t with hlt | hle
    · -- a later term is adopted
      have ht := congrArg Core.currentTerm (hc.trans (Core.follow_of_lt hlt))
      exact absurd (hterm.symm.trans ht) (Nat.ne_of_lt hlt)
    · exact same (hc.trans (Core.follow_of_le hle)) rfl
  | poll _ heq => exact same (heq ▸ core_poll r) rfl
  | stand _ heq =>
    have ht := congrArg Core.currentTerm (heq ▸ core_stand r : r'.core = _)
    exact absurd (hterm.symm.trans ht) (Nat.ne_of_lt (Nat.lt_succ_self _))
  | tally _ _ _ _ _ heq => exact same (congrArg core heq) rfl
  | lead _ _ heq => exact same (heq ▸ core_becomeLeader r) rfl
  | grant c _ _ _ _ _ hfree _ hc _ =>
    -- the vote is free or already the candidate's
    have hc' : r.votedFor = some c := hfree.resolve_left (by simp [hv])
    exact (congrArg Core.votedFor hc).trans (hc'.symm.trans hv)
  | append l req g _ _ _ _ _ _ htook hc _ =>
    obtain ⟨d, hcore⟩ := core_took htook
      (min req.leaderCommit (req.prevLogIndex + req.entries.length))
    exact same (hc.trans hcore) rfl
  | covered _ _ _ _ _ _ _ hc _ => exact same hc rfl
  | install _ _ _ _ _ _ _ _ hc _ => exact same hc rfl
  | matched _ _ _ _ _ _ hc _ => exact same hc rfl
  | advance _ _ _ _ _ _ heq => exact same (congrArg core heq) rfl
  | push _ _ _ heq => exact same (congrArg core heq) rfl
  | compact index snapshot _ hbase hcommit heq =>
    rw [Raft.compact, if_neg (by omega)] at heq
    exact same (congrArg core heq) rfl

/-- **A step of the driver takes nothing back.** -/
theorem EngineStep.durable {r r' : Raft} (h : r.WellFormed) (hs : EngineStep r r') :
    Durable r r' := by
  cases hs with
  | call i ha =>
    exact (run_preserves (P := Durable r) h ha (.refl r) fun s t hs hd hm =>
      hd.trans ⟨hm.progress hs, fun ht v hv => hm.vote ht hv⟩).2
  | ready => exact ⟨progress_ready r, fun _ _ hv => hv⟩

theorem durable_of_steps {r r' : Raft}
    (h : (engineSystem fun p => validatePersisted p = .ok ()).Reachable r)
    (hs : (engineSystem fun p => validatePersisted p = .ok ()).Steps r r') : Durable r r' :=
  TransitionSystem.Steps.rel Durable.refl (fun _ _ _ => Durable.trans)
    (fun _ _ hr hstep => EngineStep.durable (wellFormed_of_reachable hr) hstep) h hs

/-- A committed entry that is not compacted is found at its index. -/
theorem Durable.entryAt {r r' : Raft} (hd : Durable r r') (h : r.WellFormed) (h' : r'.WellFormed)
    {i : Nat} {e : LogEntry} (he : r.entryAt i = some e) (hc : i ≤ r.commitIndex)
    (hb : r'.baseIndex < i) : r'.entryAt i = some e := by
  have hi := index_of_entryAt h he
  have hmem : e ∈ r.log := List.mem_of_getElem? (entryAt_eq_some.mp he).2
  have hkept := hd.progress.kept e hmem (hi ▸ hc) (hi ▸ hb)
  exact hi ▸ entryAt_of_mem h' hkept

theorem step_of_forged {r : Raft} {sender : NodeId} {msg : RaftMessage}
    (h : sender ∉ r.peers ∨ bodyIdentityMatches sender msg = false) : r.step sender msg = r := by
  unfold step
  rw [if_pos (by rcases h with h | h <;> simp [h])]

/-- **Nothing durable is taken back**, over any run of any engine rebuilt from a validated state. -/
theorem durable_run {r r' : Raft}
    (h : (engineSystem fun p => validatePersisted p = .ok ()).Reachable r)
    (hs : (engineSystem fun p => validatePersisted p = .ok ()).Steps r r') :
    (r.currentTerm ≤ r'.currentTerm ∧ r.commitIndex ≤ r'.commitIndex ∧
      r.baseIndex ≤ r'.baseIndex ∧ r.lastApplied ≤ r'.lastApplied) ∧
    (r'.currentTerm = r.currentTerm → r'.votedFor = r.votedFor ∨ r.votedFor = none) ∧
    (∀ i e, r.entryAt i = some e → i ≤ r.commitIndex → r'.baseIndex < i → r'.entryAt i = some e) ∧
    ∀ sender msg, sender ∉ r.peers ∨ bodyIdentityMatches sender msg = false →
      r.step sender msg = r := by
  have hd := durable_of_steps h hs
  have hp := hd.progress
  refine ⟨⟨hp.term_le, hp.commit_le, hp.base_le, hp.applied_le⟩, fun hterm => ?_,
    fun i e he hc hb => hd.entryAt (wellFormed_of_reachable h)
      (wellFormed_of_reachable (h.steps hs)) he hc hb, fun _ _ => step_of_forged⟩
  cases hv : r.votedFor with
  | none => exact Or.inr rfl
  | some v => exact Or.inl (hd.vote hterm v hv)

/-- The follower, with a vote for its leader. -/
def voter : Raft :=
  (newcomer.run (.step "brain-0" (.requestVote ⟨1, "brain-0", 0, 0, false⟩))).run
    (.step "brain-0" (.appendEntries firstAppend))

/-- The other candidate of the term does not get the vote, the next leader's log does not touch what
was committed, and a stranger changes nothing. -/
theorem durable_run_takeover :
    let asked := voter.run (.step "brain-2" (.requestVote ⟨1, "brain-2", 9, 1, false⟩))
    let taken := asked.run (.step "brain-2" (.appendEntries takeover))
    asked.votedFor = some "brain-0" ∧
      voter.commitIndex = 2 ∧ taken.commitIndex = 4 ∧ voter.lastApplied ≤ taken.lastApplied ∧
      taken.entryAt 2 = some ⟨1, 2, some (.setScalePlan ⟨5, 1⟩)⟩ ∧
      voter.entryAt 3 ≠ taken.entryAt 3 ∧
      taken.step "brain-9" (.appendEntries takeover) = taken := by
  intro asked taken
  have hvoter : (engineSystem fun p => validatePersisted p = .ok ()).Reachable voter :=
    (reachable_newcomer.step (.call _ (.step _ _) trivial)).step (.call _ (.step _ _) trivial)
  have hasked : (engineSystem fun p => validatePersisted p = .ok ()).Steps voter asked :=
    .single (.call _ (.step _ _) trivial)
  have htaken : (engineSystem fun p => validatePersisted p = .ok ()).Steps asked taken :=
    .single (.call _ (.step _ _) trivial)
  have hvote : voter.votedFor = some "brain-0" ∧ asked.currentTerm = voter.currentTerm := by
    decide +kernel
  have hentry : voter.entryAt 2 = some ⟨1, 2, some (.setScalePlan ⟨5, 1⟩)⟩ ∧
      2 ≤ voter.commitIndex ∧ taken.baseIndex < 2 := by decide +kernel
  obtain ⟨-, hkept, -, -⟩ := durable_run hvoter hasked
  obtain ⟨hgrows, -, hcommitted, -⟩ := durable_run hvoter (hasked.trans htaken)
  obtain ⟨-, -, -, hforged⟩ := durable_run (hvoter.steps (hasked.trans htaken)) (.refl _)
  refine ⟨?_, by decide +kernel, by decide +kernel, hgrows.2.2.2,
    hcommitted 2 _ hentry.1 hentry.2.1 hentry.2.2, by decide +kernel, ?_⟩
  · rcases hkept hvote.2 with h | h
    · rw [h, hvote.1]
    · rw [hvote.1] at h
      cases h
  · exact hforged "brain-9" _ (Or.inl (by decide +kernel))

end FiduciaBrain.Raft
