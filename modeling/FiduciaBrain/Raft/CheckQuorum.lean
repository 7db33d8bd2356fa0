import FiduciaBrain.Raft.Calls
import FiduciaBrain.Raft.Emit

/-!
# Check-quorum

A leader counts, in windows of a random length, the peers that answer it in its term, and steps down
when a window closes on too few. So it cannot lead for long without them (`ticks_lt_budget`): the
window that is open may carry acknowledgements from before, the next one may not. And it steps down
for no other reason: what it counts is exactly who answered since the window opened (`Watch`).
-/

namespace FiduciaBrain.Raft

open Infra

variable {r r' : Raft}

instance (t : Nat) (msg : RaftMessage) : Decidable (AnswersIn t msg) := by
  unfold AnswersIn
  split <;> infer_instance

/-! ## A leader's vote and its timer -/

/-- Who runs or leads has voted for itself. -/
def Seated (r : Raft) : Prop := r.role = .candidate ∨ r.role = .leader → r.votedFor = some r.id

theorem Move.seated {i : Input} (hm : Move i r r') (hs : r.Seated) : r'.Seated := by
  have same : ∀ {c : Core}, r'.core = c → c.role = r.role → c.votedFor = r.votedFor →
      c.id = r.id → r'.Seated := by
    intro c hc hrole hvote hid h
    have hrole' : r'.role = r.role := (congrArg Core.role hc).trans hrole
    have hvote' : r'.votedFor = r.votedFor := (congrArg Core.votedFor hc).trans hvote
    have hid' : r'.id = r.id := (congrArg Core.id hc).trans hid
    rw [hrole'] at h
    rw [hvote', hid']
    exact hs h
  cases hm with
  | quiet hc _ => exact same hc rfl rfl rfl
  | follow t hc _ =>
    have hrole : r'.role = .follower := by
      refine (congrArg Core.role hc).trans ?_
      unfold Core.follow
      split <;> rfl
    intro h
    rw [hrole] at h
    rcases h with h | h <;> cases h
  | poll _ heq =>
    intro h
    rw [heq, show r.poll.role = .preCandidate from congrArg Core.role (core_poll r)] at h
    rcases h with h | h <;> cases h
  | stand _ heq =>
    have hc := core_stand r
    intro _
    rw [heq]
    exact (congrArg Core.votedFor hc).trans (congrArg some (congrArg Core.id hc).symm)
  | tally _ _ _ _ _ heq => exact same (congrArg core heq) rfl rfl rfl
  | lead hcand _ heq =>
    have hc := core_becomeLeader r
    intro _
    rw [heq]
    have hvote : r.becomeLeader.votedFor = r.votedFor := congrArg Core.votedFor hc
    have hid : r.becomeLeader.id = r.id := congrArg Core.id hc
    rw [hvote, hid]
    exact hs (Or.inl hcand)
  | grant c req _ _ _ _ hfree _ hc _ =>
    intro h
    have hrole : r'.role = r.role := congrArg Core.role hc
    have hvote : r'.votedFor = some c := congrArg Core.votedFor hc
    have hid : r'.id = r.id := congrArg Core.id hc
    rw [hrole] at h
    have hself := hs h
    rw [hvote, hid]
    rcases hfree with hnone | hc
    · rw [hnone] at hself
      cases hself
    · exact hc.symm.trans hself
  | append l req g _ _ _ _ _ _ htook hc _ =>
    obtain ⟨d, hcore⟩ := core_took htook
      (min req.leaderCommit (req.prevLogIndex + req.entries.length))
    exact same (hc.trans hcore) rfl rfl rfl
  | covered _ _ _ _ _ _ _ hc _ => exact same hc rfl rfl rfl
  | install _ _ _ _ _ _ _ _ hc _ => exact same hc rfl rfl rfl
  | matched _ _ _ _ _ _ hc _ => exact same hc rfl rfl rfl
  | advance _ _ _ _ _ _ heq => exact same (congrArg core heq) rfl rfl rfl
  | push _ _ _ heq => exact same (congrArg core heq) rfl rfl rfl
  | compact index snapshot _ hb hcommit heq =>
    rw [Raft.compact, if_neg (by omega)] at heq
    exact same (congrArg core heq) rfl rfl rfl

/-- A leader votes for nobody else. -/
theorem Seated.not_voted (hs : r.Seated) (hid : r.id ∉ r.peers) (hl : r.role = .leader)
    {c : NodeId} (hc : c ∈ r.peers) : ¬ (r.votedFor = none ∨ r.votedFor = some c) := by
  rw [hs (Or.inr hl)]
  rintro (h | h)
  · cases h
  · exact hid (Option.some.inj h ▸ hc)

/-! ## The window -/

/-- The check window of a leader: who answered in it, how long it is open, how long it stays so. -/
structure Window where
  acked : Finset NodeId
  elapsed : Nat
  timeout : Nat

def window (r : Raft) : Window := ⟨r.ackedSinceCheck, r.electionElapsed, r.randomizedElectionTimeout⟩

/-- Does the next tick close the window? -/
def Closes (r : Raft) : Prop := r.randomizedElectionTimeout ≤ r.electionElapsed + 1

instance (r : Raft) : Decidable r.Closes := inferInstanceAs (Decidable (_ ≤ _))

/-- The member still leads, and the same term. -/
structure Reigns (r r' : Raft) : Prop where
  role : r'.role = r.role
  term : r'.currentTerm = r.currentTerm
  id : r'.id = r.id
  peers : r'.peers = r.peers
  vote : r'.votedFor = r.votedFor

theorem Reigns.of_core {c : Core} (hc : r'.core = c) (hrole : c.role = r.role)
    (hterm : c.currentTerm = r.currentTerm) (hid : c.id = r.id) (hpeers : c.peers = r.peers)
    (hvote : c.votedFor = r.votedFor) : Reigns r r' := by
  subst hc
  exact ⟨hrole, hterm, hid, hpeers, hvote⟩

/-- What a call with input `i` does to a leader and its window. -/
inductive Watched (i : Input) (r r' : Raft) : Prop
  | left : r'.role = .follower → (i = .tick → r.Closes ∧ r.ackedSinceCheck.card + 1 < r.quorum) →
      Watched i r r'
  | same : i ≠ .tick → (∀ p msg, i = .step p msg → p ∈ r.peers → ¬ AnswersIn r.currentTerm msg) →
      Reigns r r' → r'.window = r.window → Watched i r r'
  | beat : i = .tick → ¬ r.Closes → Reigns r r' →
      r'.window = ⟨r.ackedSinceCheck, r.electionElapsed + 1, r.randomizedElectionTimeout⟩ →
      Watched i r r'
  | closed (timeout : Nat) : i = .tick → r.Closes → r.quorum ≤ r.ackedSinceCheck.card + 1 →
      r.cfg.Draws timeout → Reigns r r' → r'.window = ⟨∅, 0, timeout⟩ → Watched i r r'
  | answered (p : NodeId) (msg : RaftMessage) : i = .step p msg → p ∈ r.peers →
      AnswersIn r.currentTerm msg → Reigns r r' →
      r'.window =
        ⟨insert p r.ackedSinceCheck, r.electionElapsed, r.randomizedElectionTimeout⟩ →
      Watched i r r'

theorem window_of_office (h : r'.office = r.office) : r'.window = r.window :=
  congrArg (fun o : Office =>
    (⟨o.ackedSinceCheck, o.electionElapsed, o.randomizedElectionTimeout⟩ : Window)) h

/-- **What a call does to a leader's window.** -/
theorem watched_run (hs : r.Seated) (hid : r.id ∉ r.peers) (hl : r.role = .leader) (i : Input) :
    Watched i r (r.run i) := by
  have reigns : (r.run i).core = r.core → Reigns r (r.run i) :=
    fun hc => .of_core hc rfl rfl rfl rfl rfl
  cases leader_run hl i with
  | ignored hc ho _ hans hi => exact .same hi hans (reigns hc) (window_of_office ho)
  | beat hi hopen hc ho =>
    exact .beat hi (Nat.not_le.mpr hopen) (reigns hc)
      (window_of_office (r := { r with electionElapsed := r.electionElapsed + 1 }) ho)
  | kept timeout hi hclose hq hdraw hc ho =>
    exact .closed timeout hi hclose hq hdraw (reigns hc) (window_of_office (r := { r with
      ackedSinceCheck := ∅
      electionElapsed := 0
      randomizedElectionTimeout := timeout }) ho)
  | deposed hi hclose hfew hc =>
    refine .left ((congrArg Core.role hc).trans ?_) fun _ => ⟨hclose, hfew⟩
    rw [Core.follow_of_le (c := r.core) (Nat.le_refl r.currentTerm)]
  | resigned p msg hi _ hrole =>
    refine .left hrole fun htick => ?_
    rw [hi] at htick
    cases htick
  | voted c _ _ hc hfree => exact absurd hfree (hs.not_voted hid hl hc)
  | refused p resp hi hp hterm _ hc ho =>
    exact .answered p _ hi hp hterm (reigns hc)
      (window_of_office (r := { r with ackedSinceCheck := insert p r.ackedSinceCheck }) ho)
  | acknowledged p msg n hi hp hans _ _ hc ho =>
    obtain ⟨d, hcore⟩ := core_maybeAdvanceCommit (r.noteMatch p n)
    exact .answered p msg hi hp hans (.of_core (hc.trans hcore) rfl rfl rfl rfl rfl)
      (window_of_office (r := { r.noteMatch p n with
        ackedSinceCheck := insert p r.ackedSinceCheck }) ho)
  | rewound p resp hi hp hterm _ hc ho =>
    exact .answered p _ hi hp hterm (reigns hc)
      (window_of_office (r := { r with
        ackedSinceCheck := insert p r.ackedSinceCheck
        nextIndex := Function.update r.nextIndex p (some (r.rewound p resp.matchIndex)) }) ho)
  | proposed c hi hc ho =>
    obtain ⟨d, hcore⟩ := core_maybeAdvanceCommit (r.pushEntry (some c))
    refine .same (fun h => ?_) (fun p msg h => ?_) (.of_core (hc.trans hcore) rfl rfl rfl rfl rfl)
      (window_of_office ho)
    · rw [hi] at h
      cases h
    · rw [hi] at h
      cases h
  | compacted index snapshot hi hb hcommit heq =>
    rw [heq, compact, if_neg (by omega)]
    refine .same (fun h => ?_) (fun p msg h => ?_) ⟨rfl, rfl, rfl, rfl, rfl⟩ rfl
    · rw [hi] at h
      cases h
    · rw [hi] at h
      cases h

theorem Elected.window {i : Input} (h : Elected i r r') :
    ∃ timeout, r.cfg.Draws timeout ∧ r'.window = ⟨∅, 0, timeout⟩ := by
  have fresh : ∀ s : Raft, s.cfg = r.cfg →
      ∃ timeout, r.cfg.Draws timeout ∧ s.becomeLeader.window = ⟨∅, 0, timeout⟩ := by
    intro s hcfg
    obtain ⟨⟨timeout, hdraw, ho⟩, _⟩ := becomeLeader_frame s
    refine ⟨timeout, hcfg ▸ hdraw, ?_⟩
    exact congrArg (fun o : Office =>
      (⟨o.ackedSinceCheck, o.electionElapsed, o.randomizedElectionTimeout⟩ : Window)) ho
  cases h with
  | tally v _ _ _ _ _ _ _ _ heq =>
    rw [heq]
    exact fresh { r with votes := insert v r.votes } rfl
  | alone s _ _ _ _ hcfg heq =>
    rw [heq]
    exact fresh s.stand ((Paced.stand s).cfg.trans hcfg)

/-! ## Reachable leaders -/

/-- What is true of every reachable engine: its own vote, and a leader's timer. -/
structure Presiding (r : Raft) : Prop where
  seated : r.Seated
  drawn : r.role = .leader → r.cfg.Draws r.randomizedElectionTimeout

theorem Watched.drawn {i : Input} (h : Watched i r r')
    (hdraw : r.cfg.Draws r.randomizedElectionTimeout)
    (hl : r'.role = .leader) : r.cfg.Draws r'.randomizedElectionTimeout := by
  cases h with
  | left hrole => exact absurd (hrole.symm.trans hl) (by simp)
  | same _ _ _ hw =>
    rw [show r'.randomizedElectionTimeout = _ from congrArg Window.timeout hw]
    exact hdraw
  | beat _ _ _ hw =>
    rw [show r'.randomizedElectionTimeout = _ from congrArg Window.timeout hw]
    exact hdraw
  | closed timeout _ _ _ hnew _ hw =>
    rw [show r'.randomizedElectionTimeout = _ from congrArg Window.timeout hw]
    exact hnew
  | answered _ _ _ _ _ _ hw =>
    rw [show r'.randomizedElectionTimeout = _ from congrArg Window.timeout hw]
    exact hdraw

theorem Presiding.run (hw : r.WellFormed) (hid : r.id ∉ r.peers) (h : r.Presiding) {i : Input}
    (ha : r.Admissible i) : (r.run i).Presiding := by
  refine ⟨(run_preserves hw ha h.seated fun _ _ _ hs hm => hm.seated hs).2, fun hl' => ?_⟩
  rw [cfg_run]
  by_cases hl : r.role = .leader
  · exact (watched_run h.seated hid hl i).drawn (h.drawn hl) hl'
  · obtain ⟨timeout, hdraw, hwindow⟩ := (elected_run hl hl').window
    rw [show (r.run i).randomizedElectionTimeout = _ from congrArg Window.timeout hwindow]
    exact hdraw

theorem Presiding.ready (h : r.Presiding) : r.ready.2.Presiding := ⟨h.seated, h.drawn⟩

theorem presiding_new (id : NodeId) (peers : List NodeId) (cfg : RaftConfig) (seed : UInt64)
    (p : Persisted) : (Raft.new id peers cfg seed p).Presiding where
  seated := fun h => by
    rw [role_new] at h
    rcases h with h | h <;> cases h
  drawn := fun h => absurd ((role_new ..).symm.trans h) (by simp)

/-- A run keeps the member and its peers. -/
theorem presiding_of_reachable
    (h : (engineSystem fun p => validatePersisted p = .ok ()).Reachable r) (hid : r.id ∉ r.peers) :
    r.Presiding := by
  refine h.invariant (P := fun r => r.id ∉ r.peers → r.Presiding) ?_ (fun s t hs hp hstep => ?_) hid
  · rintro _ ⟨id, peers, cfg, seed, p, _, rfl⟩ _
    exact presiding_new id peers cfg seed p
  · intro hid
    have hw := wellFormed_of_reachable hs
    have hprogress := hstep.progress hw
    rw [hprogress.id, hprogress.peers] at hid
    cases hstep with
    | call i ha => exact (hp hid).run hw hid ha
    | ready => exact (hp hid).ready

/-! ## A leader that too few answer -/

/-- The ticks a leader has left if nobody outside `R` answers it: those of the open window, and
those of one more if the open one counts somebody else. -/
def budget (R : Finset NodeId) (r : Raft) : Nat :=
  max 1 (r.randomizedElectionTimeout - r.electionElapsed) +
    if r.ackedSinceCheck ⊆ R then 0 else r.cfg.electionMaxTicks

theorem budget_pos (R : Finset NodeId) (r : Raft) : 1 ≤ budget R r := by
  unfold budget
  omega

theorem RaftConfig.validate_pos {cfg : RaftConfig} (h : cfg.validate = .ok ()) :
    1 ≤ cfg.electionMaxTicks ∧ ∀ timeout, cfg.Draws timeout → timeout ≤ cfg.electionMaxTicks := by
  unfold RaftConfig.validate at h
  split_ifs at h
  refine ⟨by omega, fun timeout hdraw => hdraw.2.trans ?_⟩
  omega

/-- **A tick spends from the budget, an answer from within `R` adds nothing.** -/
theorem Watched.budget_le {i : Input} {R : Finset NodeId} (h : Watched i r r')
    (hcfg : r.cfg.validate = .ok ()) (hsame : r'.cfg = r.cfg) (hR : R.card + 1 < r.quorum)
    (hin : ∀ p msg, i = .step p msg → p ∈ r.peers → AnswersIn r.currentTerm msg → p ∈ R)
    (hl : r'.role = .leader) : budget R r' + i.ticks ≤ budget R r := by
  obtain ⟨hmax, hdraws⟩ := RaftConfig.validate_pos hcfg
  have parts : ∀ {w : Window}, r'.window = w → r'.ackedSinceCheck = w.acked ∧
      r'.electionElapsed = w.elapsed ∧ r'.randomizedElectionTimeout = w.timeout :=
    fun hw => ⟨congrArg Window.acked hw, congrArg Window.elapsed hw, congrArg Window.timeout hw⟩
  unfold budget
  rw [hsame]
  cases h with
  | left hrole => exact absurd (hrole.symm.trans hl) (by simp)
  | same hi _ _ hw =>
    obtain ⟨hacked, helapsed, htimeout⟩ := parts hw
    have hticks : i.ticks = 0 := by
      cases i with
      | tick => exact absurd rfl hi
      | _ => rfl
    rw [hacked, helapsed, htimeout, hticks]
    rfl
  | beat hi hopen _ hw =>
    obtain ⟨hacked, helapsed, htimeout⟩ := parts hw
    rw [hacked, helapsed, htimeout, hi]
    unfold Closes at hopen
    simp only [Input.ticks]
    omega
  | closed timeout hi hclose hq hnew _ hw =>
    obtain ⟨hacked, helapsed, htimeout⟩ := parts hw
    have hout : ¬ r.ackedSinceCheck ⊆ R := fun hsub => by
      have := Finset.card_le_card hsub
      omega
    have hle := hdraws timeout hnew
    rw [hacked, helapsed, htimeout, hi, if_pos (Finset.empty_subset R), if_neg hout]
    simp only [Input.ticks]
    omega
  | answered p msg hi hp hans _ hw =>
    obtain ⟨hacked, helapsed, htimeout⟩ := parts hw
    have hmem := hin p msg hi hp hans
    rw [hacked, helapsed, htimeout, hi]
    simp only [Input.ticks, Finset.insert_subset_iff, hmem, true_and]
    omega

/-- **A leader that nobody outside `R` answers runs out of ticks.** -/
theorem ticks_lt_budget {R : Finset NodeId} {l : List Call} (hs : r.Seated) (hid : r.id ∉ r.peers)
    (hcfg : r.cfg.validate = .ok ()) (hR : R.card + 1 < r.quorum)
    (hin : ∀ p msg, Call.input (.step p msg) ∈ l → p ∈ r.peers → AnswersIn r.currentTerm msg →
      p ∈ R)
    (hleads : ∀ pre, pre <+: l → (r.calls pre).role = .leader) :
    (l.map Call.ticks).sum < budget R r := by
  induction l generalizing r with
  | nil => exact budget_pos R r
  | cons c rest ih =>
    have hl : r.role = .leader := hleads [] (List.nil_prefix ..)
    have hl' : (r.after c).role = .leader := hleads [c] ⟨rest, rfl⟩
    have hrest : ∀ pre, pre <+: rest → ((r.after c).calls pre).role = .leader :=
      fun pre hpre => hleads (c :: pre) (List.cons_prefix_cons.mpr ⟨rfl, hpre⟩)
    have hone : Reigns r (r.after c) ∧ (r.after c).cfg = r.cfg ∧
        budget R (r.after c) + c.ticks ≤ budget R r := by
      cases c with
      | ready => exact ⟨⟨rfl, rfl, rfl, rfl, rfl⟩, rfl, Nat.le_refl _⟩
      | input i =>
        have hw := watched_run hs hid hl i
        have hcfg' := cfg_run r i
        refine ⟨?_, hcfg', hw.budget_le hcfg hcfg' hR (fun p msg hi => ?_) hl'⟩
        · cases hw with
          | left hrole => exact absurd (hrole.symm.trans hl') (by simp)
          | same _ _ hreigns _ => exact hreigns
          | beat _ _ hreigns _ => exact hreigns
          | closed _ _ _ _ _ hreigns _ => exact hreigns
          | answered _ _ _ _ _ hreigns _ => exact hreigns
        · exact hin p msg (hi ▸ List.mem_cons_self ..)
    obtain ⟨hreigns, hcfg', hspent⟩ := hone
    have hquorum : (r.after c).quorum = r.quorum := by rw [quorum, quorum, hreigns.peers]
    have hlt := ih (r := r.after c)
      (fun h => by
        rw [hreigns.vote, hreigns.id]
        exact hs (Or.inr hl))
      (by rw [hreigns.id, hreigns.peers]; exact hid) (by rw [hcfg']; exact hcfg)
      (by rw [hquorum]; exact hR)
      (fun p msg hmem hp hans => hin p msg (List.mem_cons_of_mem _ hmem) (hreigns.peers ▸ hp)
        (hreigns.term ▸ hans)) hrest
    rw [List.map_cons, List.sum_cons]
    omega

/-- The peers that answer `r`'s term in the calls. -/
def answerers (r : Raft) (l : List Call) : Finset NodeId :=
  (l.filterMap fun
    | .input (.step p msg) => if p ∈ r.peers ∧ AnswersIn r.currentTerm msg then some p else none
    | _ => none).toFinset

theorem mem_answerers {l : List Call} {p : NodeId} {msg : RaftMessage}
    (hmem : Call.input (.step p msg) ∈ l) (hp : p ∈ r.peers) (hans : AnswersIn r.currentTerm msg) :
    p ∈ answerers r l := by
  rw [answerers, List.mem_toFinset, List.mem_filterMap]
  exact ⟨_, hmem, if_pos ⟨hp, hans⟩⟩

/-! ## Who answered since the window opened -/

/-- An engine, and the peers that answered its term since its check window opened. -/
structure Watch where
  engine : Raft
  heard : Finset NodeId

/-- A call opens a window when it makes the member lead, and when it is the tick that closes one. -/
def Watch.next (w : Watch) (i : Input) : Watch where
  engine := w.engine.run i
  heard :=
    if w.engine.role ≠ .leader ∨ i = .tick ∧ w.engine.Closes then ∅
    else match i with
      | .step p msg =>
        if p ∈ w.engine.peers ∧ AnswersIn w.engine.currentTerm msg then insert p w.heard else w.heard
      | _ => w.heard

inductive WatchStep : Watch → Watch → Prop
  | call (w : Watch) (i : Input) : w.engine.Admissible i → WatchStep w (w.next i)
  | ready (w : Watch) : WatchStep w { w with engine := w.engine.ready.2 }

/-- `engineSystem`, watched. -/
def watchSystem (Valid : Persisted → Prop) : TransitionSystem Watch where
  init w := (engineSystem Valid).init w.engine ∧ w.heard = ∅
  step := WatchStep

theorem reachable_engine {Valid : Persisted → Prop} {w : Watch}
    (h : (watchSystem Valid).Reachable w) : (engineSystem Valid).Reachable w.engine := by
  refine h.invariant (P := fun w => (engineSystem Valid).Reachable w.engine) ?_
    fun s t _ hs hstep => ?_
  · exact fun w hw => .of_init hw.1
  · cases hstep with
    | call i ha => exact hs.step (EngineStep.call _ i ha)
    | ready => exact hs.step (EngineStep.ready _)

/-- **A leader counts exactly those.** -/
theorem acked_eq_heard {w : Watch}
    (h : (watchSystem fun p => validatePersisted p = .ok ()).Reachable w)
    (hid : w.engine.id ∉ w.engine.peers) (hl : w.engine.role = .leader) :
    w.engine.ackedSinceCheck = w.heard := by
  refine h.invariant (P := fun w => w.engine.id ∉ w.engine.peers → w.engine.role = .leader →
    w.engine.ackedSinceCheck = w.heard) ?_ (fun s t hs hp hstep => ?_) hid hl
  · rintro w ⟨⟨id, peers, cfg, seed, p, _, heq⟩, _⟩ _ hl
    rw [heq, role_new] at hl
    cases hl
  · have hreach := reachable_engine hs
    have hw := wellFormed_of_reachable hreach
    intro hid hl'
    cases hstep with
    | ready => exact hp hid hl'
    | call i ha =>
      have hprogress := progress_run hw ha
      have hid' : s.engine.id ∉ s.engine.peers := by
        rw [← hprogress.id, ← hprogress.peers]
        exact hid
      show (s.engine.run i).ackedSinceCheck = (s.next i).heard
      unfold Watch.next
      by_cases hl : s.engine.role = .leader
      · have hold := hp hid' hl
        have hnot : ¬ s.engine.role ≠ .leader := fun h => h hl
        cases watched_run (presiding_of_reachable hreach hid').seated hid' hl i with
        | left hrole => exact absurd (hrole.symm.trans hl') (by simp)
        | same hi hans _ hwindow =>
          rw [show (s.engine.run i).ackedSinceCheck = _ from congrArg Window.acked hwindow]
          simp only [hnot, hi, false_and, or_self, if_false]
          cases i with
          | step p msg =>
            simp only
            rw [if_neg fun h => hans p msg rfl h.1 h.2]
            exact hold
          | _ => exact hold
        | beat hi hopen _ hwindow =>
          rw [show (s.engine.run i).ackedSinceCheck = _ from congrArg Window.acked hwindow, hi]
          simp only [hnot, hopen, and_false, or_self, if_false]
          exact hold
        | closed timeout hi hclose _ _ _ hwindow =>
          rw [show (s.engine.run i).ackedSinceCheck = _ from congrArg Window.acked hwindow,
            if_pos (Or.inr ⟨hi, hclose⟩)]
        | answered p msg hi hp hans _ hwindow =>
          rw [show (s.engine.run i).ackedSinceCheck = _ from congrArg Window.acked hwindow, hi]
          rw [if_neg (by simp [hl])]
          simp only
          rw [if_pos ⟨hp, hans⟩, hold]
      · obtain ⟨timeout, _, hwindow⟩ := (elected_run hl hl').window
        rw [show (s.engine.run i).ackedSinceCheck = _ from congrArg Window.acked hwindow,
          if_pos (Or.inl hl)]

/--
**An isolated leader stops leading, and only an isolated one.** In any calls with
`2 * election_max_ticks` ticks in which fewer than `quorum - 1` peers answer the leader's term, it
stops leading that term at some point. And a tick of a leader that at least `quorum - 1` peers
answered since its window opened, if the tick closes it, leaves it leading.
-/
theorem check_quorum
    (h : (engineSystem fun p => validatePersisted p = .ok ()).Reachable r)
    (hcfg : r.cfg.validate = .ok ()) (hid : r.id ∉ r.peers) (hl : r.role = .leader) :
    (∀ l : List Call, 2 * r.cfg.electionMaxTicks ≤ (l.map Call.ticks).sum →
      (answerers r l).card < r.quorum - 1 →
        ∃ pre, pre <+: l ∧
          ¬ ((r.calls pre).role = .leader ∧ (r.calls pre).currentTerm = r.currentTerm)) ∧
    ∀ heard, (watchSystem fun p => validatePersisted p = .ok ()).Reachable ⟨r, heard⟩ →
      (r.Closes → r.quorum - 1 ≤ heard.card) →
        r.tick.role = .leader ∧ r.tick.currentTerm = r.currentTerm := by
  have hpresiding := presiding_of_reachable h hid
  constructor
  · intro l hticks hfew
    by_contra hno
    have hleads : ∀ pre, pre <+: l → (r.calls pre).role = .leader := fun pre hpre => by
      by_contra hrole
      exact hno ⟨pre, hpre, fun hlead => hrole hlead.1⟩
    have hlt := ticks_lt_budget (R := answerers r l) hpresiding.seated hid hcfg (by omega)
      (fun p msg hmem hp hans => mem_answerers hmem hp hans) hleads
    obtain ⟨hmax, hdraws⟩ := RaftConfig.validate_pos hcfg
    have htimeout := hdraws _ (hpresiding.drawn hl)
    unfold budget at hlt
    split at hlt <;> omega
  · intro heard hwatch hmany
    have hacked : r.ackedSinceCheck = heard := acked_eq_heard hwatch hid hl
    cases watched_run hpresiding.seated hid hl .tick with
    | left hrole hfew =>
      obtain ⟨hclose, hcard⟩ := hfew rfl
      have := hmany hclose
      rw [hacked] at hcard
      omega
    | same hi => exact absurd rfl hi
    | beat _ _ hreigns => exact ⟨hreigns.role.trans hl, hreigns.term⟩
    | closed _ _ _ _ _ hreigns => exact ⟨hreigns.role.trans hl, hreigns.term⟩
    | answered _ _ hi => cases hi

theorem check_quorum_duoLeader :
    (∃ pre, pre <+: List.replicate 4 (.input .tick) ∧ ¬ ((duoLeader.calls pre).role = .leader ∧
      (duoLeader.calls pre).currentTerm = duoLeader.currentTerm)) ∧
    ∀ heard, (watchSystem fun p => validatePersisted p = .ok ()).Reachable ⟨duoLeader, heard⟩ →
      (duoLeader.Closes → duoLeader.quorum - 1 ≤ heard.card) →
        duoLeader.tick.role = .leader ∧ duoLeader.tick.currentTerm = duoLeader.currentTerm :=
  have h := check_quorum reachable_duoLeader (by decide +kernel) (by decide +kernel)
    (by decide +kernel)
  ⟨h.1 _ (by decide +kernel) (by decide +kernel), h.2⟩

end FiduciaBrain.Raft
