import FiduciaBrain.RaftDriver.Apply

/-!
# What a proposal that returned true is worth

`await_commit` looks at the commit point, which moves under the engine lock of whichever thread took
the peer's answer; that thread applies the entries later. Between the two the command is with that
thread (`Drain.Owes`). A look at the engine that finds nobody there finds the command applied.
-/

namespace FiduciaBrain.RaftDriver

open Infra

/-- The thread was handed the command at index `i`, in a batch or folded into a snapshot. -/
def Drain.Took (dr : Drain) (i : Nat) : Prop :=
  i ≤ dr.ready.appliedUpto ∧ (dr.ready.restore.isSome = true ∨ dr.ready.appliedFrom < i)

/-- It is short of the end of its apply section. -/
def Drain.Owes (dr : Drain) (i : Nat) : Prop := dr.Took i ∧ dr.unapplied = true

instance (dr : Drain) (i : Nat) : Decidable (dr.Owes i) :=
  inferInstanceAs (Decidable ((_ ∧ (_ ∨ _)) ∧ _))

/-- A look of `await_commit` that finds index `i` committed in its term finds no thread that was
handed `i` short of the end of its apply section. -/
def LooksBehind (t : Traced) (a : Action) : Prop :=
  ∀ (k : Nat) (inTime : Bool) (dr : Drain) (i term : Nat), a = .advance k inTime →
    t.driver.drains[k]? = some dr → dr.stage = .awaiting i term →
    i ≤ t.driver.engine.commitIndex → t.driver.engine.currentTerm = term →
    ∀ x ∈ t.driver.drains, ¬ x.Owes i

/-- Every slot that the command at index `i` writes shows that command or a later one. -/
def Reflects (h : List (Option Command)) (i : Nat) (st : Replicated) : Prop :=
  ∀ c, h[i - 1]? = some (some c) → ∀ slot, writeSlot (some c) slot ≠ none →
    ∃ j later, i - 1 ≤ j ∧ h[j]? = some later ∧ writeSlot later slot = some (st.read slot)

variable {S : Setup} {d d' : Driver} {k : Nat} {dr : Drain}

/-! ## What the engine has handed out -/

/-- The engine hands out whatever it commits, and the watermark is not behind a thread that is
through with its apply section. -/
structure HandsOut (d : Driver) : Prop where
  inv : DriverInv d
  drained : d.drains ≠ [] → d.engine.commitIndex ≤ d.engine.lastApplied
  applied : ∀ x ∈ d.drains, ∀ i, x.Took i → x.unapplied = false → i ≤ d.applyWatermark
  waiter : ∀ x ∈ d.drains, ∀ i term, x.stage = .awaiting i term → x.waiter = some (i, term)
  /-- what a proposal waits for is with a thread once it is committed -/
  taken : ∀ x ∈ d.drains, ∀ i term, x.waiter = some (i, term) →
    0 < i ∧ (i ≤ d.engine.lastApplied → ∃ y ∈ d.drains, y.Took i)

namespace HandsOut

/-- A drain moves on with the same `Ready`. -/
theorem of_moved (h : HandsOut d) (hk : d.drains[k]? = some dr) (dr' : Drain) (hinv : DriverInv d')
    (hdrains : d'.drains = d.drains.set k dr') (hready : dr'.ready = dr.ready)
    (hwaiter : dr'.waiter = dr.waiter)
    (hcommit : d'.engine.commitIndex = d.engine.commitIndex)
    (hlast : d'.engine.lastApplied = d.engine.lastApplied)
    (hw : d.applyWatermark ≤ d'.applyWatermark)
    (happlied : dr'.unapplied = false →
      dr.unapplied = false ∨ dr.ready.appliedUpto ≤ d'.applyWatermark)
    (hstage : ∀ i term, dr'.stage = .awaiting i term → dr.waiter = some (i, term)) :
    HandsOut d' := by
  have hmem : dr ∈ d.drains := List.mem_of_getElem? hk
  have htook : ∀ {i}, dr'.Took i ↔ dr.Took i := by
    intro i
    rw [Drain.Took, Drain.Took, hready]
  -- what somebody was handed stays with somebody
  have hkeep : ∀ {x}, x ∈ d.drains → ∃ y ∈ d'.drains, ∀ i, x.Took i → y.Took i := by
    intro x hx
    obtain ⟨j, hj⟩ := List.mem_iff_getElem?.mp hx
    rcases eq_or_ne j k with rfl | hne
    · obtain rfl : x = dr := Option.some.inj (hj.symm.trans hk)
      refine ⟨dr', ?_, fun i => htook.mpr⟩
      rw [hdrains]
      exact List.mem_set (List.getElem?_eq_some_iff.mp hk).1 dr'
    · refine ⟨x, List.mem_of_getElem? (i := j) ?_, fun _ => id⟩
      rw [hdrains, List.getElem?_set_ne hne.symm, hj]
  exact {
    inv := hinv
    drained := fun _ => by
      rw [hcommit, hlast]
      exact h.drained (List.ne_nil_of_mem hmem)
    applied := fun x hx i hi hdone => by
      rw [hdrains] at hx
      rcases List.mem_or_eq_of_mem_set hx with hx | rfl
      · exact (h.applied x hx i hi hdone).trans hw
      · have hi := htook.mp hi
        rcases happlied hdone with hold | hupto
        · exact (h.applied dr hmem i hi hold).trans hw
        · exact hi.1.trans hupto
    waiter := fun x hx i term hs => by
      rw [hdrains] at hx
      rcases List.mem_or_eq_of_mem_set hx with hx | rfl
      · exact h.waiter x hx i term hs
      · rw [hwaiter]
        exact hstage i term hs
    taken := fun x hx i term hwait => by
      have hold : 0 < i ∧ (i ≤ d.engine.lastApplied → ∃ y ∈ d.drains, y.Took i) := by
        rw [hdrains] at hx
        rcases List.mem_or_eq_of_mem_set hx with hx | rfl
        · exact h.taken x hx i term hwait
        · exact h.taken dr hmem i term (hwaiter ▸ hwait)
      refine ⟨hold.1, fun hle => ?_⟩
      obtain ⟨y, hy, hyi⟩ := hold.2 (hlast ▸ hle)
      obtain ⟨z, hz, hkeep⟩ := hkeep hy
      exact ⟨z, hz, hkeep i hyi⟩ }

/-- **A step of a drain hands nothing out.** -/
theorem advanced (h : HandsOut d) (hk : d.drains[k]? = some dr) (ha : Advanced S d k dr d') :
    HandsOut d' := by
  have hinv := h.inv.advanced hk ha
  have same : ∀ {P : Prop}, dr.unapplied = false → dr.unapplied = false ∨ P := .inl
  cases ha with
  | quiet stage available _ _ _ _ hwait =>
    exact h.of_moved hk _ hinv rfl rfl rfl rfl rfl le_rfl same hwait
  | stale data hstage hrestore hlt =>
    exact h.of_moved hk _ hinv rfl rfl rfl rfl rfl le_rfl (fun _ => .inr hlt.le) nofun
  | finished hstage =>
    exact h.of_moved hk _ hinv rfl rfl rfl rfl rfl (Nat.le_max_left _ _)
      (fun _ => .inr (Nat.le_max_right _ _)) nofun
  | compacted data hstage =>
    obtain ⟨-, -, -, hlast⟩ := DriverInv.compact_facts h.inv.wellFormed (h.inv.ready_le' hk).2 data
    have hcommit : (d.engine.compact dr.ready.appliedUpto data).commitIndex
        = d.engine.commitIndex := by
      unfold Raft.compact
      split <;> rfl
    exact h.of_moved hk _ hinv rfl rfl rfl hcommit hlast le_rfl same nofun
  | waiting => exact h
  | _ => exact h.of_moved hk _ hinv rfl rfl rfl rfl rfl le_rfl same nofun

/-- What a proposal waits for is beyond the end of the log. -/
theorem waiter_of_call {req : Request} (ha : d.call req = some d') :
    ∃ replyTo waiter, d' = d.hand (d.engine.run req.input) replyTo waiter ∧
      ∀ i term, waiter = some (i, term) → i = d.engine.lastIndex + 1 := by
  cases req with
  | tick => cases ha; exact ⟨_, _, rfl, by simp⟩
  | deliver sender resp => cases ha; exact ⟨_, _, rfl, by simp⟩
  | inbound sender msg => cases ha; exact ⟨_, _, rfl, by simp⟩
  | propose command =>
    simp only [Driver.call] at ha
    split at ha
    · cases ha
    · next index r hr =>
      cases ha
      refine ⟨_, _, by rw [Request.input, Raft.run, hr], ?_⟩
      intro i term hi
      cases hi
      unfold Raft.propose at hr
      split at hr <;> cases hr
      rfl

/-- What the engine newly commits in a call is with the thread that called. -/
theorem took_of_run (h : DriverInv d) {i : Raft.Input}
    (hi : ∀ index snapshot, i ≠ .compact index snapshot) (ha : d.engine.Admissible i) {j : Nat}
    (hold : d.engine.lastApplied < j) (hnew : j ≤ (d.engine.run i).commitIndex) :
    let ready := (d.engine.run i).ready.1
    j ≤ ready.appliedUpto ∧ (ready.restore.isSome = true ∨ ready.appliedFrom < j) := by
  have hupto := Raft.appliedUpto_ready (h.wellFormed.run ha)
  refine ⟨hupto ▸ hnew, ?_⟩
  rcases Raft.lastApplied_run h.wellFormed hi h.calm with
    ⟨-, hlast, -⟩ | ⟨hpending, -, _, _, -, -, -, hdata⟩
  · right
    show (d.engine.run i).lastApplied < j
    rwa [hlast]
  · left
    rw [Raft.ready, hpending, hdata]
    rfl

/-- **A call hands out what the engine has newly committed.** -/
theorem call (h : HandsOut d) {req : Request} (ha : d.call req = some d') : HandsOut d' := by
  obtain ⟨replyTo, waiter, rfl, hwaiter⟩ := waiter_of_call ha
  have hadm := req.admissible d.engine
  have hrun := h.inv.wellFormed.run hadm
  have hlast :
      (d.engine.run req.input).ready.2.lastApplied = (d.engine.run req.input).commitIndex :=
    Raft.lastApplied_ready hrun
  have hbehind : d.engine.lastApplied ≤ d.engine.lastIndex :=
    h.inv.wellFormed.applied_le.trans h.inv.wellFormed.commit_le_last
  -- an index is with somebody: with whom it was, or with the new thread
  have htaken : ∀ {i : Nat}, 0 < i ∧ (i ≤ d.engine.lastApplied → ∃ y ∈ d.drains, y.Took i) →
      0 < i ∧ (i ≤ (d.hand (d.engine.run req.input) replyTo waiter).engine.lastApplied →
        ∃ y ∈ (d.hand (d.engine.run req.input) replyTo waiter).drains, y.Took i) := by
    rintro i ⟨hpos, hold⟩
    refine ⟨hpos, fun hle => ?_⟩
    rcases Nat.lt_or_ge d.engine.lastApplied i with hlt | hge
    · exact ⟨_, List.mem_append_right _ List.mem_cons_self,
        took_of_run h.inv req.input_ne_compact hadm hlt (hlast ▸ hle)⟩
    · obtain ⟨y, hy, hyi⟩ := hold hge
      exact ⟨y, List.mem_append_left _ hy, hyi⟩
  exact {
    inv := h.inv.hand req.input_ne_compact hadm replyTo waiter
    drained := fun _ => hlast.ge
    applied := fun x hx i hi hdone => by
      rcases List.mem_append.mp hx with hx | hx
      · exact h.applied x hx i hi hdone
      · -- it has just been handed out
        rw [List.mem_singleton.mp hx] at hi hdone
        obtain ⟨hle, hr | hlt⟩ := hi
        · simp [hr] at hdone
        · have := hlt.trans_le hle
          simp [this] at hdone
    waiter := fun x hx i term hs => by
      rcases List.mem_append.mp hx with hx | hx
      · exact h.waiter x hx i term hs
      · rw [List.mem_singleton.mp hx] at hs
        cases hs
    taken := fun x hx i term hwait => by
      rcases List.mem_append.mp hx with hx | hx
      · exact htaken (h.taken x hx i term hwait)
      · rw [List.mem_singleton.mp hx] at hwait
        have hi := hwaiter i term hwait
        exact htaken ⟨by omega, fun hle => absurd hle (by omega)⟩ }

theorem act (h : HandsOut d) {a : Action} (ha : d.act S a = some d') : HandsOut d' := by
  cases a with
  | call req => exact h.call ha
  | advance k ok =>
    obtain ⟨dr, hk, hadv⟩ := Option.bind_eq_some_iff.mp ha
    exact h.advanced hk (advanced_of_advance hadv)
  | soft membership policies =>
    have hinv := h.inv.act ha
    cases ha
    exact { h with inv := hinv }
  | closeOutbox =>
    have hinv := h.inv.act ha
    cases ha
    exact { h with inv := hinv }

/-- A committed index whose threads are all through is applied. -/
theorem applied_of_committed (h : HandsOut d) {x : Drain} (hx : x ∈ d.drains) {i term : Nat}
    (hwait : x.waiter = some (i, term)) (hcommit : i ≤ d.engine.commitIndex)
    (hnone : ∀ y ∈ d.drains, ¬ y.Owes i) : i ≤ d.applyWatermark := by
  obtain ⟨y, hy, htook⟩ :=
    (h.taken x hx i term hwait).2 (hcommit.trans (h.drained (List.ne_nil_of_mem hx)))
  exact h.applied y hy i htook (by simpa using fun hun => hnone y hy ⟨htook, hun⟩)

end HandsOut

theorem handsOut_of_starts (h : d.Starts S) : HandsOut d := by
  have hinv := driverInv_of_starts h
  obtain ⟨id, peers, cfg, seed, store, restored, sm, _, _, hnew⟩ := h
  obtain ⟨sm', _, rfl⟩ := new_spec hnew
  exact {
    inv := hinv
    drained := fun hne => absurd rfl hne
    applied := fun x hx => by cases hx
    waiter := fun x hx => by cases hx
    taken := fun x hx => by cases hx }

theorem handsOut_of_reachable {genesis : Replicated} {L : Level Replicated.applyEntry genesis}
    {Guard : Traced → Action → Prop} {t : Traced} (ht : (tracedSystem S L Guard).Reachable t) :
    HandsOut t.driver := by
  refine ht.invariant (P := fun t => HandsOut t.driver) ?_ ?_
  · rintro s ⟨id, peers, cfg, seed, store, restored, sm, hvalid, hstore, hnew, _⟩
    exact handsOut_of_starts ⟨id, peers, cfg, seed, store, restored, sm, hvalid, hstore, hnew⟩
  · rintro s s' _ hs ⟨a, _, hstep⟩
    exact hs.act hstep.act

/-! ## Answers -/

/-- A drain that goes anywhere else has not answered true. -/
theorem mem_of_goto {stage : Stage} {x : Drain} (hx : x ∈ (d.goto k dr stage).drains)
    (htrue : x.stage = .answered true) (hstage : stage ≠ .answered true) : x ∈ d.drains := by
  rcases List.mem_or_eq_of_mem_set hx with hx | rfl
  · exact hx
  · exact absurd htrue hstage

/-- **A drain answers true in `await_commit` only**, where it finds its entry committed. -/
theorem answered_of_advance {ok : Bool} (h : d.advance S k dr ok = some d') {x : Drain}
    (hx : x ∈ d'.drains) (htrue : x.stage = .answered true) :
    x ∈ d.drains ∨ ∃ i term, dr.stage = .awaiting i term ∧ i ≤ d.engine.commitIndex ∧
      d.engine.currentTerm = term ∧ x.waiter = dr.waiter := by
  unfold Driver.advance at h
  split at h
  -- up to `release` a stage goes on to another one, or the drain stops without an answer
  case h_1 =>
    cases h
    unfold Driver.enter at hx
    split at hx
    · exact .inl (mem_of_goto hx htrue nofun)
    split at hx
    all_goals exact .inl (mem_of_goto hx htrue nofun)
  case h_2 =>
    unfold Driver.lockIo at h
    split at h
    · cases h
    split at h <;> cases h
    all_goals exact .inl (mem_of_goto hx htrue nofun)
  case h_3 =>
    cases h
    unfold Driver.save at hx
    dsimp only at hx
    split at hx
    all_goals exact .inl (mem_of_goto hx htrue nofun)
  case h_4 =>
    unfold Driver.enterApply at h
    repeat' split at h
    all_goals cases h
    all_goals exact .inl (mem_of_goto hx htrue nofun)
  case h_5 => cases h; exact .inl (mem_of_goto hx htrue nofun)
  case h_6 todo hstage =>
    cases h
    cases todo <;> exact .inl (mem_of_goto hx htrue nofun)
  case h_7 =>
    cases h
    unfold Driver.testCompact at hx
    split at hx
    all_goals exact .inl (mem_of_goto hx htrue nofun)
  case h_8 => cases h; exact .inl (mem_of_goto hx htrue nofun)
  case h_9 =>
    cases h
    unfold Driver.readPlan at hx
    split at hx
    all_goals exact .inl (mem_of_goto hx htrue nofun)
  case h_10 =>
    unfold Driver.install at h
    dsimp only at h
    repeat' split at h
    all_goals cases h
    all_goals exact .inl (mem_of_goto hx htrue nofun)
  case h_11 =>
    cases h
    unfold Driver.release at hx
    repeat' split at hx
    all_goals exact .inl (mem_of_goto hx htrue nofun)
  case h_12 index term hstage =>
    cases h
    unfold Driver.awaitCommit at hx
    split at hx
    · next hlook =>
      -- the look at the engine that returns true
      rcases List.mem_or_eq_of_mem_set hx with hx | rfl
      · exact .inl hx
      · exact .inr ⟨index, term, hstage, hlook.1, hlook.2, rfl⟩
    split at hx
    · exact .inl (mem_of_goto hx htrue nofun)
    split at hx
    · exact .inl (mem_of_goto hx htrue nofun)
    · exact .inl hx
  all_goals cases h

/-- Whoever has answered true has had its command applied. -/
def Kept (d : Driver) : Prop :=
  ∀ x ∈ d.drains, x.stage = .answered true → ∀ i term, x.waiter = some (i, term) →
    i ≤ d.applyWatermark

/-- **An answer in an action that looks behind the apply sections is kept.** -/
theorem kept_of_act {t : Traced} {a : Action} (hout : HandsOut t.driver) (hkept : Kept t.driver)
    (hlooks : LooksBehind t a) (ha : t.driver.act S a = some d') : Kept d' := by
  have hw := watermark_le_of_act ha
  intro x hx htrue i term hwait
  cases a with
  | call req =>
    obtain ⟨replyTo, waiter, rfl⟩ := hand_of_call ha
    rcases List.mem_append.mp hx with hx | hx
    · exact (hkept x hx htrue i term hwait).trans hw
    · rw [List.mem_singleton.mp hx] at htrue
      cases htrue
  | advance k inTime =>
    obtain ⟨dr, hk, hadv⟩ := Option.bind_eq_some_iff.mp ha
    have hmem : dr ∈ t.driver.drains := List.mem_of_getElem? hk
    rcases answered_of_advance hadv hx htrue with hold | ⟨j, term', hstage, hcommit, hterm, hsame⟩
    · exact (hkept x hold htrue i term hwait).trans hw
    · -- it is the thread that has just looked
      have hmine := hout.waiter dr hmem j term' hstage
      rw [hsame, hmine] at hwait
      cases hwait
      have hnone := hlooks k inTime dr i term rfl hk hstage hcommit hterm
      exact (hout.applied_of_committed hmem hmine hcommit hnone).trans hw
  | soft membership policies =>
    cases ha
    exact hkept x hx htrue i term hwait
  | closeOutbox =>
    cases ha
    exact hkept x hx htrue i term hwait

theorem kept_of_reachable {genesis : Replicated} {L : Level Replicated.applyEntry genesis}
    {t : Traced} (ht : (tracedSystem S L LooksBehind).Reachable t) : Kept t.driver := by
  refine ht.invariant (P := fun t => Kept t.driver) ?_ ?_
  · rintro s ⟨id, peers, cfg, seed, store, restored, sm, _, _, hnew, _⟩
    obtain ⟨sm', _, heq⟩ := new_spec hnew
    intro x hx
    rw [heq] at hx
    cases hx
  · rintro s s' hs hkept ⟨a, hlooks, hstep⟩
    exact kept_of_act (handsOut_of_reachable hs) hkept hlooks hstep.act

/-- A leader of two proposes a plan; another thread takes its peer's answer and does not get any
further. -/
def earlyRun : List Action :=
  [.call .tick, .call .tick,
    .call (.deliver "brain-1" (.requestVoteResp ⟨0, true, true⟩)),
    .call (.deliver "brain-1" (.requestVoteResp ⟨1, true, false⟩)),
    .call (.propose (.setScalePlan ⟨5, 1⟩))] ++
    List.replicate 4 (.advance 4 true) ++
    [.call (.deliver "brain-1" (.appendEntriesResp ⟨1, true, 2⟩))]

/-- The same, but that thread gets through its apply section before the proposer looks. -/
def behindRun : List Action := earlyRun ++ List.replicate 5 (.advance 5 true) ++ [.advance 4 true]

/-- Is the action a look of `await_commit` at the engine? -/
def Driver.polls (d : Driver) : Action → Bool
  | .advance k _ => d.drains[k]?.any fun x => x.stage.rank == Stage.rank (.awaiting 0 0)
  | _ => false

end FiduciaBrain.RaftDriver
