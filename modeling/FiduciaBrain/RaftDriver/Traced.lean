import FiduciaBrain.RaftDriver.History

/-!
# A member beside the committed log

`tracedSystem` runs a driver beside the group's committed log. What is known of the state machine
while threads apply batches and restore snapshots in any order is `Tracks`: in terms of a level,
where it stands when nobody holds the watermark, and how far the holder has got otherwise.
-/

namespace FiduciaBrain.RaftDriver

open Infra

/-- Snapshot bytes that decode to a state at position `n` of the log. -/
def Restores (S : Setup) {genesis : Replicated} (L : Level Replicated.applyEntry genesis)
    (h : List (Option Command)) (n : Nat) (data : Bytes) : Prop :=
  ∃ snapshot, S.serde.decode data = .ok snapshot ∧ L.At h n snapshot.replicated

/-- A driver and the group's committed log. -/
structure Traced where
  driver : Driver
  history : List (Option Command)

/-- The leader's snapshot that an action delivers. -/
def Action.snapshot? : Action → Option InstallSnapshotReq
  | .call (.inbound _ (.installSnapshot req)) | .call (.deliver _ (.installSnapshot req)) =>
    some req
  | _ => none

/-- An action of the driver, while the group commits more. A snapshot that is installed stands for
the log up to its index. -/
structure TracedStep (S : Setup) {genesis : Replicated} (L : Level Replicated.applyEntry genesis)
    (t : Traced) (a : Action) (t' : Traced) : Prop where
  act : t.driver.act S a = some t'.driver
  grows : t.history <+: t'.history
  logged : Logged t'.driver.engine t'.history
  sound : ∀ req, a.snapshot? = some req → t.driver.engine.baseIndex < t'.driver.engine.baseIndex →
    Restores S L t'.history req.lastIncludedIndex req.data

/-- What a member starts from: a state that its store would accept and that agrees with the
committed log. -/
def Traced.Starts (S : Setup) {genesis : Replicated} (L : Level Replicated.applyEntry genesis)
    (t : Traced) : Prop :=
  ∃ id peers cfg seed store restored sm, validatePersisted restored = .ok () ∧
    (store = none ∨ store = some restored) ∧
    Driver.new S id peers cfg seed store restored sm = .ok t.driver ∧
    sm.replicated = genesis ∧ Logged t.driver.engine t.history ∧
    ∀ data, restored.snapshot = some data → Restores S L t.history restored.baseIndex data

/-- A member beside the committed log, every action of which meets `Guard`. -/
def tracedSystem (S : Setup) {genesis : Replicated} (L : Level Replicated.applyEntry genesis)
    (Guard : Traced → Action → Prop) : TransitionSystem Traced where
  init := Traced.Starts S L
  step t t' := ∃ a, Guard t a ∧ TracedStep S L t a t'

variable {S : Setup} {genesis : Replicated} {L : Level Replicated.applyEntry genesis}
  {h h' : List (Option Command)} {d d' : Driver} {k : Nat} {dr : Drain}

theorem Restores.extend {n : Nat} {data : Bytes} (hr : Restores S L h n data) (hh : h <+: h') :
    Restores S L h' n data := by
  obtain ⟨snapshot, hdecode, hat⟩ := hr
  exact ⟨snapshot, hdecode, L.extend hat hh⟩

/-! ## Where the state machine stands -/

/-- What is left to apply of a batch that ends at `upto`: the state has got to some `a`, and the
commands behind it are still to come. -/
def Remaining (L : Level Replicated.applyEntry genesis) (h : List (Option Command))
    (watermark upto : Nat) (st : Replicated) (todo : List (Nat × Command)) : Prop :=
  ∃ a, L.At h a st ∧ todo = commandsIn h a upto ∧ watermark ≤ a ∧ (a ≤ upto ∨ a = watermark)

namespace Remaining

variable {watermark upto : Nat} {st : Replicated} {todo : List (Nat × Command)}

/-- Applying the next command. It meets the state that all the commands below it lead to. -/
theorem step {i : Nat} {c : Command} (hupto : upto ≤ h.length)
    (hr : Remaining L h watermark upto st ((i, c) :: todo)) :
    watermark < i ∧ h[i - 1]? = some (some c) ∧ L.At h (i - 1) st ∧
      Remaining L h watermark upto (st.apply c) todo := by
  obtain ⟨a, hat, htodo, hwa, _⟩ := hr
  obtain ⟨hai, hib, hget, hrest, hidle⟩ := commandsIn_eq_cons hupto htodo.symm
  have hskip : L.At h (i - 1) st := L.skip hat (by omega) fun j h1 h2 => ⟨none, hidle j h1 h2, rfl⟩
  have hnext := L.next hskip hget
  rw [show i - 1 + 1 = i by omega] at hnext
  exact ⟨by omega, hget, hskip, i, hnext, hrest, by omega, Or.inl hib⟩

/-- Behind the last command the state has got to the end of the batch. -/
theorem finish (hupto : upto ≤ h.length) (hr : Remaining L h watermark upto st []) :
    L.At h (max watermark upto) st := by
  obtain ⟨a, hat, htodo, hwa, hend⟩ := hr
  rcases Nat.le_total a upto with hle | hge
  · rw [Nat.max_eq_right (hwa.trans hle)]
    exact L.skip hat hle fun i h1 h2 => ⟨none, commandsIn_eq_nil hupto htodo.symm h1 h2, rfl⟩
  · have hmax : max watermark upto = a := by omega
    rwa [hmax]

theorem extend (hupto : upto ≤ h.length) (hh : h <+: h')
    (hr : Remaining L h watermark upto st todo) : Remaining L h' watermark upto st todo := by
  obtain ⟨a, hat, htodo, hrest⟩ := hr
  exact ⟨a, L.extend hat hh, by rw [htodo, commandsIn_extend hh hupto], hrest⟩

end Remaining

/-- The state machine, and everything on its way to it, against the committed log. -/
structure Tracks (S : Setup) (L : Level Replicated.applyEntry genesis) (h : List (Option Command))
    (d : Driver) : Prop where
  inv : DriverInv d
  logged : Logged d.engine h
  batches : ∀ rd ∈ d.readies, rd.committed = commandsIn h rd.appliedFrom rd.appliedUpto
  restores : ∀ rd ∈ d.readies, ∀ data, rd.restore = some data →
    Restores S L h rd.appliedFrom data
  free : d.applyLock = none → L.At h d.applyWatermark d.sm.replicated
  restoring : ∀ (k : Nat) (dr : Drain) (plan : ScalePlan), d.drains[k]? = some dr →
    dr.stage = .restoring plan →
    L.At h dr.ready.appliedFrom { d.sm.replicated with plan := plan }
  committing : ∀ (k : Nat) (dr : Drain) (todo : List (Nat × Command)), d.drains[k]? = some dr →
    dr.stage = .committing todo →
    Remaining L h d.applyWatermark dr.ready.appliedUpto d.sm.replicated todo

namespace Tracks

theorem upto_le (ht : Tracks S L h d) {rd : Ready} (hrd : rd ∈ d.readies) :
    rd.appliedUpto ≤ h.length :=
  ((ht.inv.ready_le rd hrd).2.trans ht.inv.wellFormed.applied_le).trans ht.logged.commit_le

theorem upto_le' (ht : Tracks S L h d) (hk : d.drains[k]? = some dr) :
    dr.ready.appliedUpto ≤ h.length := ht.upto_le (DriverInv.mem_readies hk)

/-- The group commits more. -/
theorem extend (ht : Tracks S L h d) (hh : h <+: h') : Tracks S L h' d where
  inv := ht.inv
  logged := ht.logged.extend hh
  batches := fun rd hrd => by rw [ht.batches rd hrd, commandsIn_extend hh (ht.upto_le hrd)]
  restores := fun rd hrd data hdata => (ht.restores rd hrd data hdata).extend hh
  free := fun hfree => L.extend (ht.free hfree) hh
  restoring := fun k dr plan hk hstage => L.extend (ht.restoring k dr plan hk hstage) hh
  committing := fun k dr todo hk hstage =>
    (ht.committing k dr todo hk hstage).extend (ht.upto_le' hk) hh

/-- The part of a step that every step of a drain shares. Where the step moves the state machine or
the watermark, nobody else holds the watermark. -/
theorem of_moved (ht : Tracks S L h d) (hk : d.drains[k]? = some dr) (dr' : Drain)
    (hinv : DriverInv d') (hlogged : Logged d'.engine h) (hdrains : d'.drains = d.drains.set k dr')
    (hready : dr'.ready = dr.ready)
    (hothers : (d'.sm.replicated = d.sm.replicated ∧ d'.applyWatermark = d.applyWatermark) ∨
      ∀ j x, j ≠ k → d.drains[j]? = some x → x.stage.holdsApply = false)
    (hfree : d'.applyLock = none → L.At h d'.applyWatermark d'.sm.replicated)
    (hrestoring : ∀ plan, dr'.stage = .restoring plan →
      L.At h dr.ready.appliedFrom { d'.sm.replicated with plan := plan })
    (hcommitting : ∀ todo, dr'.stage = .committing todo →
      Remaining L h d'.applyWatermark dr.ready.appliedUpto d'.sm.replicated todo) :
    Tracks S L h d' := by
  have hreadies : d'.readies = d.readies := by
    rw [Driver.readies, hdrains]
    exact readies_set hk hready
  exact {
    inv := hinv
    logged := hlogged
    batches := hreadies ▸ ht.batches
    restores := hreadies ▸ ht.restores
    free := hfree
    restoring := by
      intro j x plan hj hstage
      rw [hdrains] at hj
      rcases getElem?_set_cases hj with ⟨rfl, rfl⟩ | ⟨hne, hj⟩
      · rw [hready]
        exact hrestoring plan hstage
      · rcases hothers with ⟨hsm, _⟩ | hnobody
        · rw [hsm]
          exact ht.restoring j x plan hj hstage
        · have := hnobody j x hne hj
          rw [hstage] at this
          cases this
    committing := by
      intro j x todo hj hstage
      rw [hdrains] at hj
      rcases getElem?_set_cases hj with ⟨rfl, rfl⟩ | ⟨hne, hj⟩
      · rw [hready]
        exact hcommitting todo hstage
      · rcases hothers with ⟨hsm, hw⟩ | hnobody
        · rw [hsm, hw]
          exact ht.committing j x todo hj hstage
        · have := hnobody j x hne hj
          rw [hstage] at this
          cases this }

/-- A step that leaves the state machine, the watermark and its lock alone. -/
theorem of_still (ht : Tracks S L h d) (hk : d.drains[k]? = some dr) (dr' : Drain)
    (hinv : DriverInv d') (hlogged : Logged d'.engine h) (hdrains : d'.drains = d.drains.set k dr')
    (hready : dr'.ready = dr.ready) (hsm : d'.sm = d.sm)
    (hw : d'.applyWatermark = d.applyWatermark) (hlock : d'.applyLock = d.applyLock)
    (hstage : dr'.stage.holdsApply = false) : Tracks S L h d' := by
  refine ht.of_moved hk dr' hinv hlogged hdrains hready (Or.inl ⟨by rw [hsm], hw⟩) ?_ ?_ ?_
  · rw [hlock, hw, hsm]
    exact ht.free
  · intro plan hs
    rw [hs] at hstage
    cases hstage
  · intro todo hs
    rw [hs] at hstage
    cases hstage

/-- While the lock is free, or `k` has it, nobody else holds the watermark. -/
theorem nobody_else (hinv : DriverInv d) (hlock : d.applyLock = none ∨ d.applyLock = some k) :
    ∀ j x, j ≠ k → d.drains[j]? = some x → x.stage.holdsApply = false := by
  intro j x hne hj
  by_contra hx
  have hheld := hinv.apply j x hj (by simpa using hx)
  rcases hlock with hlock | hlock
  · rw [hlock] at hheld
    cases hheld
  · rw [hlock] at hheld
    cases hheld
    exact hne rfl

/-- **A step of a drain keeps track.** -/
theorem advanced (ht : Tracks S L h d) (hk : d.drains[k]? = some dr) (ha : Advanced S d k dr d')
    (hlogged : Logged d'.engine h) : Tracks S L h d' := by
  have hinv := ht.inv.advanced hk ha
  cases ha with
  | quiet stage available _ _ hbare _ _ =>
    refine ht.of_still hk { dr with stage := stage } hinv hlogged rfl rfl rfl rfl rfl ?_
    cases stage <;> first | rfl | cases hbare
  | gotIo hstage hlock => exact ht.of_still hk _ hinv hlogged rfl rfl rfl rfl rfl rfl
  | saved snapshot hstage hvalid => exact ht.of_still hk _ hinv hlogged rfl rfl rfl rfl rfl rfl
  | lost snapshot hstage => exact ht.of_still hk _ hinv hlogged rfl rfl rfl rfl rfl rfl
  | restore data snapshot hstage hlock hrestore hle hdecode =>
    refine ht.of_moved hk _ hinv hlogged rfl rfl (Or.inr (nobody_else ht.inv (Or.inl hlock)))
      (by intro hnone; cases hnone) ?_ (by intro todo hs; cases hs)
    -- the plan that is still to be restored completes the snapshot
    intro plan hs
    cases hs
    obtain ⟨snapshot', hdecode', hat⟩ := ht.restores _ (DriverInv.mem_readies hk) data hrestore
    rw [hdecode] at hdecode'
    cases hdecode'
    exact hat
  | stale data hstage hrestore hlt => exact ht.of_still hk _ hinv hlogged rfl rfl rfl rfl rfl rfl
  | batch hstage hlock hrestore hlt hle =>
    refine ht.of_moved hk _ hinv hlogged rfl rfl (Or.inl ⟨rfl, rfl⟩)
      (by intro hnone; cases hnone) (by intro plan hs; cases hs) ?_
    intro todo hs
    cases hs
    refine ⟨d.applyWatermark, ht.free hlock, ?_, Nat.le_refl _, Or.inr rfl⟩
    rw [ht.batches _ (DriverInv.mem_readies hk), commandsIn_filter h _ hle]
  | restored plan hstage =>
    have hholds : dr.stage.holdsApply = true := by rw [hstage]; rfl
    have hheld := ht.inv.apply k dr hk hholds
    have hrestore := ht.inv.restore_of_restoring hk hstage
    refine ht.of_moved hk _ hinv hlogged rfl rfl (Or.inr (nobody_else ht.inv (Or.inr hheld))) ?_
      (by intro plan hs; cases hs) ?_
    · intro hnone
      exact absurd (hheld.symm.trans hnone) (by simp)
    · intro todo hs
      cases hs
      exact ⟨dr.ready.appliedFrom, ht.restoring k dr plan hk hstage,
        ht.batches _ (DriverInv.mem_readies hk), ht.inv.ahead_of_busy hk hholds hrestore,
        Or.inl (ht.inv.ready_le' hk).1⟩
  | applied index command todo hstage =>
    have hheld := ht.inv.apply k dr hk (by rw [hstage]; rfl)
    refine ht.of_moved hk _ hinv hlogged rfl rfl (Or.inr (nobody_else ht.inv (Or.inr hheld))) ?_
      (by intro plan hs; cases hs) ?_
    · intro hnone
      exact absurd (hheld.symm.trans hnone) (by simp)
    · intro todo' hs
      cases hs
      show Remaining L h _ _ (applyCommand d.sm command).replicated todo
      rw [replicated_applyCommand]
      exact ((ht.committing k dr _ hk hstage).step (ht.upto_le' hk)).2.2.2
  | finished hstage =>
    have hheld := ht.inv.apply k dr hk (by rw [hstage]; rfl)
    exact ht.of_moved hk _ hinv hlogged rfl rfl (Or.inr (nobody_else ht.inv (Or.inr hheld)))
      (fun _ => (ht.committing k dr _ hk hstage).finish (ht.upto_le' hk))
      (by intro plan hs; cases hs) (by intro todo hs; cases hs)
  | readShards hstage => exact ht.of_still hk _ hinv hlogged rfl rfl rfl rfl rfl rfl
  | readPlan shards data hstage hencode =>
    exact ht.of_still hk _ hinv hlogged rfl rfl rfl rfl rfl rfl
  | compacted data hstage hfree => exact ht.of_still hk _ hinv hlogged rfl rfl rfl rfl rfl rfl
  | waiting => exact ht

/-- **A call keeps track.** What it hands out is the next stretch of the log, on top of a snapshot
if one was installed. -/
theorem hand (ht : Tracks S L h d) {i : Raft.Input}
    (hi : ∀ index snapshot, i ≠ .compact index snapshot) (hadm : d.engine.Admissible i)
    (replyTo : Option NodeId) (waiter : Option (Nat × Nat))
    (hlogged : Logged (d.engine.run i) h)
    (hsound : ∀ l req, i = .step l (.installSnapshot req) →
      d.engine.baseIndex < (d.engine.run i).baseIndex →
      Restores S L h req.lastIncludedIndex req.data) :
    Tracks S L h (d.hand (d.engine.run i) replyTo waiter) := by
  have hwf := ht.inv.wellFormed.run hadm
  have hreadies : (d.hand (d.engine.run i) replyTo waiter).readies
      = d.readies ++ [(d.engine.run i).ready.1] := by
    simp [Driver.readies, Driver.hand]
  exact {
    inv := ht.inv.hand hi hadm replyTo waiter
    logged := ⟨hlogged.commit_le, hlogged.agrees⟩
    batches := by
      intro rd hrd
      rw [hreadies] at hrd
      rcases List.mem_append.mp hrd with hrd | hrd
      · exact ht.batches rd hrd
      · rw [List.mem_singleton.mp hrd, Raft.appliedUpto_ready hwf]
        exact hlogged.newlyCommitted hwf
    restores := by
      intro rd hrd data hdata
      rw [hreadies] at hrd
      rcases List.mem_append.mp hrd with hrd | hrd
      · exact ht.restores rd hrd data hdata
      · rw [List.mem_singleton.mp hrd] at hdata ⊢
        rcases Raft.lastApplied_run ht.inv.wellFormed hi ht.inv.calm with
          ⟨hp, _⟩ | ⟨hp, hlt, l, req, heq, happlied, hbase, hsnap⟩
        · rw [Raft.ready, hp] at hdata
          cases hdata
        · have hle : d.engine.baseIndex ≤ d.engine.commitIndex :=
            ht.inv.wellFormed.base_le_commit
          have hr := hsound l req heq (by omega)
          rw [Raft.ready, hp] at hdata
          obtain rfl : req.data = data := Option.some.inj (hsnap.symm.trans hdata)
          rw [show (d.engine.run i).ready.1.appliedFrom = req.lastIncludedIndex from happlied]
          exact hr
    free := ht.free
    restoring := by
      intro k dr plan hk hstage
      rcases getElem?_concat_cases hk with ⟨_, rfl⟩ | hk
      · cases hstage
      · exact ht.restoring k dr plan hk hstage
    committing := by
      intro k dr todo hk hstage
      rcases getElem?_concat_cases hk with ⟨_, rfl⟩ | hk
      · cases hstage
      · exact ht.committing k dr todo hk hstage }

end Tracks

/-- A snapshot that a call installs was delivered by it. -/
theorem snapshot?_of_input {req : Request} {l : NodeId} {snap : InstallSnapshotReq}
    (h : req.input = .step l (.installSnapshot snap)) :
    (Action.call req).snapshot? = some snap := by
  cases req <;> cases h <;> rfl

/-- **A step of a traced member keeps track.** -/
theorem tracks_step {t t' : Traced} {a : Action} (ht : Tracks S L t.history t.driver)
    (hs : TracedStep S L t a t') : Tracks S L t'.history t'.driver := by
  obtain ⟨d, h⟩ := t
  obtain ⟨d', h'⟩ := t'
  have ht' := ht.extend hs.grows
  have hact := hs.act
  cases a with
  | call req =>
    obtain ⟨replyTo, waiter, rfl⟩ := hand_of_call hact
    exact ht'.hand req.input_ne_compact (req.admissible _) replyTo waiter
      ⟨hs.logged.commit_le, hs.logged.agrees⟩
      fun l snap heq hlt => hs.sound snap (snapshot?_of_input heq) hlt
  | advance k ok =>
    obtain ⟨dr, hk, hadv⟩ := Option.bind_eq_some_iff.mp hact
    exact ht'.advanced hk (advanced_of_advance hadv) hs.logged
  | soft membership policies =>
    cases hact
    exact { ht' with inv := { ht'.inv with } }
  | closeOutbox =>
    cases hact
    exact { ht' with inv := { ht'.inv with } }

theorem tracks_of_starts {t : Traced} (ht : t.Starts S L) : Tracks S L t.history t.driver := by
  obtain ⟨id, peers, cfg, seed, store, restored, sm, hvalid, hstore, hnew, hgenesis, hlogged,
    hsnap⟩ := ht
  have hinv : DriverInv t.driver :=
    driverInv_of_starts ⟨id, peers, cfg, seed, store, restored, sm, hvalid, hstore, hnew⟩
  obtain ⟨d, h⟩ := t
  obtain ⟨sm', hboots, rfl⟩ := new_spec hnew
  have hv := (validatePersisted_ok_iff.mp hvalid).1
  exact {
    inv := hinv
    logged := hlogged
    batches := fun rd hrd => by cases hrd
    restores := fun rd hrd => by cases hrd
    free := by
      intro _
      rcases hboots with ⟨hnone, hsm⟩ | ⟨data, snapshot, hdata, hdecode, rfl⟩
      · have hbase : restored.baseIndex = 0 := by
          by_contra hne
          exact (hv.snapshot.mpr (Nat.pos_of_ne_zero hne)) hnone
        show L.At h restored.baseIndex sm'.replicated
        rw [hbase, hsm, hgenesis]
        exact L.start h
      · obtain ⟨snapshot', hdecode', hat⟩ := hsnap data hdata
        rw [hdecode] at hdecode'
        cases hdecode'
        exact hat
    restoring := fun k dr plan hk => by cases hk
    committing := fun k dr todo hk => by cases hk }

/-- **Every reachable state keeps track.** -/
theorem tracks_of_reachable {Guard : Traced → Action → Prop} {t : Traced}
    (ht : (tracedSystem S L Guard).Reachable t) : Tracks S L t.history t.driver := by
  refine ht.invariant (P := fun t => Tracks S L t.history t.driver) (fun _ => tracks_of_starts) ?_
  rintro s s' _ hs ⟨a, _, hstep⟩
  exact tracks_step hs hstep

/-! ## The state machine at any time -/

section current

variable {P : SlotLevel replicatedSlots genesis}

/-- While a snapshot is being restored, or a batch is being applied, the placement map and the plan
are no older than the watermark. -/
theorem current_advanced (ht : Tracks S P.level h d) (ht' : Tracks S P.level h d')
    (hk : d.drains[k]? = some dr) (ha : Advanced S d k dr d')
    (hc : P.level.At h d.applyWatermark d.sm.replicated) :
    P.level.At h d'.applyWatermark d'.sm.replicated := by
  have hself : ∀ x : Drain, (d.drains.set k x)[k]? = some x := fun x =>
    List.getElem?_set_self (List.getElem?_eq_some_iff.mp hk).1
  cases ha with
  | restore data snapshot hstage hlock hrestore hle hdecode =>
    -- the shards are the snapshot's, the plan is still the old one
    have hat := ht'.restoring k _ snapshot.plan (hself _) rfl
    have hahead := ht'.inv.ahead_of_busy (hself _) rfl (by rw [hrestore]; rfl)
    refine P.level_mix (P.level_mono hat hahead) hc fun slot => ?_
    cases slot with
    | shard shard => exact Or.inl rfl
    | plan => exact Or.inr rfl
  | restored plan hstage =>
    have hholds : dr.stage.holdsApply = true := by rw [hstage]; rfl
    exact P.level_mono (ht.restoring k dr plan hk hstage)
      (ht.inv.ahead_of_busy hk hholds (ht.inv.restore_of_restoring hk hstage))
  | applied index command todo hstage =>
    obtain ⟨a, hat, _, hle, _⟩ := ht'.committing k _ todo (hself _) rfl
    exact P.level_mono hat hle
  | finished hstage => exact ht'.free rfl
  | _ => exact hc

theorem current_step {t t' : Traced} {a : Action} (ht : Tracks S P.level t.history t.driver)
    (hs : TracedStep S P.level t a t')
    (hc : P.level.At t.history t.driver.applyWatermark t.driver.sm.replicated) :
    P.level.At t'.history t'.driver.applyWatermark t'.driver.sm.replicated := by
  have ht' := tracks_step ht hs
  have hc' := P.level.extend hc hs.grows
  have hact := hs.act
  obtain ⟨d, h⟩ := t
  obtain ⟨d', h'⟩ := t'
  cases a with
  | call req =>
    obtain ⟨replyTo, waiter, rfl⟩ := hand_of_call hact
    exact hc'
  | advance k ok =>
    obtain ⟨dr, hk, hadv⟩ := Option.bind_eq_some_iff.mp hact
    exact current_advanced (ht.extend hs.grows) ht' hk (advanced_of_advance hadv) hc'
  | soft membership policies =>
    cases hact
    exact hc'
  | closeOutbox =>
    cases hact
    exact hc'

/-- **Nothing that is read is older than the watermark.** -/
theorem current_of_reachable {Guard : Traced → Action → Prop} {t : Traced}
    (ht : (tracedSystem S P.level Guard).Reachable t) :
    P.level.At t.history t.driver.applyWatermark t.driver.sm.replicated := by
  refine ht.invariant
    (P := fun t => P.level.At t.history t.driver.applyWatermark t.driver.sm.replicated) ?_ ?_
  · intro s hs
    refine (tracks_of_starts hs).free ?_
    obtain ⟨id, peers, cfg, seed, store, restored, sm, _, _, hnew, _⟩ := hs
    obtain ⟨sm', _, heq⟩ := new_spec hnew
    rw [heq]
  · rintro s s' hs hc ⟨a, _, hstep⟩
    exact current_step (tracks_of_reachable hs) hstep hc

end current

/-! ## Tracing a member -/

/-- **No action takes anything back from the engine.** -/
theorem progress_act {a : Action} (hinv : DriverInv d) (ha : d.act S a = some d') :
    Raft.Progress d.engine d'.engine := by
  cases a with
  | call req =>
    obtain ⟨replyTo, waiter, rfl⟩ := hand_of_call ha
    exact (Raft.progress_run hinv.wellFormed (req.admissible _)).trans (Raft.progress_ready _)
  | advance k ok =>
    obtain ⟨dr, hk, hadv⟩ := Option.bind_eq_some_iff.mp ha
    cases advanced_of_advance hadv with
    | compacted data _ _ =>
      exact Raft.progress_run (i := .compact dr.ready.appliedUpto data) hinv.wellFormed
        (hinv.ready_le' hk).2
    | _ => exact Raft.Progress.refl _
  | soft membership policies =>
    cases ha
    exact Raft.Progress.refl _
  | closeOutbox =>
    cases ha
    exact Raft.Progress.refl _

/-- Some actions in a row, each of which passes `check`. -/
def Driver.runs (S : Setup) (check : Driver → Action → Bool) (d : Driver) :
    List Action → Option Driver
  | [] => some d
  | a :: rest => if check d a then (d.act S a).bind fun d' => d'.runs S check rest else none

/-- **A member that is sent no snapshot can be traced**, whatever it does. -/
theorem exists_trace {Guard : Traced → Action → Prop} {check : Driver → Action → Bool}
    (hcheck : ∀ t a, check t.driver a = true → Guard t a ∧ a.snapshot? = none)
    (acts : List Action) : ∀ {d d' : Driver} {h : List (Option Command)}, DriverInv d →
      Logged d.engine h → h.length = d.engine.commitIndex → d.runs S check acts = some d' →
      ∃ h', (tracedSystem S L Guard).Steps ⟨d, h⟩ ⟨d', h'⟩ ∧ h'.length = d'.engine.commitIndex := by
  induction acts with
  | nil =>
    intro d d' h _ _ hlen hruns
    cases hruns
    exact ⟨h, .refl _, hlen⟩
  | cons a rest ih =>
    intro d d' h hinv hlogged hlen hruns
    rw [Driver.runs] at hruns
    split at hruns
    · next hok =>
      obtain ⟨d₁, hact, hrest⟩ := Option.bind_eq_some_iff.mp hruns
      obtain ⟨hguard, hsnap⟩ := hcheck ⟨d, h⟩ a hok
      have hinv₁ := hinv.act hact
      obtain ⟨h₁, hgrows, hlogged₁, hlen₁⟩ :=
        exists_history hinv.wellFormed hinv₁.wellFormed (progress_act hinv hact) hlogged hlen
      obtain ⟨h', hsteps, hlen'⟩ := ih hinv₁ hlogged₁ hlen₁ hrest
      refine ⟨h', TransitionSystem.Steps.trans (.single ⟨a, hguard, hact, hgrows, hlogged₁, ?_⟩)
        hsteps, hlen'⟩
      intro req hreq
      rw [hsnap] at hreq
      cases hreq
    · cases hruns

/-! ## A fresh member -/

def freshStateMachine : StateMachine where
  membership := .new
  placement := .new 4
  plan := ⟨3, 3⟩

/-- What `Driver.new` builds from nothing. -/
def freshDriver (peers : List NodeId) (store : Option Persisted) : Driver where
  engine := Raft.new "brain-0" peers ⟨1, 2, 2⟩ 7 Persisted.default
  store := store
  available := true
  outboxOpen := true
  ioLock := none
  applyLock := none
  applyWatermark := 0
  sm := freshStateMachine
  drains := []

theorem freshDriver_starts (peers : List NodeId) {store : Option Persisted}
    (hstore : store = none ∨ store = some Persisted.default) :
    (freshDriver peers store).Starts S :=
  ⟨"brain-0", peers, ⟨1, 2, 2⟩, 7, store, Persisted.default, freshStateMachine, rfl, hstore, rfl⟩

theorem freshTraced_starts (L : Level Replicated.applyEntry freshStateMachine.replicated)
    (peers : List NodeId) : Traced.Starts S L ⟨freshDriver peers none, []⟩ :=
  ⟨"brain-0", peers, ⟨1, 2, 2⟩, 7, none, Persisted.default, freshStateMachine, rfl, Or.inl rfl, rfl,
    rfl, ⟨Nat.le_refl _, fun e he => by cases he⟩, fun data hdata => by cases hdata⟩

/-- A fresh member without a store, after some actions. -/
theorem exists_fresh_trace (L : Level Replicated.applyEntry freshStateMachine.replicated)
    (Guard : Traced → Action → Prop) {check : Driver → Action → Bool}
    (hcheck : ∀ t a, check t.driver a = true → Guard t a ∧ a.snapshot? = none)
    (peers : List NodeId) {acts : List Action}
    (hruns : (freshDriver peers none).runs S check acts = some d) :
    ∃ h, (tracedSystem S L Guard).Reachable ⟨d, h⟩ ∧ h.length = d.engine.commitIndex := by
  have hstarts := freshTraced_starts (S := S) L peers
  have htracks := tracks_of_starts hstarts
  obtain ⟨h, hsteps, hlen⟩ :=
    exists_trace (L := L) hcheck acts htracks.inv htracks.logged rfl hruns
  exact ⟨h, (TransitionSystem.Reachable.of_init hstarts).steps hsteps, hlen⟩

end FiduciaBrain.RaftDriver
