import FiduciaBrain.RaftDriver.Traced

/-!
# Compaction

`maybe_compact` reads the placement map, then the plan, and folds the log up to the drain's
`applied_upto` into what it read. `Folds` is what makes the snapshot worth the prefix that it
replaces, and what a restart finds in the store; it survives every action but one, a read of the
placement map ahead of commands that other threads are still to apply (`CaughtUp`).
-/

namespace FiduciaBrain.RaftDriver

open Infra

/-- Every command up to index `upto` is at or below the watermark. -/
def CaughtUp (h : List (Option Command)) (watermark upto : Nat) : Prop :=
  ∀ i, watermark ≤ i → i < upto → h[i]? = some none

/-- A drain that reads the placement map for a compaction finds every command up to its
`applied_upto` applied. -/
def ReadsCaughtUp (t : Traced) (a : Action) : Prop :=
  ∀ (k : Nat) (ok : Bool) (dr : Drain), a = .advance k ok → t.driver.drains[k]? = some dr →
    dr.stage = .readingShards →
    CaughtUp t.history t.driver.applyWatermark dr.ready.appliedUpto

/-- A durable state that a member can be rebuilt from. -/
structure Recoverable (S : Setup) {genesis : Replicated} (L : Level Replicated.applyEntry genesis)
    (h : List (Option Command)) (p : Persisted) : Prop where
  commit_le : p.commitIndex ≤ h.length
  agrees : ∀ e ∈ p.log, e.index ≤ p.commitIndex → h[e.index - 1]? = some e.command
  restores : ∀ data, p.snapshot = some data → Restores S L h p.baseIndex data

variable {S : Setup} {genesis : Replicated} {P : SlotLevel replicatedSlots genesis}
  {h h' : List (Option Command)} {d d' : Driver} {k : Nat} {dr : Drain}

theorem CaughtUp.extend {w upto : Nat} (hc : CaughtUp h w upto) (hh : h <+: h') :
    CaughtUp h' w upto := by
  intro i h1 h2
  obtain ⟨more, rfl⟩ := hh
  have hget := hc i h1 h2
  obtain ⟨hlt, _⟩ := List.getElem?_eq_some_iff.mp hget
  rw [List.getElem?_append_left hlt, hget]

theorem CaughtUp.mono {w w' upto : Nat} (hc : CaughtUp h w upto) (hw : w ≤ w') :
    CaughtUp h w' upto := fun i h1 h2 => hc i (hw.trans h1) h2

/-- A state that is no older than the watermark is no older than `upto`. -/
theorem CaughtUp.at {w upto : Nat} {st : Replicated} (hc : CaughtUp h w upto)
    (hs : P.level.At h w st) : P.level.At h upto st := by
  rcases Nat.le_total w upto with hle | hge
  · exact P.level.skip hs hle fun i h1 h2 => ⟨none, hc i h1 h2, rfl⟩
  · exact P.level_mono hs hge

theorem Recoverable.extend {L : Level Replicated.applyEntry genesis} {p : Persisted}
    (hp : Recoverable S L h p) (hh : h <+: h') : Recoverable S L h' p where
  commit_le := hp.commit_le.trans hh.length_le
  agrees e he hc := by
    obtain ⟨more, rfl⟩ := hh
    have hget := hp.agrees e he hc
    obtain ⟨hlt, _⟩ := List.getElem?_eq_some_iff.mp hget
    rw [List.getElem?_append_left hlt, hget]
  restores data hdata := (hp.restores data hdata).extend hh

/-- What an engine would save. -/
theorem recoverable_persistedSnapshot {L : Level Replicated.applyEntry genesis} {r : Raft}
    (hr : Logged r h) (hbase : ∀ data, r.snapshot = some data → Restores S L h r.baseIndex data) :
    Recoverable S L h r.persistedSnapshot where
  commit_le := hr.commit_le
  agrees := hr.agrees
  restores := hbase

/-! ## The invariant -/

/-- Snapshots, on their way and where they arrive, against the committed log. -/
structure Folds (S : Setup) (P : SlotLevel replicatedSlots genesis) (h : List (Option Command))
    (d : Driver) : Prop where
  tracks : Tracks S P.level h d
  current : P.level.At h d.applyWatermark d.sm.replicated
  base : ∀ data, d.engine.snapshot = some data → Restores S P.level h d.engine.baseIndex data
  reading : ∀ (k : Nat) (dr : Drain) (shards : List ShardAssignment), d.drains[k]? = some dr →
    dr.stage = .readingPlan shards → CaughtUp h d.applyWatermark dr.ready.appliedUpto ∧
      ∀ plan, P.At h dr.ready.appliedUpto .plan plan →
        P.level.At h dr.ready.appliedUpto { assignments := .ofList shards, plan := plan }
  installing : ∀ (k : Nat) (dr : Drain) (data : Bytes), d.drains[k]? = some dr →
    dr.stage = .installing data → Restores S P.level h dr.ready.appliedUpto data
  saving : ∀ (k : Nat) (dr : Drain) (p : Persisted), d.drains[k]? = some dr →
    dr.stage = .saving p → Recoverable S P.level h p
  stored : ∀ p, d.store = some p → validatePersisted p = .ok () ∧ Recoverable S P.level h p

namespace Folds

theorem extend (hf : Folds S P h d) (hh : h <+: h') : Folds S P h' d where
  tracks := hf.tracks.extend hh
  current := P.level.extend hf.current hh
  base := fun data hdata => (hf.base data hdata).extend hh
  reading := by
    intro k dr shards hk hstage
    obtain ⟨hcaught, hshards⟩ := hf.reading k dr shards hk hstage
    refine ⟨hcaught.extend hh, fun plan hplan => ?_⟩
    have hle := hf.tracks.upto_le' hk
    have hold := P.level.extend (hshards d.sm.plan ((hcaught.at hf.current).2 .plan)) hh
    refine ⟨hle.trans hh.length_le, fun slot => ?_⟩
    cases slot with
    | shard shard => exact hold.2 (.shard shard)
    | plan => exact hplan
  installing := fun k dr data hk hstage => (hf.installing k dr data hk hstage).extend hh
  saving := fun k dr p hk hstage => (hf.saving k dr p hk hstage).extend hh
  stored := fun p hp => (hf.stored p hp).imp_right fun hr => hr.extend hh

/-- The part of a step that every step of a drain shares. -/
theorem of_moved (hf : Folds S P h d) (hk : d.drains[k]? = some dr) (dr' : Drain)
    (htracks : Tracks S P.level h d') (hcurrent : P.level.At h d'.applyWatermark d'.sm.replicated)
    (hdrains : d'.drains = d.drains.set k dr') (hready : dr'.ready = dr.ready)
    (hw : d.applyWatermark ≤ d'.applyWatermark)
    (hbase : ∀ data, d'.engine.snapshot = some data →
      Restores S P.level h d'.engine.baseIndex data)
    (hstored : ∀ p, d'.store = some p →
      validatePersisted p = .ok () ∧ Recoverable S P.level h p)
    (hreading : ∀ shards, dr'.stage = .readingPlan shards →
      CaughtUp h d'.applyWatermark dr.ready.appliedUpto ∧
        ∀ plan, P.At h dr.ready.appliedUpto .plan plan →
          P.level.At h dr.ready.appliedUpto { assignments := .ofList shards, plan := plan })
    (hinstalling : ∀ data, dr'.stage = .installing data →
      Restores S P.level h dr.ready.appliedUpto data)
    (hsaving : ∀ p, dr'.stage = .saving p → Recoverable S P.level h p) : Folds S P h d' where
  tracks := htracks
  current := hcurrent
  base := hbase
  reading := by
    intro j x shards hj hstage
    rw [hdrains] at hj
    rcases getElem?_set_cases hj with ⟨rfl, rfl⟩ | ⟨_, hj⟩
    · rw [hready]
      exact hreading shards hstage
    · obtain ⟨hcaught, hshards⟩ := hf.reading j x shards hj hstage
      exact ⟨hcaught.mono hw, hshards⟩
  installing := by
    intro j x data hj hstage
    rw [hdrains] at hj
    rcases getElem?_set_cases hj with ⟨rfl, rfl⟩ | ⟨_, hj⟩
    · rw [hready]
      exact hinstalling data hstage
    · exact hf.installing j x data hj hstage
  saving := by
    intro j x p hj hstage
    rw [hdrains] at hj
    rcases getElem?_set_cases hj with ⟨rfl, rfl⟩ | ⟨_, hj⟩
    · exact hsaving p hstage
    · exact hf.saving j x p hj hstage
  stored := hstored

/-- A step that leaves the engine and the store alone and carries no data away. -/
theorem of_plain (hf : Folds S P h d) (hk : d.drains[k]? = some dr) (dr' : Drain)
    (htracks : Tracks S P.level h d') (hcurrent : P.level.At h d'.applyWatermark d'.sm.replicated)
    (hdrains : d'.drains = d.drains.set k dr') (hready : dr'.ready = dr.ready)
    (hw : d.applyWatermark ≤ d'.applyWatermark) (hengine : d'.engine = d.engine)
    (hstore : d'.store = d.store)
    (hstage : dr'.stage.bare = true ∨ dr'.stage.holdsApply = true) : Folds S P h d' := by
  refine hf.of_moved hk dr' htracks hcurrent hdrains hready hw ?_ ?_ ?_ ?_ ?_
  · rw [hengine]
    exact hf.base
  · rw [hstore]
    exact hf.stored
  · intro shards hs
    rw [hs] at hstage
    rcases hstage with hstage | hstage <;> cases hstage
  · intro data hs
    rw [hs] at hstage
    rcases hstage with hstage | hstage <;> cases hstage
  · intro p hs
    rw [hs] at hstage
    rcases hstage with hstage | hstage <;> cases hstage

/-- The log is folded away. -/
theorem base_compact (hf : Folds S P h d) {upto : Nat} {data : Bytes}
    (hdata : Restores S P.level h upto data) : ∀ data',
    (d.engine.compact upto data).snapshot = some data' →
      Restores S P.level h (d.engine.compact upto data).baseIndex data' := by
  intro data' hsnap
  unfold Raft.compact at hsnap ⊢
  split at hsnap
  · next hskip =>
    rw [if_pos hskip]
    exact hf.base data' hsnap
  · next hfold =>
    rw [if_neg hfold]
    cases hsnap
    exact hdata

/-- **A step of a drain keeps the snapshots sound**, if it does not read ahead. -/
theorem advanced (hS : S.serde.Lawful) (hf : Folds S P h d) (hk : d.drains[k]? = some dr)
    (ha : Advanced S d k dr d') (hlogged : Logged d'.engine h)
    (hreads : dr.stage = .readingShards → CaughtUp h d.applyWatermark dr.ready.appliedUpto) :
    Folds S P h d' := by
  have htracks := hf.tracks.advanced hk ha hlogged
  have hcurrent := current_advanced hf.tracks htracks hk ha hf.current
  cases ha with
  | quiet stage available _ _ hbare _ _ =>
    exact hf.of_plain hk _ htracks hcurrent rfl rfl (Nat.le_refl _) rfl rfl (Or.inl hbare)
  | gotIo hstage hlock =>
    refine hf.of_moved hk _ htracks hcurrent rfl rfl (Nat.le_refl _) hf.base hf.stored
      (by intro _ hs; cases hs) (by intro _ hs; cases hs) ?_
    intro p hs
    cases hs
    exact recoverable_persistedSnapshot hlogged hf.base
  | saved snapshot hstage hvalid =>
    refine hf.of_moved hk _ htracks hcurrent rfl rfl (Nat.le_refl _) hf.base ?_
      (by intro _ hs; cases hs) (by intro _ hs; cases hs) (by intro _ hs; cases hs)
    intro p hp
    cases hp
    exact ⟨hvalid, hf.saving k dr snapshot hk hstage⟩
  | lost snapshot hstage =>
    exact hf.of_plain hk _ htracks hcurrent rfl rfl (Nat.le_refl _) rfl rfl (Or.inl rfl)
  | restore data snapshot hstage hlock hrestore hle hdecode =>
    exact hf.of_plain hk _ htracks hcurrent rfl rfl (Nat.le_refl _) rfl rfl (Or.inr rfl)
  | stale data hstage hrestore hlt =>
    exact hf.of_plain hk _ htracks hcurrent rfl rfl (Nat.le_refl _) rfl rfl (Or.inl rfl)
  | batch hstage hlock hrestore hlt hle =>
    exact hf.of_plain hk _ htracks hcurrent rfl rfl (Nat.le_refl _) rfl rfl (Or.inr rfl)
  | restored plan hstage =>
    exact hf.of_plain hk _ htracks hcurrent rfl rfl (Nat.le_refl _) rfl rfl (Or.inr rfl)
  | applied index command todo hstage =>
    exact hf.of_plain hk _ htracks hcurrent rfl rfl (Nat.le_refl _) rfl rfl (Or.inr rfl)
  | finished hstage =>
    exact hf.of_plain hk _ htracks hcurrent rfl rfl (Nat.le_max_left _ _) rfl rfl (Or.inl rfl)
  | readShards hstage =>
    refine hf.of_moved hk _ htracks hcurrent rfl rfl (Nat.le_refl _) hf.base hf.stored ?_
      (by intro _ hs; cases hs) (by intro _ hs; cases hs)
    intro shards hs
    cases hs
    have hcaught := hreads hstage
    have hat := hcaught.at hf.current
    refine ⟨hcaught, fun plan hplan => ⟨hat.1, fun slot => ?_⟩⟩
    -- the shards are the live ones, the plan is still to be read
    cases slot with
    | shard shard =>
      have hshard := hat.2 (.shard shard)
      have hsame : Assignments.ofList d.sm.placement.snapshot = d.sm.placement.assignments :=
        Assignments.ofList_snapshot _
      show P.At h dr.ready.appliedUpto (.shard shard)
        ((Assignments.ofList d.sm.placement.snapshot).get shard)
      rw [hsame]
      exact hshard
    | plan => exact hplan
  | readPlan shards data hstage hencode =>
    refine hf.of_moved hk _ htracks hcurrent rfl rfl (Nat.le_refl _) hf.base hf.stored
      (by intro _ hs; cases hs) ?_ (by intro _ hs; cases hs)
    intro data' hs
    cases hs
    obtain ⟨hcaught, hshards⟩ := hf.reading k dr shards hk hstage
    exact ⟨_, hS _ _ hencode, hshards _ ((hcaught.at hf.current).2 .plan)⟩
  | compacted data hstage hfree =>
    have hbase := hf.base_compact (hf.installing k dr data hk hstage)
    refine hf.of_moved hk _ htracks hcurrent rfl rfl (Nat.le_refl _) hbase ?_
      (by intro _ hs; cases hs) (by intro _ hs; cases hs) (by intro _ hs; cases hs)
    intro p hp
    obtain ⟨old, hold, heq⟩ := Option.map_eq_some_iff.mp hp
    subst heq
    rcases hfree with hnone | ⟨_, hvalid⟩
    · rw [hnone] at hold
      cases hold
    · exact ⟨hvalid, recoverable_persistedSnapshot hlogged hbase⟩
  | waiting => exact hf

/-- **A call keeps the snapshots sound.** -/
theorem hand (hf : Folds S P h d) {i : Raft.Input}
    (hi : ∀ index snapshot, i ≠ .compact index snapshot) (hadm : d.engine.Admissible i)
    (replyTo : Option NodeId) (waiter : Option (Nat × Nat))
    (hlogged : Logged (d.engine.run i) h)
    (hsound : ∀ l req, i = .step l (.installSnapshot req) →
      d.engine.baseIndex < (d.engine.run i).baseIndex →
      Restores S P.level h req.lastIncludedIndex req.data) :
    Folds S P h (d.hand (d.engine.run i) replyTo waiter) where
  tracks := hf.tracks.hand hi hadm replyTo waiter hlogged hsound
  current := hf.current
  base := by
    intro data hdata
    have hdata' : (d.engine.run i).snapshot = some data := hdata
    show Restores S P.level h (d.engine.run i).baseIndex data
    rcases Raft.lastApplied_run hf.tracks.inv.wellFormed hi hf.tracks.inv.calm with
      ⟨_, _, hbase, hsnap⟩ | ⟨_, hlt, l, req, heq, _, hbase, hsnap⟩
    · rw [hbase]
      exact hf.base data (hsnap ▸ hdata')
    · have hle := hf.tracks.inv.wellFormed.base_le_commit
      have hr := hsound l req heq (Nat.lt_of_le_of_lt hle hlt)
      rw [hsnap] at hdata'
      cases hdata'
      rw [hbase]
      exact hr
  reading := by
    intro k dr shards hk hstage
    rcases getElem?_concat_cases hk with ⟨_, rfl⟩ | hk
    · cases hstage
    · exact hf.reading k dr shards hk hstage
  installing := by
    intro k dr data hk hstage
    rcases getElem?_concat_cases hk with ⟨_, rfl⟩ | hk
    · cases hstage
    · exact hf.installing k dr data hk hstage
  saving := by
    intro k dr p hk hstage
    rcases getElem?_concat_cases hk with ⟨_, rfl⟩ | hk
    · cases hstage
    · exact hf.saving k dr p hk hstage
  stored := hf.stored

end Folds

/-- **A step of a traced member keeps the snapshots sound**, if it does not read ahead. -/
theorem folds_step (hS : S.serde.Lawful) {t t' : Traced} {a : Action}
    (hf : Folds S P t.history t.driver) (hreads : ReadsCaughtUp t a)
    (hs : TracedStep S P.level t a t') : Folds S P t'.history t'.driver := by
  have hact := hs.act
  obtain ⟨d, h⟩ := t
  obtain ⟨d', h'⟩ := t'
  have hf' := hf.extend hs.grows
  cases a with
  | call req =>
    obtain ⟨replyTo, waiter, rfl⟩ := hand_of_call hact
    exact hf'.hand req.input_ne_compact (req.admissible _) replyTo waiter
      ⟨hs.logged.commit_le, hs.logged.agrees⟩
      fun l snap heq hlt => hs.sound snap (snapshot?_of_input heq) hlt
  | advance k ok =>
    obtain ⟨dr, hk, hadv⟩ := Option.bind_eq_some_iff.mp hact
    exact hf'.advanced hS hk (advanced_of_advance hadv) hs.logged
      fun hstage => (hreads k ok dr rfl hk hstage).extend hs.grows
  | soft membership policies =>
    cases hact
    exact { hf' with tracks := tracks_step hf.tracks hs }
  | closeOutbox =>
    cases hact
    exact { hf' with tracks := tracks_step hf.tracks hs }

theorem folds_of_starts {t : Traced} (ht : t.Starts S P.level) :
    Folds S P t.history t.driver := by
  have htracks := tracks_of_starts ht
  obtain ⟨id, peers, cfg, seed, store, restored, sm, hvalid, hstore, hnew, _, hlogged, hsnap⟩ := ht
  obtain ⟨d, h⟩ := t
  obtain ⟨sm', _, rfl⟩ := new_spec hnew
  exact {
    tracks := htracks
    current := htracks.free rfl
    base := hsnap
    reading := fun k dr shards hk => by cases hk
    installing := fun k dr data hk => by cases hk
    saving := fun k dr p hk => by cases hk
    stored := by
      intro p hp
      rcases hstore with rfl | rfl
      · cases hp
      · cases hp
        exact ⟨hvalid, hlogged.commit_le, hlogged.agrees, hsnap⟩ }

theorem folds_of_reachable (hS : S.serde.Lawful) {t : Traced}
    (ht : (tracedSystem S P.level ReadsCaughtUp).Reachable t) : Folds S P t.history t.driver := by
  refine ht.invariant (P := fun t => Folds S P t.history t.driver) (fun _ => folds_of_starts) ?_
  rintro s s' _ hs ⟨a, hguard, hstep⟩
  exact folds_step hS hs hguard hstep

/-- **A restart starts from a sound state again.** -/
theorem starts_of_restart (hS : S.serde.Lawful) {t : Traced}
    (ht : (tracedSystem S P.level ReadsCaughtUp).Reachable t) {p : Persisted}
    (hp : t.driver.store = some p) {id : NodeId} {peers : List NodeId} {cfg : RaftConfig}
    {seed : UInt64} {sm : StateMachine} (hsm : sm.replicated = genesis)
    (hnew : Driver.new S id peers cfg seed (some p) p sm = .ok d) :
    Traced.Starts S P.level ⟨d, t.history⟩ := by
  obtain ⟨hvalid, hr⟩ := (folds_of_reachable hS ht).stored p hp
  obtain ⟨sm', _, heq⟩ := new_spec hnew
  refine ⟨id, peers, cfg, seed, some p, p, sm, hvalid, Or.inr rfl, hnew, hsm, ?_, hr.restores⟩
  rw [heq]
  exact ⟨hr.commit_le, hr.agrees⟩

/-! ## The result -/

/-- **Compaction loses no committed command**, in runs in which nobody reads ahead: the snapshot
and the committed commands behind it lead where the whole log leads. -/
theorem compaction_keeps_commands (hS : S.serde.Lawful) {t : Traced}
    (ht : (tracedSystem S (SlotLevel.rejoins replicatedSlots genesis).level
      ReadsCaughtUp).Reachable t) (hbase : 0 < t.driver.engine.baseIndex) :
    ∃ data snapshot, t.driver.engine.snapshot = some data ∧
      S.serde.decode data = .ok snapshot ∧
      (t.history.drop t.driver.engine.baseIndex).foldl Replicated.applyEntry snapshot.replicated
        = t.history.foldl Replicated.applyEntry genesis := by
  have hf := folds_of_reachable hS ht
  have hsome := hf.tracks.inv.wellFormed.snapshot.mpr hbase
  obtain ⟨data, hdata⟩ := Option.ne_none_iff_exists'.mp hsome
  obtain ⟨snapshot, hdecode, hat⟩ := hf.base data hdata
  exact ⟨data, snapshot, hdata, hdecode, (SlotLevel.rejoins_at_iff.mp hat).2⟩

/-- No leader's snapshot, and no read of the placement map below a drain's `applied_upto`. -/
def readsBelow (d : Driver) (a : Action) : Bool :=
  a.snapshot?.isNone && match a with
    | .advance k _ => d.drains[k]?.all fun dr =>
      dr.stage ≠ .readingShards || dr.ready.appliedUpto ≤ d.applyWatermark
    | _ => true

theorem readsCaughtUp_of_readsBelow (t : Traced) (a : Action)
    (h : readsBelow t.driver a = true) : ReadsCaughtUp t a ∧ a.snapshot? = none := by
  unfold readsBelow at h
  rw [Bool.and_eq_true, Option.isNone_iff_eq_none] at h
  refine ⟨?_, h.1⟩
  rintro k ok dr rfl hk hstage i h1 h2
  have hbelow := h.2
  simp only [hk, Option.all_some, hstage, ne_eq, not_true_eq_false, decide_false, Bool.false_or,
    decide_eq_true_eq] at hbelow
  omega

/-- A lone member commits a plan, applies it and folds its log away. -/
def compactRun : List Action :=
  [.call .tick, .call .tick, .call (.propose (.setScalePlan ⟨5, 1⟩))] ++
    List.replicate 8 (.advance 2 true)

theorem compaction_keeps_commands_fresh : ∃ t : Traced,
    t.driver.engine.baseIndex = 2 ∧ t.driver.engine.log = [] ∧
      ∃ data snapshot, t.driver.engine.snapshot = some data ∧
        jsonSnapshotSerde.decode data = .ok snapshot ∧
        (t.history.drop t.driver.engine.baseIndex).foldl Replicated.applyEntry snapshot.replicated
          = t.history.foldl Replicated.applyEntry freshStateMachine.replicated := by
  have hrun : ((freshDriver [] none).runs ⟨jsonSnapshotSerde, 1⟩ readsBelow compactRun).map
      (fun d => (d.engine.baseIndex, d.engine.log)) = some (2, []) := by decide +kernel
  obtain ⟨d, hruns, hd⟩ := Option.map_eq_some_iff.mp hrun
  obtain ⟨hbase, hlog⟩ := Prod.mk.inj hd
  obtain ⟨h, hreach, _⟩ :=
    exists_fresh_trace _ ReadsCaughtUp readsCaughtUp_of_readsBelow [] hruns
  exact ⟨⟨d, h⟩, hbase, hlog,
    compaction_keeps_commands jsonSnapshotSerde_lawful hreach (by rw [hbase]; decide)⟩

/-- A lone member commits a plan. Before the thread that carries it out has applied it, a tick's
drain folds the log away. -/
def raceRun : List Action :=
  [.call .tick, .call .tick, .call (.propose (.setScalePlan ⟨5, 1⟩)), .call .tick] ++
    List.replicate 6 (.advance 3 true)

/-- The snapshot of a drain that overtook another one lacks a command that its base covers. -/
theorem overtaking_compaction_loses_command : ∃ t : Traced,
    (tracedSystem ⟨jsonSnapshotSerde, 1⟩
      (SlotLevel.rejoins replicatedSlots freshStateMachine.replicated).level
      fun _ _ => True).Reachable t ∧ 0 < t.driver.engine.baseIndex ∧
    ¬ ∃ data snapshot, t.driver.engine.snapshot = some data ∧
      jsonSnapshotSerde.decode data = .ok snapshot ∧
      (t.history.drop t.driver.engine.baseIndex).foldl Replicated.applyEntry snapshot.replicated
        = t.history.foldl Replicated.applyEntry freshStateMachine.replicated := by
  have hrun : ((freshDriver [] none).runs ⟨jsonSnapshotSerde, 1⟩
      (fun _ a => a.snapshot?.isNone) raceRun).map
        (fun d => (d.engine.baseIndex, d.engine.commitIndex, d.engine.snapshot)) =
      some (2, 2, some (stateSnapshotFormat.print ⟨[], ⟨3, 3⟩⟩)) := by decide +kernel
  have hbatch : ((freshDriver [] none).runs ⟨jsonSnapshotSerde, 1⟩
      (fun _ a => a.snapshot?.isNone) raceRun).map
        (fun d => (d.readies[2]?.map Ready.committed, d.readies[2]?.map Ready.appliedUpto)) =
      some (some [(2, .setScalePlan ⟨5, 1⟩)], some 2) := by decide +kernel
  obtain ⟨d, hruns, hd⟩ := Option.map_eq_some_iff.mp hrun
  simp only [Prod.mk.injEq] at hd
  obtain ⟨hbase, hcommit, hsnap⟩ := hd
  rw [hruns, Option.map_some, Option.some.injEq, Prod.mk.injEq] at hbatch
  obtain ⟨rd, hrd, hcommitted⟩ := Option.map_eq_some_iff.mp hbatch.1
  obtain ⟨rd', hrd', hupto⟩ := Option.map_eq_some_iff.mp hbatch.2
  obtain rfl : rd = rd' := Option.some.inj (hrd.symm.trans hrd')
  obtain ⟨h, hreach, hlen⟩ := exists_fresh_trace
    (SlotLevel.rejoins replicatedSlots freshStateMachine.replicated).level (fun _ _ => True)
    (by simp) [] hruns
  refine ⟨⟨d, h⟩, hreach, by rw [hbase]; decide, ?_⟩
  -- the log ends with the plan
  rw [hcommit] at hlen
  have hbatch := (tracks_of_reachable hreach).batches rd (List.mem_of_getElem? hrd)
  rw [hcommitted, hupto] at hbatch
  obtain ⟨_, _, hget, _⟩ := commandsIn_eq_cons hlen.ge hbatch.symm
  obtain ⟨first, rfl⟩ : ∃ first, h = [first, some (.setScalePlan ⟨5, 1⟩)] := by
    match h, hlen with
    | [first, second], _ =>
      have hsecond : second = some (.setScalePlan ⟨5, 1⟩) := by simpa using hget
      exact ⟨first, by rw [hsecond]⟩
  -- and the snapshot does not have it
  rintro ⟨data, snapshot, hdata, hdecode, heq⟩
  rw [hsnap] at hdata
  cases hdata
  rw [jsonSnapshotSerde_lawful _ _ rfl] at hdecode
  cases hdecode
  rw [hbase] at heq
  have hplan := congrArg Replicated.plan heq
  cases hplan

end FiduciaBrain.RaftDriver
