import FiduciaBrain.RaftDriver.Model

/-!
# What an action can do

`advanced_of_advance` says once what the next step of a drain can do; the invariants of the driver
are proved over its cases and never unfold a step. `DriverInv` is what the results about the driver
share: who holds the locks, and in which order the batches were handed out.
-/

namespace FiduciaBrain.RaftDriver

open Infra

/-! ## Stages -/

namespace Stage

def holdsIo : Stage → Bool
  | .saving _ => true
  | _ => false

def holdsApply : Stage → Bool
  | .restoring _ | .committing _ => true
  | _ => false

/-- How far the drain is. -/
def rank : Stage → Nat
  | .entered => 0
  | .persisting => 1
  | .saving _ => 2
  | .applying => 3
  | .restoring _ => 4
  | .committing _ => 5
  | .compacting => 6
  | .readingShards => 7
  | .readingPlan _ => 8
  | .installing _ => 9
  | .releasing => 10
  | .awaiting _ _ => 11
  | .replied _ => 12
  | .answered _ => 13
  | .failed => 14

/-- Neither a lock nor data that was read under one. -/
def bare : Stage → Bool
  | .saving _ | .restoring _ | .committing _ | .readingPlan _ | .installing _ => false
  | _ => true

end Stage

/-- What the next step of drain `k` can do. -/
inductive Advanced (S : Setup) (d : Driver) (k : Nat) (dr : Drain) : Driver → Prop
  /-- nothing but the stage changes, or the member fails closed -/
  | quiet (stage : Stage) (available : Bool) : dr.stage.holdsIo = false →
      dr.stage.holdsApply = false → stage.bare = true → dr.stage.rank ≤ stage.rank →
      (∀ index term, stage = .awaiting index term → dr.waiter = some (index, term)) →
      Advanced S d k dr ({ d with available := available }.goto k dr stage)
  | gotIo : dr.stage = .persisting → d.ioLock = none →
      Advanced S d k dr
        ({ d with ioLock := some k }.goto k dr (.saving d.engine.persistedSnapshot))
  | saved (snapshot : Persisted) : dr.stage = .saving snapshot →
      validatePersisted snapshot = .ok () →
      Advanced S d k dr
        ({ d with ioLock := none, store := some snapshot }.goto k { dr with unsaved := false }
          .applying)
  | lost (snapshot : Persisted) : dr.stage = .saving snapshot →
      Advanced S d k dr ({ d with ioLock := none, available := false }.goto k dr .failed)
  | restore (data : Bytes) (snapshot : StateSnapshot) : dr.stage = .applying →
      d.applyLock = none → dr.ready.restore = some data →
      d.applyWatermark ≤ dr.ready.appliedUpto → S.serde.decode data = .ok snapshot →
      Advanced S d k dr ({ d with
        applyLock := some k
        sm := { d.sm with placement := d.sm.placement.restoreFrom snapshot.shards }
        }.goto k dr (.restoring snapshot.plan))
  | stale (data : Bytes) : dr.stage = .applying → dr.ready.restore = some data →
      dr.ready.appliedUpto < d.applyWatermark →
      Advanced S d k dr (d.goto k { dr with unapplied := false } .compacting)
  | batch : dr.stage = .applying → d.applyLock = none → dr.ready.restore = none →
      dr.ready.appliedFrom < dr.ready.appliedUpto → dr.ready.appliedFrom ≤ d.applyWatermark →
      Advanced S d k dr ({ d with applyLock := some k }.goto k dr
        (.committing (dr.ready.committed.filter fun c => c.1 > d.applyWatermark)))
  | restored (plan : ScalePlan) : dr.stage = .restoring plan →
      Advanced S d k dr
        ({ d with sm := { d.sm with plan := plan } }.goto k dr (.committing dr.ready.committed))
  | applied (index : Nat) (command : Command) (todo : List (Nat × Command)) :
      dr.stage = .committing ((index, command) :: todo) →
      Advanced S d k dr ({ d with sm := applyCommand d.sm command }.goto k dr (.committing todo))
  | finished : dr.stage = .committing [] →
      Advanced S d k dr ({ d with
        applyLock := none
        applyWatermark := max d.applyWatermark dr.ready.appliedUpto
        }.goto k { dr with unapplied := false } .compacting)
  | readShards : dr.stage = .readingShards →
      Advanced S d k dr (d.goto k dr (.readingPlan d.sm.placement.snapshot))
  | readPlan (shards : List ShardAssignment) (data : Bytes) : dr.stage = .readingPlan shards →
      S.serde.encode { shards := shards, plan := d.sm.plan } = .ok data →
      Advanced S d k dr (d.goto k dr (.installing data))
  | compacted (data : Bytes) : dr.stage = .installing data →
      (d.store = none ∨ d.ioLock = none ∧
        validatePersisted (d.engine.compact dr.ready.appliedUpto data).persistedSnapshot = .ok ()) →
      Advanced S d k dr ({ d with
        store := d.store.map fun _ =>
          (d.engine.compact dr.ready.appliedUpto data).persistedSnapshot
        engine := d.engine.compact dr.ready.appliedUpto data }.goto k dr .releasing)
  | waiting : Advanced S d k dr d

variable {S : Setup} {d d' : Driver} {k : Nat} {dr : Drain}

theorem Stage.rank_le_failed (stage : Stage) : stage.rank ≤ Stage.failed.rank := by
  cases stage <;> simp [Stage.rank]

theorem Advanced.of_quiet {s stage : Stage} (hstage : dr.stage = s) (hio : s.holdsIo = false)
    (happly : s.holdsApply = false) (hbare : stage.bare = true) (hrank : s.rank ≤ stage.rank)
    (hwait : ∀ index term, stage = .awaiting index term → dr.waiter = some (index, term)) :
    Advanced S d k dr (d.goto k dr stage) := by
  subst hstage
  exact .quiet stage d.available hio happly hbare hrank hwait

theorem Advanced.of_failClosed {s : Stage} (hstage : dr.stage = s) (hio : s.holdsIo = false)
    (happly : s.holdsApply = false) : Advanced S d k dr (d.failClosed k dr) := by
  subst hstage
  exact .quiet .failed false hio happly rfl (Stage.rank_le_failed _) (by simp)

theorem advanced_enter (hstage : dr.stage = .entered) : Advanced S d k dr (d.enter k dr) := by
  unfold Driver.enter
  split
  · exact .of_quiet hstage rfl rfl rfl (by simp [Stage.rank]) (by simp)
  split <;> exact .of_quiet hstage rfl rfl rfl (by simp [Stage.rank]) (by simp)

theorem advanced_lockIo (hstage : dr.stage = .persisting) (h : d.lockIo k dr = some d') :
    Advanced S d k dr d' := by
  unfold Driver.lockIo at h
  split at h
  · cases h
  next hlock =>
  split at h <;> cases h
  · exact .of_quiet hstage rfl rfl rfl (by simp [Stage.rank]) (by simp)
  · exact .gotIo hstage (by simpa using hlock)

theorem advanced_save {snapshot : Persisted} {ok : Bool} (hstage : dr.stage = .saving snapshot) :
    Advanced S d k dr (d.save k dr snapshot ok) := by
  unfold Driver.save
  simp only
  split
  · next hsaves =>
    rw [saves, Bool.and_eq_true, decide_eq_true_iff] at hsaves
    exact .saved snapshot hstage hsaves.2
  · exact .lost snapshot hstage

theorem advanced_enterApply (hstage : dr.stage = .applying)
    (h : d.enterApply S k dr = some d') : Advanced S d k dr d' := by
  unfold Driver.enterApply at h
  split at h
  · cases h
    exact .of_quiet hstage rfl rfl rfl (by simp [Stage.rank]) (by simp)
  next hbusy =>
  split at h
  · cases h
  next hlock =>
  have hfree : d.applyLock = none := by simpa using hlock
  split at h
  · cases h
    exact .of_quiet hstage rfl rfl rfl (by simp [Stage.rank]) (by simp)
  split at h
  · next data hrestore =>
    split at h
    · next hle =>
      split at h
      · cases h
        exact .of_failClosed hstage rfl rfl
      · next snapshot hdecode =>
        cases h
        exact .restore data snapshot hstage hfree hrestore hle hdecode
    · next hlt =>
      cases h
      exact .stale data hstage hrestore (Nat.lt_of_not_le hlt)
  · next hrestore =>
    have hlt : dr.ready.appliedFrom < dr.ready.appliedUpto := by
      simpa [hrestore] using hbusy
    split at h <;> cases h
    next hle => exact .batch hstage hfree hrestore hlt (Nat.le_of_not_lt hle)

theorem advanced_applyNext {todo : List (Nat × Command)} (hstage : dr.stage = .committing todo) :
    Advanced S d k dr (d.applyNext k dr todo) := by
  cases todo with
  | cons c todo => exact .applied c.1 c.2 todo hstage
  | nil =>
    have hmax : (if dr.ready.appliedUpto > d.applyWatermark then dr.ready.appliedUpto
        else d.applyWatermark) = max d.applyWatermark dr.ready.appliedUpto := by
      split <;> omega
    rw [Driver.applyNext, hmax]
    exact .finished hstage

theorem advanced_testCompact (hstage : dr.stage = .compacting) :
    Advanced S d k dr (d.testCompact S k dr) := by
  unfold Driver.testCompact
  split <;> exact .of_quiet hstage rfl rfl rfl (by simp [Stage.rank]) (by simp)

theorem advanced_readPlan {shards : List ShardAssignment}
    (hstage : dr.stage = .readingPlan shards) :
    Advanced S d k dr (d.readPlan S k dr shards) := by
  unfold Driver.readPlan
  split
  · exact .of_failClosed hstage rfl rfl
  · next data hencode => exact .readPlan shards data hstage hencode

theorem advanced_install {data : Bytes} {ok : Bool} (hstage : dr.stage = .installing data)
    (h : d.install k dr data ok = some d') : Advanced S d k dr d' := by
  unfold Driver.install at h
  simp only at h
  split at h
  · next hstore =>
    cases h
    have hnone : d.store = none := by simpa using hstore
    have hcompacted := Advanced.compacted (S := S) (k := k) data hstage (Or.inl hnone)
    rw [hnone, Option.map_none, ← hnone] at hcompacted
    exact hcompacted
  next hstore =>
  split at h
  · cases h
  next hlock =>
  have hfree : d.ioLock = none := by simpa using hlock
  split at h
  · cases h
    exact .of_quiet hstage rfl rfl rfl (by simp [Stage.rank]) (by simp)
  split at h <;> cases h
  · next hsaves =>
    rw [saves, Bool.and_eq_true, decide_eq_true_iff] at hsaves
    obtain ⟨p, hp⟩ := Option.ne_none_iff_exists'.mp (by simpa using hstore : d.store ≠ none)
    have hcompacted :=
      Advanced.compacted (S := S) (k := k) data hstage (Or.inr ⟨hfree, hsaves.2⟩)
    rw [hp, Option.map_some] at hcompacted
    exact hcompacted
  · exact .of_failClosed hstage rfl rfl

theorem advanced_release (hstage : dr.stage = .releasing) :
    Advanced S d k dr (d.release k dr) := by
  unfold Driver.release
  split
  · exact .of_failClosed hstage rfl rfl
  split
  · exact .of_quiet hstage rfl rfl rfl (by simp [Stage.rank]) (by simp)
  · next index term hwaiter =>
    exact .of_quiet hstage rfl rfl rfl (by simp [Stage.rank]) (by simp [hwaiter])

theorem advanced_awaitCommit {index term : Nat} {inTime : Bool}
    (hstage : dr.stage = .awaiting index term) :
    Advanced S d k dr (d.awaitCommit k dr index term inTime) := by
  have answer : ∀ result, Advanced S d k dr (d.goto k dr (.answered result)) := fun result =>
    .of_quiet hstage rfl rfl rfl (by simp [Stage.rank]) (by simp)
  unfold Driver.awaitCommit
  split
  · exact answer true
  split
  · exact answer false
  split
  · exact answer false
  · exact .waiting

/-- **What a step of a drain can do.** -/
theorem advanced_of_advance {ok : Bool} (h : d.advance S k dr ok = some d') :
    Advanced S d k dr d' := by
  unfold Driver.advance at h
  split at h
  case h_1 hstage => cases h; exact advanced_enter hstage
  case h_2 hstage => exact advanced_lockIo hstage h
  case h_3 snapshot hstage => cases h; exact advanced_save hstage
  case h_4 hstage => exact advanced_enterApply hstage h
  case h_5 plan hstage => cases h; exact .restored plan hstage
  case h_6 todo hstage => cases h; exact advanced_applyNext hstage
  case h_7 hstage => cases h; exact advanced_testCompact hstage
  case h_8 hstage => cases h; exact .readShards hstage
  case h_9 shards hstage => cases h; exact advanced_readPlan hstage
  case h_10 data hstage => exact advanced_install hstage h
  case h_11 hstage => cases h; exact advanced_release hstage
  case h_12 index term hstage => cases h; exact advanced_awaitCommit hstage
  all_goals cases h

/-! ## Calls -/

/-- What a request does to the engine. -/
def Request.input : Request → Raft.Input
  | .tick => .tick
  | .deliver sender resp => .step sender resp
  | .inbound sender msg => .step sender msg
  | .propose command => .propose command

theorem Request.input_ne_compact (req : Request) (index : Nat) (snapshot : Bytes) :
    req.input ≠ .compact index snapshot := by
  cases req <;> simp [Request.input]

theorem Request.admissible (req : Request) (r : Raft) : r.Admissible req.input := by
  cases req <;> trivial

/-- A call runs the engine and hands its `Ready` to a new drain. -/
theorem hand_of_call {req : Request} (h : d.call req = some d') :
    ∃ replyTo waiter, d' = d.hand (d.engine.run req.input) replyTo waiter := by
  cases req with
  | tick => cases h; exact ⟨_, _, rfl⟩
  | deliver sender resp => cases h; exact ⟨_, _, rfl⟩
  | inbound sender msg => cases h; exact ⟨_, _, rfl⟩
  | propose command =>
    simp only [Driver.call] at h
    split at h
    · cases h
    · next index r hr =>
      cases h
      exact ⟨_, _, by rw [Request.input, Raft.run, hr]⟩

/-! ## Drains -/

/-- Every `Ready` ever taken, in the order in which the engine handed them out. -/
def Driver.readies (d : Driver) : List Ready := d.drains.map Drain.ready

theorem getElem?_set_cases {α : Type*} {l : List α} {i j : Nat} {a x : α}
    (h : (l.set i a)[j]? = some x) : (j = i ∧ x = a) ∨ (j ≠ i ∧ l[j]? = some x) := by
  rw [List.getElem?_set] at h
  split at h
  · next heq =>
    split at h <;> cases h
    exact Or.inl ⟨heq.symm, rfl⟩
  · next hne => exact Or.inr ⟨Ne.symm hne, h⟩

theorem getElem?_concat_cases {α : Type*} {l : List α} {j : Nat} {a x : α}
    (h : (l ++ [a])[j]? = some x) : (j = l.length ∧ x = a) ∨ l[j]? = some x := by
  rw [List.getElem?_append] at h
  split at h
  · exact Or.inr h
  · next hlt =>
    rw [List.getElem?_singleton] at h
    split at h <;> cases h
    exact Or.inl ⟨by omega, rfl⟩

theorem readies_set {drains : List Drain} {dr' : Drain} (h : drains[k]? = some dr)
    (hready : dr'.ready = dr.ready) :
    (drains.set k dr').map Drain.ready = drains.map Drain.ready := by
  refine List.ext_getElem? fun j => ?_
  rw [List.getElem?_map, List.getElem?_map, List.getElem?_set]
  split
  · next hj =>
    subst hj
    obtain ⟨hk, _⟩ := List.getElem?_eq_some_iff.mp h
    rw [if_pos hk, h, Option.map_some, Option.map_some, hready]
  · rfl

/-! ## The invariant -/

/-- `a` was handed out before `b`. -/
def Before (a b : Ready) : Prop :=
  a.appliedUpto ≤ b.appliedFrom ∧ (b.restore.isSome = true → a.appliedUpto < b.appliedFrom)

/-- What holds of a drain while it holds the watermark, at `watermark`. -/
def Drain.Busy (dr : Drain) (watermark : Nat) : Prop :=
  dr.unapplied = true ∧
    ((dr.ready.restore.isSome = true ∧ watermark ≤ dr.ready.appliedUpto) ∨
      (dr.ready.restore = none ∧ (∃ todo, dr.stage = .committing todo) ∧
        dr.ready.appliedFrom < dr.ready.appliedUpto ∧ dr.ready.appliedFrom ≤ watermark))

/-- The driver's own invariant. -/
structure DriverInv (d : Driver) : Prop where
  wellFormed : d.engine.WellFormed
  out : d.engine.out = []
  calm : d.engine.pendingRestore = false
  ready_le : ∀ rd ∈ d.readies, rd.appliedFrom ≤ rd.appliedUpto ∧
    rd.appliedUpto ≤ d.engine.lastApplied
  order : d.readies.Pairwise Before
  watermark_le : d.applyWatermark ≤ d.engine.lastApplied
  io : ∀ (k : Nat) (dr : Drain), d.drains[k]? = some dr → dr.stage.holdsIo = true →
    d.ioLock = some k
  apply : ∀ (k : Nat) (dr : Drain), d.drains[k]? = some dr → dr.stage.holdsApply = true →
    d.applyLock = some k
  busy : ∀ (k : Nat) (dr : Drain), d.drains[k]? = some dr → dr.stage.holdsApply = true →
    dr.Busy d.applyWatermark
  /-- a restore that is still to come is ahead of the watermark, or a later one overtook it -/
  pending : ∀ (k : Nat) (dr : Drain), d.drains[k]? = some dr → dr.stage.rank ≤ 3 →
    dr.ready.restore.isSome = true ∨ dr.ready.appliedFrom < dr.ready.appliedUpto →
    dr.unapplied = true
  ahead : ∀ (k : Nat) (dr : Drain), d.drains[k]? = some dr → dr.unapplied = true →
    dr.ready.restore.isSome = true →
    d.applyWatermark ≤ dr.ready.appliedFrom ∨ dr.ready.appliedUpto < d.applyWatermark

namespace DriverInv

theorem mem_readies (hk : d.drains[k]? = some dr) : dr.ready ∈ d.readies :=
  List.mem_map_of_mem (List.mem_of_getElem? hk)

theorem ready_le' (h : DriverInv d) (hk : d.drains[k]? = some dr) :
    dr.ready.appliedFrom ≤ dr.ready.appliedUpto ∧ dr.ready.appliedUpto ≤ d.engine.lastApplied :=
  h.ready_le dr.ready (mem_readies hk)

theorem before (h : DriverInv d) {j k : Nat} {a b : Drain} (hj : d.drains[j]? = some a)
    (hk : d.drains[k]? = some b) (hjk : j < k) : Before a.ready b.ready := by
  obtain ⟨hjl, rfl⟩ := List.getElem?_eq_some_iff.mp hj
  obtain ⟨hkl, rfl⟩ := List.getElem?_eq_some_iff.mp hk
  have hpair := List.pairwise_iff_getElem.mp h.order j k (by simpa [Driver.readies] using hjl)
    (by simpa [Driver.readies] using hkl) hjk
  simpa [Driver.readies] using hpair

/-- A restore that holds the watermark is ahead of it. -/
theorem ahead_of_busy (h : DriverInv d) (hk : d.drains[k]? = some dr)
    (hstage : dr.stage.holdsApply = true) (hr : dr.ready.restore.isSome = true) :
    d.applyWatermark ≤ dr.ready.appliedFrom := by
  obtain ⟨hun, hbusy⟩ := h.busy k dr hk hstage
  rcases h.ahead k dr hk hun hr with hle | hlt
  · exact hle
  · rcases hbusy with ⟨_, hle⟩ | ⟨hnone, _⟩
    · omega
    · rw [hnone] at hr
      cases hr

/-- A drain that is about to restore the plan took a restore. -/
theorem restore_of_restoring (h : DriverInv d) (hk : d.drains[k]? = some dr) {plan : ScalePlan}
    (hstage : dr.stage = .restoring plan) : dr.ready.restore.isSome = true := by
  rcases (h.busy k dr hk (by rw [hstage]; rfl)).2 with ⟨hr, _⟩ | ⟨_, ⟨todo, htodo⟩, _⟩
  · exact hr
  · rw [hstage] at htodo
    cases htodo

/-- The part of a step that every step of a drain shares: drain `k` moves on with the same
`Ready`, everybody else keeps what he holds. -/
structure Moved (d d' : Driver) (k : Nat) (dr dr' : Drain) : Prop where
  drains : d'.drains = d.drains.set k dr'
  ready : dr'.ready = dr.ready
  unapplied : dr'.unapplied = true → dr.unapplied = true
  early : dr'.stage.rank ≤ 3 → dr.stage.rank ≤ 3 ∧ dr'.unapplied = dr.unapplied
  ioSelf : dr'.stage.holdsIo = true → d'.ioLock = some k
  ioOther : ∀ j, j ≠ k → d.ioLock = some j → d'.ioLock = some j
  applySelf : dr'.stage.holdsApply = true → d'.applyLock = some k
  applyOther : ∀ j, j ≠ k → d.applyLock = some j → d'.applyLock = some j

theorem of_moved (h : DriverInv d) (hk : d.drains[k]? = some dr) (dr' : Drain)
    (hm : Moved d d' k dr dr') (hwf : d'.engine.WellFormed) (hout : d'.engine.out = [])
    (hcalm : d'.engine.pendingRestore = false)
    (happlied : d'.engine.lastApplied = d.engine.lastApplied)
    (hw : d'.applyWatermark = d.applyWatermark)
    (hbusy : dr'.stage.holdsApply = true → dr'.Busy d.applyWatermark) : DriverInv d' := by
  have hreadies : d'.readies = d.readies := by
    rw [Driver.readies, hm.drains]
    exact readies_set hk hm.ready
  exact {
    wellFormed := hwf
    out := hout
    calm := hcalm
    ready_le := by
      rw [hreadies, happlied]
      exact h.ready_le
    order := hreadies ▸ h.order
    watermark_le := by
      rw [hw, happlied]
      exact h.watermark_le
    io := fun j x hj hx => by
      rw [hm.drains] at hj
      rcases getElem?_set_cases hj with ⟨rfl, rfl⟩ | ⟨hne, hj⟩
      · exact hm.ioSelf hx
      · exact hm.ioOther j hne (h.io j x hj hx)
    apply := fun j x hj hx => by
      rw [hm.drains] at hj
      rcases getElem?_set_cases hj with ⟨rfl, rfl⟩ | ⟨hne, hj⟩
      · exact hm.applySelf hx
      · exact hm.applyOther j hne (h.apply j x hj hx)
    busy := fun j x hj hx => by
      rw [hw]
      rw [hm.drains] at hj
      rcases getElem?_set_cases hj with ⟨rfl, rfl⟩ | ⟨_, hj⟩
      · exact hbusy hx
      · exact h.busy j x hj hx
    pending := fun j x hj hx hany => by
      rw [hm.drains] at hj
      rcases getElem?_set_cases hj with ⟨rfl, rfl⟩ | ⟨_, hj⟩
      · obtain ⟨hearly, hun⟩ := hm.early hx
        rw [hm.ready] at hany
        exact hun.trans (h.pending _ dr hk hearly hany)
      · exact h.pending j x hj hx hany
    ahead := fun j x hj hun hr => by
      rw [hw]
      rw [hm.drains] at hj
      rcases getElem?_set_cases hj with ⟨rfl, rfl⟩ | ⟨_, hj⟩
      · rw [hm.ready] at hr ⊢
        exact h.ahead _ dr hk (hm.unapplied hun) hr
      · exact h.ahead j x hj hun hr }

/-- The watermark moves to the end of batch `k`. -/
theorem finish (h : DriverInv d) (hk : d.drains[k]? = some dr)
    (hstage : dr.stage = .committing []) :
    DriverInv ({ d with
      applyLock := none
      applyWatermark := max d.applyWatermark dr.ready.appliedUpto
      }.goto k { dr with unapplied := false } .compacting) := by
  have hholds : dr.stage.holdsApply = true := by rw [hstage]; rfl
  have hlock := h.apply k dr hk hholds
  have hbusy := (h.busy k dr hk hholds).2
  have hle := h.ready_le' hk
  have hreadies : ({ d with
      applyLock := none
      applyWatermark := max d.applyWatermark dr.ready.appliedUpto
      }.goto k { dr with unapplied := false } .compacting).readies = d.readies :=
    readies_set hk rfl
  exact {
    wellFormed := h.wellFormed
    out := h.out
    calm := h.calm
    ready_le := hreadies ▸ h.ready_le
    order := hreadies ▸ h.order
    watermark_le := Nat.max_le.mpr ⟨h.watermark_le, hle.2⟩
    io := fun j x hj hx => by
      rcases getElem?_set_cases hj with ⟨rfl, rfl⟩ | ⟨_, hj⟩
      · cases hx
      · exact h.io j x hj hx
    apply := fun j x hj hx => by
      rcases getElem?_set_cases hj with ⟨rfl, rfl⟩ | ⟨hne, hj⟩
      · cases hx
      · -- the watermark had one holder
        have hj' := h.apply j x hj hx
        rw [hlock] at hj'
        cases hj'
        exact absurd rfl hne
    busy := fun j x hj hx => by
      rcases getElem?_set_cases hj with ⟨rfl, rfl⟩ | ⟨hne, hj⟩
      · cases hx
      · have hj' := h.apply j x hj hx
        rw [hlock] at hj'
        cases hj'
        exact absurd rfl hne
    pending := fun j x hj hx hany => by
      rcases getElem?_set_cases hj with ⟨rfl, rfl⟩ | ⟨_, hj⟩
      · exact absurd hx (by simp [Stage.rank])
      · exact h.pending j x hj hx hany
    ahead := fun j x hj hun hr => by
      rcases getElem?_set_cases hj with ⟨rfl, rfl⟩ | ⟨hne, hj⟩
      · cases hun
      · show max d.applyWatermark dr.ready.appliedUpto ≤ _ ∨
          _ < max d.applyWatermark dr.ready.appliedUpto
        have hahead := h.ahead j x hj hun hr
        rcases Nat.lt_or_ge k j with hlt | hge
        · have hbefore := (h.before hk hj hlt).2 hr
          omega
        · -- a later batch took its turn: it ends behind the restore
          obtain ⟨hfrom, hstrict⟩ := h.before hj hk (by omega)
          rcases hbusy with ⟨hrestore, _⟩ | ⟨_, _, hlt, _⟩
          · have := hstrict hrestore
            omega
          · omega }

/-- Compaction changes nothing but the log, the base and the dirty flag. -/
theorem compact_facts {r : Raft} (h : r.WellFormed) {index : Nat} (hi : index ≤ r.lastApplied)
    (data : Bytes) : (r.compact index data).WellFormed ∧ (r.compact index data).out = r.out ∧
      (r.compact index data).pendingRestore = r.pendingRestore ∧
      (r.compact index data).lastApplied = r.lastApplied := by
  refine ⟨h.run (i := .compact index data) hi, ?_⟩
  unfold Raft.compact
  split <;> exact ⟨rfl, rfl, rfl⟩

/-- A step that takes no lock and gives none back. -/
theorem Moved.of_locks {dr' : Drain} (hdrains : d'.drains = d.drains.set k dr')
    (hready : dr'.ready = dr.ready) (hun : dr'.unapplied = true → dr.unapplied = true)
    (hearly : dr'.stage.rank ≤ 3 → dr.stage.rank ≤ 3 ∧ dr'.unapplied = dr.unapplied)
    (hio : d'.ioLock = d.ioLock) (happly : d'.applyLock = d.applyLock)
    (hioSelf : dr'.stage.holdsIo = true → d.ioLock = some k)
    (happlySelf : dr'.stage.holdsApply = true → d.applyLock = some k) : Moved d d' k dr dr' where
  drains := hdrains
  ready := hready
  unapplied := hun
  early := hearly
  ioSelf := fun hs => hio.trans (hioSelf hs)
  ioOther := fun _ _ hj => hio.trans hj
  applySelf := fun hs => happly.trans (happlySelf hs)
  applyOther := fun _ _ hj => happly.trans hj

/-- A step that takes the IO lock or gives it back. -/
theorem Moved.of_ioLock {dr' : Drain} (hdrains : d'.drains = d.drains.set k dr')
    (hready : dr'.ready = dr.ready) (hun : dr'.unapplied = dr.unapplied)
    (hearly : dr'.stage.rank ≤ 3 → dr.stage.rank ≤ 3) (happly : d'.applyLock = d.applyLock)
    (hfree : d.ioLock = none ∨ d.ioLock = some k)
    (hioSelf : dr'.stage.holdsIo = true → d'.ioLock = some k)
    (hnot : dr'.stage.holdsApply = false) : Moved d d' k dr dr' where
  drains := hdrains
  ready := hready
  unapplied := fun hs => hun ▸ hs
  early := fun hs => ⟨hearly hs, hun⟩
  ioSelf := hioSelf
  ioOther := fun j hne hj => by
    rcases hfree with hfree | hfree <;> rw [hfree] at hj <;> cases hj
    exact absurd rfl hne
  applySelf := fun hs => by
    rw [hnot] at hs
    cases hs
  applyOther := fun _ _ hj => happly.trans hj

/-- A step that takes the lock on the watermark. -/
theorem Moved.of_applyLock {dr' : Drain} (hdrains : d'.drains = d.drains.set k dr')
    (hready : dr'.ready = dr.ready) (hun : dr'.unapplied = dr.unapplied)
    (hlate : 3 < dr'.stage.rank) (hio : d'.ioLock = d.ioLock) (hfree : d.applyLock = none)
    (hself : d'.applyLock = some k) (hnot : dr'.stage.holdsIo = false) :
    Moved d d' k dr dr' where
  drains := hdrains
  ready := hready
  unapplied := fun hs => hun ▸ hs
  early := fun hs => absurd hs (Nat.not_le.mpr hlate)
  ioSelf := fun hs => by
    rw [hnot] at hs
    cases hs
  ioOther := fun _ _ hj => hio.trans hj
  applySelf := fun _ => hself
  applyOther := fun j _ hj => by
    rw [hfree] at hj
    cases hj

/-- A step that leaves the engine and the watermark alone. -/
theorem of_moved_idle (h : DriverInv d) (hk : d.drains[k]? = some dr) (dr' : Drain)
    (hm : Moved d d' k dr dr') (hengine : d'.engine = d.engine)
    (hw : d'.applyWatermark = d.applyWatermark)
    (hbusy : dr'.stage.holdsApply = true → dr'.Busy d.applyWatermark) : DriverInv d' := by
  refine h.of_moved hk dr' hm ?_ ?_ ?_ ?_ hw hbusy <;> rw [hengine]
  · exact h.wellFormed
  · exact h.out
  · exact h.calm

/-- **A step of a drain keeps the invariant.** -/
theorem advanced (h : DriverInv d) (hk : d.drains[k]? = some dr) (ha : Advanced S d k dr d') :
    DriverInv d' := by
  have late : ∀ {stage : Stage} {P : Prop}, 3 < stage.rank → stage.rank ≤ 3 → P :=
    fun hlt hle => absurd hle (Nat.not_le.mpr hlt)
  cases ha with
  | quiet stage available hio happly hbare hrank _ =>
    have hfree : stage.holdsIo = false ∧ stage.holdsApply = false := by
      cases stage <;> simp_all [Stage.holdsIo, Stage.holdsApply, Stage.bare]
    refine h.of_moved_idle hk { dr with stage := stage }
      (.of_locks rfl rfl id (fun hs => ⟨hrank.trans hs, rfl⟩) rfl rfl ?_ ?_) rfl rfl ?_
    · simp [hfree.1]
    · simp [hfree.2]
    · simp [hfree.2]
  | gotIo hstage hlock =>
    exact h.of_moved_idle hk { dr with stage := .saving d.engine.persistedSnapshot }
      (.of_ioLock rfl rfl rfl (fun _ => by simp [hstage, Stage.rank]) rfl (.inl hlock)
        (fun _ => rfl) rfl) rfl rfl nofun
  | saved snapshot hstage hvalid =>
    have hlock := h.io k dr hk (by rw [hstage]; rfl)
    exact h.of_moved_idle hk { dr with unsaved := false, stage := .applying }
      (.of_ioLock rfl rfl rfl (fun _ => by simp [hstage, Stage.rank]) rfl (.inr hlock) nofun rfl)
      rfl rfl nofun
  | lost snapshot hstage =>
    have hlock := h.io k dr hk (by rw [hstage]; rfl)
    exact h.of_moved_idle hk { dr with stage := .failed }
      (.of_ioLock rfl rfl rfl (late (by simp [Stage.rank])) rfl (.inr hlock) nofun rfl)
      rfl rfl nofun
  | restore data snapshot hstage hlock hrestore hle hdecode =>
    have hsome : dr.ready.restore.isSome = true := by rw [hrestore]; rfl
    have hun := h.pending k dr hk (by simp [hstage, Stage.rank]) (.inl hsome)
    exact h.of_moved_idle hk { dr with stage := .restoring snapshot.plan }
      (.of_applyLock rfl rfl rfl (by simp [Stage.rank]) rfl hlock rfl rfl) rfl rfl
      (fun _ => ⟨hun, .inl ⟨hsome, hle⟩⟩)
  | stale data hstage hrestore hlt =>
    exact h.of_moved_idle hk { dr with unapplied := false, stage := .compacting }
      (.of_locks rfl rfl nofun (late (by simp [Stage.rank])) rfl rfl nofun nofun) rfl rfl nofun
  | batch hstage hlock hrestore hlt hle =>
    have hun := h.pending k dr hk (by simp [hstage, Stage.rank]) (.inr hlt)
    exact h.of_moved_idle hk { dr with
      stage := .committing (dr.ready.committed.filter fun c => c.1 > d.applyWatermark) }
      (.of_applyLock rfl rfl rfl (by simp [Stage.rank]) rfl hlock rfl rfl) rfl rfl
      (fun _ => ⟨hun, .inr ⟨hrestore, ⟨_, rfl⟩, hlt, hle⟩⟩)
  | restored plan hstage =>
    have hholds : dr.stage.holdsApply = true := by rw [hstage]; rfl
    have hrestore := h.restore_of_restoring hk hstage
    have hle := (h.ahead_of_busy hk hholds hrestore).trans (h.ready_le' hk).1
    exact h.of_moved_idle hk { dr with stage := .committing dr.ready.committed }
      (.of_locks rfl rfl id (late (by simp [Stage.rank])) rfl rfl nofun
        (fun _ => h.apply k dr hk hholds)) rfl rfl
      (fun _ => ⟨(h.busy k dr hk hholds).1, .inl ⟨hrestore, hle⟩⟩)
  | applied index command todo hstage =>
    have hholds : dr.stage.holdsApply = true := by rw [hstage]; rfl
    have hbusy := h.busy k dr hk hholds
    refine h.of_moved_idle hk { dr with stage := .committing todo }
      (.of_locks rfl rfl id (late (by simp [Stage.rank])) rfl rfl nofun
        (fun _ => h.apply k dr hk hholds)) rfl rfl (fun _ => ⟨hbusy.1, ?_⟩)
    rcases hbusy.2 with hr | ⟨hr, _, hle⟩
    · exact .inl hr
    · exact .inr ⟨hr, ⟨todo, rfl⟩, hle⟩
  | finished hstage => exact h.finish hk hstage
  | readShards hstage =>
    exact h.of_moved_idle hk { dr with stage := .readingPlan d.sm.placement.snapshot }
      (.of_locks rfl rfl id (late (by simp [Stage.rank])) rfl rfl nofun nofun) rfl rfl nofun
  | readPlan shards data hstage hencode =>
    exact h.of_moved_idle hk { dr with stage := .installing data }
      (.of_locks rfl rfl id (late (by simp [Stage.rank])) rfl rfl nofun nofun) rfl rfl nofun
  | compacted data hstage hfree =>
    obtain ⟨hwf, hout, hcalm, happlied⟩ := compact_facts h.wellFormed (h.ready_le' hk).2 data
    exact h.of_moved hk { dr with stage := .releasing }
      (.of_locks rfl rfl id (late (by simp [Stage.rank])) rfl rfl nofun nofun) hwf
      (hout.trans h.out) (hcalm.trans h.calm) happlied rfl nofun
  | waiting => exact h

/-- **A call keeps the invariant.** What it hands out starts where the last one ended, or at the
base of a snapshot that is ahead of all of them. -/
theorem hand (h : DriverInv d) {i : Raft.Input} (hi : ∀ index snapshot, i ≠ .compact index snapshot)
    (ha : d.engine.Admissible i) (replyTo : Option NodeId) (waiter : Option (Nat × Nat)) :
    DriverInv (d.hand (d.engine.run i) replyTo waiter) := by
  have hrun := h.wellFormed.run ha
  have hupto := Raft.appliedUpto_ready hrun
  have happlied := Raft.lastApplied_ready hrun
  -- where the new batch starts
  have hfrom : d.engine.lastApplied ≤ (d.engine.run i).lastApplied ∧
      ((d.engine.run i).ready.1.restore.isSome = true →
        d.engine.lastApplied < (d.engine.run i).lastApplied) := by
    rcases Raft.lastApplied_run h.wellFormed hi h.calm with ⟨hp, hl, _⟩ | ⟨_, hlt, _, _, _, hl, hb, _⟩
    · refine ⟨hl.ge, fun hr => ?_⟩
      rw [Raft.ready, hp] at hr
      cases hr
    · have hbelow : d.engine.lastApplied ≤ d.engine.commitIndex := h.wellFormed.applied_le
      exact ⟨by omega, fun _ => by omega⟩
  have hle : ∀ rd ∈ d.readies, rd.appliedUpto ≤ d.engine.lastApplied := fun rd hrd =>
    (h.ready_le rd hrd).2
  have hcommit : d.engine.lastApplied ≤ (d.engine.run i).commitIndex :=
    hfrom.1.trans hrun.applied_le
  have hreadies : (d.hand (d.engine.run i) replyTo waiter).readies
      = d.readies ++ [(d.engine.run i).ready.1] := by
    simp [Driver.readies, Driver.hand]
  exact {
    wellFormed := hrun.ready
    out := rfl
    calm := rfl
    ready_le := by
      intro rd hrd
      rw [hreadies] at hrd
      show _ ∧ _ ≤ (d.engine.run i).ready.2.lastApplied
      rw [happlied]
      rcases List.mem_append.mp hrd with hrd | hrd
      · exact ⟨(h.ready_le rd hrd).1, (hle rd hrd).trans hcommit⟩
      · rw [List.mem_singleton.mp hrd]
        exact ⟨hupto ▸ hrun.applied_le, hupto.le⟩
    order := by
      rw [hreadies, List.pairwise_append]
      refine ⟨h.order, by simp, ?_⟩
      intro a ha b hb
      rw [List.mem_singleton.mp hb]
      exact ⟨(hle a ha).trans hfrom.1, fun hr => Nat.lt_of_le_of_lt (hle a ha) (hfrom.2 hr)⟩
    watermark_le := h.watermark_le.trans (hcommit.trans happlied.ge)
    io := by
      intro k dr hk hx
      rcases getElem?_concat_cases hk with ⟨_, rfl⟩ | hk
      · cases hx
      · exact h.io k dr hk hx
    apply := by
      intro k dr hk hx
      rcases getElem?_concat_cases hk with ⟨_, rfl⟩ | hk
      · cases hx
      · exact h.apply k dr hk hx
    busy := by
      intro k dr hk hx
      rcases getElem?_concat_cases hk with ⟨_, rfl⟩ | hk
      · cases hx
      · exact h.busy k dr hk hx
    pending := by
      intro k dr hk hx hany
      rcases getElem?_concat_cases hk with ⟨_, rfl⟩ | hk
      · simpa using hany
      · exact h.pending k dr hk hx hany
    ahead := by
      intro k dr hk hun hr
      rcases getElem?_concat_cases hk with ⟨_, rfl⟩ | hk
      · exact Or.inl (h.watermark_le.trans (hfrom.2 hr).le)
      · exact h.ahead k dr hk hun hr }

/-- **An action keeps the invariant.** -/
theorem act (h : DriverInv d) {a : Action} (ha : d.act S a = some d') : DriverInv d' := by
  cases a with
  | call req =>
    obtain ⟨replyTo, waiter, rfl⟩ := hand_of_call ha
    exact h.hand req.input_ne_compact (req.admissible _) replyTo waiter
  | advance k ok =>
    obtain ⟨dr, hk, hadv⟩ := Option.bind_eq_some_iff.mp ha
    exact h.advanced hk (advanced_of_advance hadv)
  | soft membership policies =>
    cases ha
    exact { h with }
  | closeOutbox =>
    cases ha
    exact { h with }

end DriverInv

/-! ## The system -/

/-- The state machine that a member starts with: the one it is given, with the recovered snapshot
folded in. -/
def Boots (S : Setup) (restored : Persisted) (sm sm' : StateMachine) : Prop :=
  (restored.snapshot = none ∧ sm' = sm) ∨
    ∃ data snapshot, restored.snapshot = some data ∧ S.serde.decode data = .ok snapshot ∧
      sm' = { sm with
        placement := sm.placement.restoreFrom snapshot.shards
        plan := snapshot.plan }

/-- A started member. -/
theorem new_spec {id : NodeId} {peers : List NodeId} {cfg : RaftConfig} {seed : UInt64}
    {store : Option Persisted} {restored : Persisted} {sm : StateMachine}
    (h : Driver.new S id peers cfg seed store restored sm = .ok d) :
    ∃ sm', Boots S restored sm sm' ∧ d = {
      engine := Raft.new id peers cfg seed restored
      store := store
      available := true
      outboxOpen := true
      ioLock := none
      applyLock := none
      applyWatermark := restored.baseIndex
      sm := sm'
      drains := [] } := by
  unfold Driver.new at h
  cases hcfg : cfg.validate with
  | error message =>
    rw [hcfg] at h
    cases h
  | ok _ =>
    rw [hcfg] at h
    cases hsnap : restored.snapshot with
    | none =>
      rw [hsnap] at h
      cases h
      exact ⟨sm, Or.inl ⟨hsnap, rfl⟩, rfl⟩
    | some data =>
      rw [hsnap] at h
      cases hdecode : S.serde.decode data with
      | error err =>
        simp only [hdecode] at h
        cases h
      | ok snapshot =>
        simp only [hdecode] at h
        cases h
        exact ⟨_, Or.inr ⟨data, snapshot, hsnap, hdecode, rfl⟩, rfl⟩

/-- What a member starts from: a state its store would accept. -/
def Driver.Starts (S : Setup) (d : Driver) : Prop :=
  ∃ id peers cfg seed store restored sm, validatePersisted restored = .ok () ∧
    (store = none ∨ store = some restored) ∧
    Driver.new S id peers cfg seed store restored sm = .ok d

theorem driverInv_of_starts (h : d.Starts S) : DriverInv d := by
  obtain ⟨id, peers, cfg, seed, store, restored, sm, hvalid, _, hnew⟩ := h
  obtain ⟨sm', _, rfl⟩ := new_spec hnew
  exact {
    wellFormed := Raft.wellFormed_new (validatePersisted_ok_iff.mp hvalid).1
    out := rfl
    calm := rfl
    ready_le := fun rd hrd => by cases hrd
    order := .nil
    watermark_le := Nat.le_refl _
    io := fun k dr hk => by cases hk
    apply := fun k dr hk => by cases hk
    busy := fun k dr hk => by cases hk
    pending := fun k dr hk => by cases hk
    ahead := fun k dr hk => by cases hk }

end FiduciaBrain.RaftDriver
