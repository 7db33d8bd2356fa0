import FiduciaBrain.SchedulerReplay.Replay

/-!
# Replaying traces

`replay_trace` and `replay_paths` of `formal/scheduler_replay_common.rs`, over the traces that the
model has: what a replay reports, and which corpora pass.
-/

namespace FiduciaBrain.SchedulerReplay

open Infra

/-- An action as `mbt::actionTaken` names it. -/
def Action.name : Action → String
  | .becomeFollower => "become_follower"
  | .becomeLeader => "become_leader"
  | .loseAFromSoftMembership => "lose_a_from_soft_membership"
  | .heartbeatA => "heartbeat_a"
  | .addD => "add_d"
  | .markADead => "mark_a_dead"
  | .beginDrainA => "begin_drain_a"
  | .evacuateA => "evacuate_a"
  | .prepareColdStart => "prepare_cold_start"
  | .restoreSnapshotBcd => "restore_snapshot_bcd"
  | .reconcileFollowerHold => "reconcile_follower_hold"
  | .reconcileIncompleteHold => "reconcile_incomplete_hold"
  | .reconcileDegradedHold => "reconcile_degraded_hold"
  | .attemptForgetARejected => "attempt_forget_a_rejected"
  | .reconcileColdAdopt => "reconcile_cold_adopt"
  | .reconcileReplaceDeadA => "reconcile_replace_dead_a"
  | .reconcileReplaceAndForgetDrainedA => "reconcile_replace_and_forget_drained_a"
  | .reconcileForgetDrainedAAfterPlacement => "reconcile_forget_drained_a_after_placement"
  | .reconcileIdempotent => "reconcile_idempotent"
  | .idle => "idle"

/-- `REQUIRED_ACTIONS`. -/
def requiredActions : List String :=
  ["add_d", "attempt_forget_a_rejected", "become_follower", "become_leader", "begin_drain_a",
    "evacuate_a", "heartbeat_a", "lose_a_from_soft_membership", "mark_a_dead",
    "prepare_cold_start", "reconcile_cold_adopt", "reconcile_degraded_hold",
    "reconcile_follower_hold", "reconcile_forget_drained_a_after_placement",
    "reconcile_idempotent", "reconcile_incomplete_hold",
    "reconcile_replace_and_forget_drained_a", "reconcile_replace_dead_a", "restore_snapshot_bcd"]

/-- A decoded trace: the state it starts in, and each action with the state behind it. -/
structure Trace where
  path : String
  start : State
  steps : List (Action × State)

structure ReplayMismatch where
  trace : String
  step : Option Nat
  action : Option String
  message : String
  deriving DecidableEq, Repr

structure TraceSummary where
  states : Nat
  nonIdleTransitions : Nat
  actions : Finset String
  deriving DecidableEq

structure ReplaySummary where
  tracesTotal : Nat
  tracesPassed : Nat
  states : Nat
  nonIdleTransitions : Nat
  actions : Finset String
  mismatches : List ReplayMismatch

def ReplaySummary.success (r : ReplaySummary) : Bool :=
  r.tracesTotal > 0 ∧ r.tracesPassed = r.tracesTotal ∧ r.mismatches = []

def projectionMismatch (path : String) (index : Nat) (action : String) : ReplayMismatch where
  trace := path
  step := some index
  action := some action
  message := "production scheduler observable state diverged from Quint"

/-- The loop of `replay_trace`. -/
def replaySteps (path : String) (h : Harness) (index nonIdle : Nat) (actions : Finset String) :
    List (Action × State) → Except ReplayMismatch (Nat × Finset String)
  | [] => .ok (nonIdle, actions)
  | (action, state) :: rest =>
    let actions := insert action.name actions
    let nonIdle := if action ≠ .idle then nonIdle + 1 else nonIdle
    match h.apply action with
    | .error message =>
      .error { trace := path, step := some index, action := some action.name, message := message }
    | .ok h =>
      if h.projection ≠ expectedProjection state then
        .error (projectionMismatch path index action.name)
      else replaySteps path h (index + 1) nonIdle actions rest

def replayTrace (t : Trace) : Except ReplayMismatch TraceSummary :=
  let h := Harness.initial
  if h.projection ≠ expectedProjection t.start then .error (projectionMismatch t.path 0 "init")
  else (replaySteps t.path h 1 0 {"init"} t.steps).map fun (nonIdle, actions) =>
    { states := t.steps.length + 1, nonIdleTransitions := nonIdle, actions := actions }

def ReplaySummary.add (r : ReplaySummary) (t : Trace) : ReplaySummary :=
  match replayTrace t with
  | .ok summary =>
    { r with
      tracesPassed := r.tracesPassed + 1
      states := r.states + summary.states
      nonIdleTransitions := r.nonIdleTransitions + summary.nonIdleTransitions
      actions := r.actions ∪ summary.actions }
  | .error mismatch => { r with mismatches := r.mismatches ++ [mismatch] }

def ReplaySummary.missing (r : ReplaySummary) : List String :=
  requiredActions.filter (· ∉ r.actions)

/-- The loop of `replay_paths`. -/
def replayAll (traces : List Trace) : ReplaySummary :=
  traces.foldl ReplaySummary.add
    { tracesTotal := traces.length
      tracesPassed := 0
      states := 0
      nonIdleTransitions := 0
      actions := ∅
      mismatches := [] }

/-- The check of `replay_paths` that the corpus takes every required action. -/
def ReplaySummary.cover (r : ReplaySummary) (traces : List Trace) : ReplaySummary :=
  match r.missing, traces with
  | name :: missing, first :: _ =>
    { r with
      tracesPassed := if r.tracesPassed = r.tracesTotal then r.tracesPassed - 1 else r.tracesPassed
      mismatches := r.mismatches ++
        [{ trace := first.path
           step := none
           action := some name
           message := "trace corpus left production scheduler branches untested: "
             ++ ", ".intercalate (name :: missing) }] }
  | _, _ => r

def replayPaths (traces : List Trace) : ReplaySummary := (replayAll traces).cover traces

/-! ## Traces of the model -/

/-- The steps are ones that the model takes from `s`. -/
def Traced : State → List (Action × State) → Prop
  | _, [] => True
  | s, (a, s') :: rest => fire s a = some s' ∧ Traced s' rest

def decidableTraced : (s : State) → (steps : List (Action × State)) → Decidable (Traced s steps)
  | _, [] => .isTrue trivial
  | s, (a, s') :: rest =>
    have := decidableTraced s' rest
    inferInstanceAs (Decidable (fire s a = some s' ∧ Traced s' rest))

instance (s : State) (steps : List (Action × State)) : Decidable (Traced s steps) :=
  decidableTraced s steps

/-- A trace of the model. -/
def Trace.OfModel (t : Trace) : Prop := t.start = initial ∧ Traced t.start t.steps

instance (t : Trace) : Decidable t.OfModel := inferInstanceAs (Decidable (_ ∧ _))

/-- The first step from `s` that slips. -/
def firstSlipFrom (s : State) (index : Nat) : List (Action × State) → Option Nat
  | [] => none
  | (a, s') :: rest => if Slips s a then some index else firstSlipFrom s' (index + 1) rest

def Trace.firstSlip (t : Trace) : Option Nat := firstSlipFrom t.start 1 t.steps

/-- What a replay should find: a divergence at the first slip, and nothing else. -/
def Trace.verdict (t : Trace) : Except ReplayMismatch TraceSummary :=
  match t.firstSlip with
  | some index => .error (projectionMismatch t.path index "reconcile_incomplete_hold")
  | none => .ok
      { states := t.steps.length + 1
        nonIdleTransitions := t.steps.countP (·.1 ≠ .idle)
        actions := {"init"} ∪ (t.steps.map (·.1.name)).toFinset }

variable {s s' : State} {a : Action} {sh sh' : Shape}

theorem slips_iff (h : sh.Fits s) :
    Slips s a ↔ a = .reconcileIncompleteHold ∧ sh.fate = .evacuated := by
  rw [Slips, h.draining, h.hosted]
  refine and_congr_right fun _ => ⟨fun h => eq_evacuated h.1 h.2, fun hf => ?_⟩
  rw [hf]
  decide

theorem initial_harness (late : Bool) :
    Harness.initial = Shape.harness ⟨.leader, .healthy, false, .initial⟩ late := by
  have hempty : Keyed fun _ => none := nofun
  have hkeyedA := hempty.update_record 1 .healthy true true 0
  have hkeyedB := hkeyedA.update_record 2 .healthy true false 0
  have hA := heartbeat_of_unknown hempty (by decide : 1 ∈ nodes) rfl 0 true true
  have hB := heartbeat_of_unknown hkeyedA (by decide : 2 ∈ nodes) rfl 0 true false
  have hC := heartbeat_of_unknown hkeyedB (by decide : 3 ∈ nodes) rfl 0 true false
  have hmembership : ((((Membership.new.heartbeat nodeA 0 (report 1 true true)).2.heartbeat nodeB 0
      (report 2 true false)).2.heartbeat nodeC 0 (report 3 true false)).2)
        = membershipOf (Shape.table ⟨.leader, .healthy, false, .initial⟩ late) := by
    refine ((congrArg (fun m : Membership => ((m.heartbeat nodeB 0 (report 2 true false)).2.heartbeat
      nodeC 0 (report 3 true false)).2) hA).trans ((congrArg (fun m : Membership =>
        (m.heartbeat nodeC 0 (report 3 true false)).2) hB).trans hC)).trans ?_
    exact congrArg membershipOf (table_ext rfl rfl rfl rfl rfl fun _ => rfl)
  rw [Harness.initial, hmembership]
  rfl

/-- The brain forgets node 1 at a slip, and the model does not. -/
theorem projection_of_slip (hs : s.forgotten = ∅) (late : Bool) :
    (Shape.harness ⟨.leader, .forgotten, false, .snapshot⟩ late).projection
      ≠ expectedProjection s := by
  intro h
  have hforgotten : Shape.forgotten .forgotten = s.forgotten := congrArg (·.forgotten) h
  rw [hs] at hforgotten
  exact absurd hforgotten (by decide)

theorem replaySteps_of_traced {steps : List (Action × State)} (h : sh.Fits s)
    (ht : Traced s steps) (path : String) (late : Bool) (index nonIdle : Nat)
    (actions : Finset String) :
    replaySteps path (sh.harness late) index nonIdle actions steps
      = match firstSlipFrom s index steps with
        | some i => .error (projectionMismatch path i "reconcile_incomplete_hold")
        | none => .ok (nonIdle + steps.countP (·.1 ≠ .idle),
            actions ∪ (steps.map (·.1.name)).toFinset) := by
  induction steps generalizing s sh late index nonIdle actions with
  | nil => simp [replaySteps, firstSlipFrom]
  | cons step rest ih =>
    obtain ⟨a, s'⟩ := step
    obtain ⟨hfire, hrest⟩ := ht
    obtain ⟨sh', hnext, hfits⟩ := exists_next h hfire
    rw [replaySteps, firstSlipFrom]
    by_cases hslip : Slips s a
    · obtain ⟨rfl, hfate⟩ := (slips_iff h).mp hslip
      have hforgotten : s'.forgotten = ∅ := by
        rw [(fire_eq_some.mp hfire).2]
        exact h.forgotten.trans (by rw [hfate]; rfl)
      rw [if_pos hslip, apply_of_slip hnext hfate late]
      exact if_pos (projection_of_slip hforgotten late)
    · obtain ⟨late', happly⟩ := apply_of_next hnext late ((slips_iff h).not.mp hslip)
      rw [if_neg hslip, happly]
      refine (if_neg (not_not.mpr (projection_harness hfits))).trans ?_
      rw [ih hfits hrest]
      cases firstSlipFrom s' (index + 1) rest with
      | some i => rfl
      | none =>
        have hcount : (if a ≠ .idle then nonIdle + 1 else nonIdle) + rest.countP (·.1 ≠ .idle)
            = nonIdle + ((a, s') :: rest).countP (·.1 ≠ .idle) := by
          rw [List.countP_cons]
          by_cases ha : a = .idle <;> simp [ha, Nat.add_assoc, Nat.add_comm 1]
        have hactions : insert a.name actions ∪ (rest.map (·.1.name)).toFinset
            = actions ∪ (((a, s') :: rest).map (·.1.name)).toFinset := by
          rw [List.map_cons, List.toFinset_cons, Finset.insert_union, Finset.union_insert]
        exact congrArg Except.ok (Prod.ext hcount hactions)

/-- A replay of the model's trace finds what it should. -/
theorem replayTrace_of_model {t : Trace} (h : t.OfModel) : replayTrace t = t.verdict := by
  obtain ⟨hstart, ht⟩ := h
  have hfits : Shape.Fits ⟨.leader, .healthy, false, .initial⟩ t.start :=
    hstart ▸ Shape.fits_initial
  rw [replayTrace, initial_harness false]
  refine (if_neg (not_not.mpr (projection_harness hfits))).trans ?_
  rw [replaySteps_of_traced hfits ht, Trace.verdict, Trace.firstSlip]
  cases firstSlipFrom t.start 1 t.steps with
  | some i => rfl
  | none => simp [Except.map]

/-! ## Corpora -/

section Corpus

variable {traces : List Trace} {r : ReplaySummary}

theorem add_of_ok {t : Trace} {summary : TraceSummary} (h : replayTrace t = .ok summary) :
    r.add t =
      { r with
        tracesPassed := r.tracesPassed + 1
        states := r.states + summary.states
        nonIdleTransitions := r.nonIdleTransitions + summary.nonIdleTransitions
        actions := r.actions ∪ summary.actions } := by
  rw [ReplaySummary.add, h]

theorem add_of_error {t : Trace} {mismatch : ReplayMismatch} (h : replayTrace t = .error mismatch) :
    r.add t = { r with mismatches := r.mismatches ++ [mismatch] } := by
  rw [ReplaySummary.add, h]

theorem tracesTotal_foldl_add : (traces.foldl ReplaySummary.add r).tracesTotal = r.tracesTotal := by
  induction traces generalizing r with
  | nil => rfl
  | cons t rest ih =>
    rw [List.foldl_cons, ih]
    cases h : replayTrace t with
    | ok summary => rw [add_of_ok h]
    | error mismatch => rw [add_of_error h]

theorem prefix_mismatches_foldl_add :
    r.mismatches <+: (traces.foldl ReplaySummary.add r).mismatches := by
  induction traces generalizing r with
  | nil => exact List.prefix_rfl
  | cons t rest ih =>
    rw [List.foldl_cons]
    refine List.IsPrefix.trans ?_ ih
    cases h : replayTrace t with
    | ok summary => rw [add_of_ok h]
    | error mismatch =>
      rw [add_of_error h]
      exact List.prefix_append ..

/-- A corpus all of whose traces pass. -/
theorem foldl_add_of_ok (h : ∀ t ∈ traces, ∃ summary, replayTrace t = .ok summary) :
    (traces.foldl ReplaySummary.add r).tracesPassed = r.tracesPassed + traces.length ∧
      (traces.foldl ReplaySummary.add r).mismatches = r.mismatches ∧
      ∀ name, name ∈ (traces.foldl ReplaySummary.add r).actions ↔
        name ∈ r.actions ∨
          ∃ t ∈ traces, ∃ summary, replayTrace t = .ok summary ∧ name ∈ summary.actions := by
  induction traces generalizing r with
  | nil => simp
  | cons t rest ih =>
    obtain ⟨summary, hsummary⟩ := h t List.mem_cons_self
    obtain ⟨hpassed, hmismatches, hactions⟩ :=
      @ih (r.add t) fun u hu => h u (List.mem_cons_of_mem _ hu)
    rw [List.foldl_cons]
    refine ⟨?_, ?_, fun name => ?_⟩
    · have hadd : (r.add t).tracesPassed = r.tracesPassed + 1 := by rw [add_of_ok hsummary]
      rw [hpassed, hadd, List.length_cons]
      omega
    · rw [hmismatches, add_of_ok hsummary]
    · rw [hactions, add_of_ok hsummary, Finset.mem_union, List.exists_mem_cons_iff, hsummary]
      simp [or_assoc]

/-- A corpus with a trace that does not. -/
theorem foldl_add_of_error {t : Trace} {mismatch : ReplayMismatch} (ht : t ∈ traces)
    (h : replayTrace t = .error mismatch) :
    mismatch ∈ (traces.foldl ReplaySummary.add r).mismatches := by
  induction traces generalizing r with
  | nil => cases ht
  | cons u rest ih =>
    rw [List.foldl_cons]
    rcases List.mem_cons.mp ht with rfl | ht
    · refine prefix_mismatches_foldl_add.subset ?_
      rw [add_of_error h]
      exact List.mem_append_right _ List.mem_cons_self
    · exact ih ht

theorem missing_eq_nil : r.missing = [] ↔ ∀ name ∈ requiredActions, name ∈ r.actions := by
  simp [ReplaySummary.missing, List.filter_eq_nil_iff]

theorem success_iff :
    r.success = true ↔ 0 < r.tracesTotal ∧ r.tracesPassed = r.tracesTotal ∧ r.mismatches = [] := by
  rw [ReplaySummary.success, decide_eq_true_iff]

theorem success_cover (hne : traces ≠ []) :
    (r.cover traces).success = true ↔ r.success = true ∧ r.missing = [] := by
  obtain ⟨first, rest, rfl⟩ := List.exists_cons_of_ne_nil hne
  cases h : r.missing with
  | nil => simp [ReplaySummary.cover, h]
  | cons name missing => simp [ReplaySummary.cover, h, success_iff]

theorem success_replayAll :
    (replayAll traces).success = true ↔
      traces ≠ [] ∧ ∀ t ∈ traces, ∃ summary, replayTrace t = .ok summary := by
  have htotal : (replayAll traces).tracesTotal = traces.length := tracesTotal_foldl_add
  rw [success_iff, htotal, List.length_pos_iff]
  refine and_congr_right fun hne => ⟨fun h t ht => ?_, fun h => ?_⟩
  · cases hreplay : replayTrace t with
    | ok summary => exact ⟨summary, rfl⟩
    | error mismatch =>
      have hmem : mismatch ∈ (replayAll traces).mismatches := foldl_add_of_error ht hreplay
      rw [h.2] at hmem
      exact absurd hmem List.not_mem_nil
  · obtain ⟨hpassed, hmismatches, -⟩ := foldl_add_of_ok h
    exact ⟨hpassed.trans (Nat.zero_add _), hmismatches⟩

/-- A corpus passes if it has a trace, every trace passes, and every required action is taken. -/
theorem success_replayPaths :
    (replayPaths traces).success = true ↔
      traces ≠ [] ∧ (∀ t ∈ traces, ∃ summary, replayTrace t = .ok summary) ∧
        ∀ name ∈ requiredActions, ∃ t ∈ traces, ∃ summary,
          replayTrace t = .ok summary ∧ name ∈ summary.actions := by
  by_cases hne : traces = []
  · subst hne
    have hempty : (replayPaths []).success = false := rfl
    simp [hempty]
  · rw [replayPaths, success_cover hne, success_replayAll, and_assoc]
    refine and_congr_right fun _ => and_congr_right fun hok => ?_
    rw [missing_eq_nil]
    refine forall₂_congr fun name _ => ?_
    rw [replayAll, (foldl_add_of_ok hok).2.2]
    simp

theorem name_injective : Function.Injective Action.name := by
  intro a b h
  cases a <;> cases b <;> first | rfl | exact absurd h (by decide)

/-- The model requires every action of its own but `idle`. -/
theorem mem_requiredActions {name : String} :
    name ∈ requiredActions ↔ ∃ a : Action, a ≠ .idle ∧ a.name = name := by
  have hnames : requiredActions = [.addD, .attemptForgetARejected, .becomeFollower, .becomeLeader,
      .beginDrainA, .evacuateA, .heartbeatA, .loseAFromSoftMembership, .markADead,
      .prepareColdStart, .reconcileColdAdopt, .reconcileDegradedHold, .reconcileFollowerHold,
      .reconcileForgetDrainedAAfterPlacement, .reconcileIdempotent, .reconcileIncompleteHold,
      .reconcileReplaceAndForgetDrainedA, .reconcileReplaceDeadA, .restoreSnapshotBcd].map
        Action.name := rfl
  rw [hnames, List.mem_map]
  refine exists_congr fun a => and_congr_left fun _ => ?_
  cases a <;> decide

/-- The actions of the trace. -/
def Trace.taken (t : Trace) : List Action := t.steps.map (·.1)

theorem mem_actions_of_ok {t : Trace} (h : t.OfModel) {a : Action} (hslip : t.firstSlip = none) :
    (∃ summary, replayTrace t = .ok summary ∧ a.name ∈ summary.actions) ↔ a ∈ t.taken := by
  rw [replayTrace_of_model h, Trace.verdict, hslip]
  have hinit : a.name ≠ "init" := by cases a <;> decide
  simp [hinit, Trace.taken, name_injective.eq_iff]

/-- A trace of the model passes exactly if it never slips. -/
theorem replayTrace_eq_ok_iff {t : Trace} (h : t.OfModel) :
    (∃ summary, replayTrace t = .ok summary) ↔ t.firstSlip = none := by
  rw [replayTrace_of_model h, Trace.verdict]
  cases t.firstSlip <;> simp

/-- **A corpus of the model's traces passes exactly if none of them slips and they take every action
between them.** A trace fails at its first slip. -/
theorem corpus_passes_iff (h : ∀ t ∈ traces, t.OfModel) :
    (∀ t ∈ traces, replayTrace t = t.verdict) ∧
      ((replayPaths traces).success = true ↔
        traces ≠ [] ∧ (∀ t ∈ traces, t.firstSlip = none) ∧
          ∀ a : Action, a ≠ .idle → ∃ t ∈ traces, a ∈ t.taken) := by
  refine ⟨fun t ht => replayTrace_of_model (h t ht), ?_⟩
  rw [success_replayPaths]
  refine and_congr_right fun _ => ?_
  rw [forall₂_congr fun t ht => replayTrace_eq_ok_iff (h t ht)]
  refine and_congr_right fun hslip => ?_
  have hactions : ∀ a : Action, (∃ t ∈ traces, ∃ summary,
      replayTrace t = .ok summary ∧ a.name ∈ summary.actions) ↔ ∃ t ∈ traces, a ∈ t.taken :=
    fun a => exists_congr fun t => and_congr_right fun ht =>
      mem_actions_of_ok (h t ht) (hslip t ht)
  simp only [mem_requiredActions, forall_exists_index, and_imp]
  constructor
  · exact fun hall a ha => (hactions a).mp (hall a.name a ha rfl)
  · rintro hall _ a ha rfl
    exact (hactions a).mpr (hall a ha)

/-- The steps of a run, up to the first action that is not enabled. -/
def stepsFrom (s : State) : List Action → List (Action × State)
  | [] => []
  | a :: rest =>
    match fire s a with
    | some s' => (a, s') :: stepsFrom s' rest
    | none => []

/-- A run of the model as a trace. -/
def Trace.run (path : String) (actions : List Action) : Trace :=
  { path := path, start := initial, steps := stepsFrom initial actions }

theorem traced_stepsFrom (actions : List Action) : Traced s (stepsFrom s actions) := by
  induction actions generalizing s with
  | nil => trivial
  | cons a rest ih =>
    rw [stepsFrom]
    cases h : fire s a with
    | none => trivial
    | some s' => exact ⟨h, ih⟩

theorem Trace.run_ofModel (path : String) (actions : List Action) :
    (Trace.run path actions).OfModel :=
  ⟨rfl, traced_stepsFrom actions⟩

/-- A corpus that takes every action, and a run that slips in its fourth step. -/
def drills : List Trace :=
  [.run "soft" [.loseAFromSoftMembership, .reconcileIncompleteHold, .heartbeatA,
      .reconcileIdempotent, .becomeFollower, .reconcileFollowerHold, .becomeLeader],
    .run "cold" [.prepareColdStart, .reconcileColdAdopt],
    .run "dead" [.addD, .markADead, .reconcileReplaceDeadA],
    .run "drained" [.beginDrainA, .evacuateA, .reconcileDegradedHold, .attemptForgetARejected,
      .addD, .reconcileReplaceAndForgetDrainedA],
    .run "restored" [.restoreSnapshotBcd, .beginDrainA, .evacuateA, .addD,
      .reconcileForgetDrainedAAfterPlacement]]

def slipped : Trace :=
  .run "slipped" [.restoreSnapshotBcd, .beginDrainA, .evacuateA, .reconcileIncompleteHold]

theorem corpus_passes_drills :
    (replayPaths drills).success = true ∧ (replayPaths (slipped :: drills)).success = false ∧
      replayTrace slipped
        = .error (projectionMismatch "slipped" 4 "reconcile_incomplete_hold") := by
  have hdrills : ∀ t ∈ drills, t.OfModel := by
    simp [drills, Trace.run_ofModel]
  have hall : ∀ t ∈ slipped :: drills, t.OfModel :=
    List.forall_mem_cons.mpr ⟨Trace.run_ofModel _ _, hdrills⟩
  refine ⟨(corpus_passes_iff hdrills).2.mpr ⟨by simp [drills], by decide +kernel, ?_⟩, ?_, ?_⟩
  · intro a ha
    cases a <;> first | exact absurd rfl ha | decide +kernel
  · refine Bool.eq_false_iff.mpr fun hpass => ?_
    have hslip := ((corpus_passes_iff hall).2.mp hpass).2.1 slipped List.mem_cons_self
    exact absurd hslip (by decide +kernel)
  · rw [(corpus_passes_iff hall).1 slipped List.mem_cons_self]
    decide +kernel

end Corpus

end FiduciaBrain.SchedulerReplay
