import FiduciaBrain.RaftDriver.Snapshot
import FiduciaBrain.Infra.Replay
import FiduciaBrain.Infra.Transition

/-!
# The generation of the placement map

`GET /v1/placement` at the members of a running group. Every process counts the assignments it has
applied and the snapshots it has restored, from zero on, and a leading member serves that count as
the version of its map.

A request reads the version and then the map, and `Placement::assign` writes the map and then the
version, behind the lock, so they interleave; `Placement::restore_from` keeps the lock over both.
`generation_identifies_map` says when the version can be trusted; the runs behind it show what
happens otherwise.
-/

namespace FiduciaBrain.RaftDriver

open Infra

/-! ## What the log says -/

/-- The effect of a log entry on the placement map. -/
def placeEntry (m : Assignments) : Option Command → Assignments
  | some (.assignShard a) => m.insert a
  | _ => m

def isAssign : Option Command → Bool
  | some (.assignShard _) => true
  | _ => false

theorem placeEntry_of_not_assign (m : Assignments) {c : Option Command} (h : isAssign c = false) :
    placeEntry m c = m := by
  rcases c with _ | _ | _ | _
  all_goals first | rfl | cases h

/-- The map behind the first `n` entries. -/
def placedAt (log : List (Option Command)) (n : Nat) : Assignments :=
  replay placeEntry .empty log n

/-- The assignments among the first `n` entries. -/
def assigned (log : List (Option Command)) (n : Nat) : Nat := counted isAssign log n

/-! ## Members -/

/-- What a process is started with, and how it reads snapshots. -/
structure Boot where
  serde : SnapshotSerde
  shardCount : Nat
  plan : ScalePlan

/-- A process of a member. `applied` is its watermark; `inserting` says that the entry behind it has
been written to the map and not been counted yet. -/
structure Replica where
  sm : StateMachine
  applied : Nat
  inserting : Bool
  leading : Bool

/-- A request for the map that a leading member took. `applied` records the watermark it found. -/
structure Read where
  member : NodeId
  generation : Nat
  applied : Nat
  shards : Option (List ShardAssignment)

/-- The committed log, the members, and the requests in the order in which they were taken. -/
structure Served where
  log : List (Option Command)
  replica : NodeId → Replica
  reads : List Read

def Boot.fresh (B : Boot) : Replica where
  sm := ⟨.new, .new B.shardCount, B.plan⟩
  applied := 0
  inserting := false
  leading := false

namespace Replica

/-- Apply the next committed entry, of an assignment the first half. -/
def applyNext (r : Replica) (log : List (Option Command)) : Option Replica :=
  if r.inserting then none
  else log[r.applied]?.map fun
    | some (.assignShard a) =>
      { r with
        sm := { r.sm with placement := r.sm.placement.insert a }
        inserting := true }
    | some c => { r with sm := applyCommand r.sm c, applied := r.applied + 1 }
    | none => { r with applied := r.applied + 1 }

/-- The second half of an assignment. -/
def countNext (r : Replica) : Option Replica :=
  if r.inserting then
    some { r with
      sm := { r.sm with placement := r.sm.placement.bump }
      applied := r.applied + 1
      inserting := false }
  else none

/-- Restore a leader's snapshot of the first `index` entries. A member that cannot read it fails
closed and serves no more. -/
def install (B : Boot) (r : Replica) (log : List (Option Command)) (index : Nat) (data : Bytes) :
    Option Replica :=
  if r.inserting ∨ index ≤ r.applied ∨ log.length < index then none
  else
    match restoreStateMachine B.serde data r.sm with
    | .ok sm => some { r with sm := sm, applied := index }
    | .error _ => none

end Replica

/-- Start a process, over the snapshot in its store if there is one. -/
def Boot.start (B : Boot) (log : List (Option Command)) : Option (Nat × Bytes) → Option Replica
  | none => some B.fresh
  | some (index, data) =>
    if log.length < index then none
    else
      match restoreStateMachine B.serde data B.fresh.sm with
      | .ok sm => some { B.fresh with sm := sm, applied := index }
      | .error _ => none

/-! ## Actions -/

inductive Event
  | commit (entries : List (Option Command))
  | apply (n : NodeId)
  | count (n : NodeId)
  | install (n : NodeId) (index : Nat) (data : Bytes)
  | restart (n : NodeId) (snapshot : Option (Nat × Bytes))
  | lead (n : NodeId) (leading : Bool)
  /-- heartbeats, failure detection and policies -/
  | soft (n : NodeId) (membership : Membership)
      (policies : Std.ExtTreeMap ShardId PlacementPolicy)
  /-- a request is taken: it reads the generation -/
  | request (n : NodeId)
  /-- a request is answered: it reads the map -/
  | answer (k : Nat)

namespace Served

def put (s : Served) (n : NodeId) (r : Replica) : Served :=
  { s with replica := Function.update s.replica n r }

/-- The state after an event, if it can happen. -/
def act (B : Boot) (s : Served) : Event → Option Served
  | .commit entries => some { s with log := s.log ++ entries }
  | .apply n => ((s.replica n).applyNext s.log).map (s.put n)
  | .count n => (s.replica n).countNext.map (s.put n)
  | .install n index data => ((s.replica n).install B s.log index data).map (s.put n)
  | .restart n snapshot =>
    -- the requests that the old process has not answered are gone
    (B.start s.log snapshot).map fun r =>
      { s.put n r with
        reads := s.reads.filter fun read => decide (read.member ≠ n) || read.shards.isSome }
  | .lead n leading => some (s.put n { s.replica n with leading := leading })
  | .soft n membership policies =>
    let r := s.replica n
    some (s.put n { r with
      sm := { r.sm with
        membership := membership
        placement := { r.sm.placement with policies := policies } } })
  | .request n =>
    let r := s.replica n
    if r.leading then
      some { s with reads := s.reads ++ [⟨n, r.sm.placement.generation, r.applied, none⟩] }
    else none
  | .answer k =>
    match s.reads[k]? with
    | some ⟨n, generation, applied, none⟩ =>
      let read : Read := ⟨n, generation, applied, some (s.replica n).sm.placement.snapshot⟩
      some { s with reads := s.reads.set k read }
    | _ => none

end Served

/-- A group whose members all start empty, under the events that `Allowed` lets happen. -/
def servedSystem (B : Boot) (Allowed : Served → Event → Prop) : TransitionSystem Served where
  init s := s = ⟨[], fun _ => B.fresh, []⟩
  step s t := ∃ e, Allowed s e ∧ s.act B e = some t

/-! ## When the generation can be trusted -/

/-- The snapshot holds the map behind the first `index` entries. -/
def Exact (B : Boot) (log : List (Option Command)) (index : Nat) (data : Bytes) : Prop :=
  ∀ snapshot, B.serde.decode data = .ok snapshot →
    Assignments.ofList snapshot.shards = placedAt log index

/-- What keeps the count honest: a restore jumps over exactly one assignment, a leading member takes
a request only once it has applied what an earlier one has seen, and nothing is applied while a
request is answered. -/
def Honest (B : Boot) (s : Served) : Event → Prop
  | .install n index data => Exact B s.log index data ∧
      assigned s.log index = (s.replica n).sm.placement.generation + 1
  | .restart _ (some (index, data)) => Exact B s.log index data ∧ assigned s.log index = 1
  | .request n => ∀ read ∈ s.reads, read.applied ≤ (s.replica n).applied
  | .answer k => ∀ read, s.reads[k]? = some read →
      (s.replica read.member).applied = read.applied ∧ (s.replica read.member).inserting = false
  | _ => True

/-! ## The invariant -/

/-- A member's count and map are those of a stretch of the log; between the halves of an assignment
the map is one ahead. -/
structure Replica.Counts (r : Replica) (log : List (Option Command)) : Prop where
  applied_le : r.applied ≤ log.length
  generation : r.sm.placement.generation = assigned log r.applied
  inserting : r.inserting = true → ∃ a, log[r.applied]? = some (some (.assignShard a))
  assignments : r.sm.placement.assignments
    = placedAt log (if r.inserting then r.applied + 1 else r.applied)

/-- What a request has read so far is what the log had at its watermark. -/
structure Read.Counts (read : Read) (log : List (Option Command)) : Prop where
  applied_le : read.applied ≤ log.length
  generation : read.generation = assigned log read.applied
  shards : ∀ shards, read.shards = some shards → shards = (placedAt log read.applied).snapshot

structure Served.Counts (s : Served) : Prop where
  replica : ∀ n, (s.replica n).Counts s.log
  read : ∀ read ∈ s.reads, read.Counts s.log
  sorted : (s.reads.map Read.applied).Pairwise (· ≤ ·)

variable {B : Boot} {log log' : List (Option Command)}

theorem Replica.Counts.extend {r : Replica} (h : r.Counts log) (hlog : log <+: log') :
    r.Counts log' := by
  have hle := h.applied_le
  obtain ⟨more, rfl⟩ := hlog
  have hnext : r.inserting = true → r.applied < log.length := fun hi => by
    obtain ⟨a, ha⟩ := h.inserting hi
    exact (List.getElem?_eq_some_iff.mp ha).1
  refine ⟨hle.trans (by simp), ?_, fun hi => ?_, ?_⟩
  · rw [h.generation]
    exact (counted_extend (List.prefix_append _ _) hle).symm
  · obtain ⟨a, ha⟩ := h.inserting hi
    exact ⟨a, by rw [List.getElem?_append_left (hnext hi), ha]⟩
  · rw [h.assignments]
    refine (replay_extend (List.prefix_append _ _) ?_).symm
    split
    · next hi => exact hnext hi
    · exact hle

theorem Read.Counts.extend {read : Read} (h : read.Counts log) (hlog : log <+: log') :
    read.Counts log' where
  applied_le := h.applied_le.trans hlog.length_le
  generation := h.generation.trans (counted_extend hlog h.applied_le).symm
  shards shards hs := by
    rw [h.shards shards hs]
    exact congrArg _ (replay_extend hlog h.applied_le).symm

theorem counts_fresh (B : Boot) (log : List (Option Command)) : B.fresh.Counts log where
  applied_le := Nat.zero_le _
  generation := rfl
  inserting := nofun
  assignments := rfl

/-! ## One member -/

theorem placement_applyCommand (sm : StateMachine) {c : Command} (h : isAssign (some c) = false) :
    (applyCommand sm c).placement = sm.placement := by
  cases c with
  | assignShard a => cases h
  | setScalePlan plan => rfl
  | forgetNode node =>
    simp only [applyCommand]
    split <;> rfl

/-- An entry that assigns nothing moves the watermark only. -/
theorem Replica.Counts.skip {r : Replica} (h : r.Counts log) (hi : r.inserting = false)
    {c : Option Command} (hc : log[r.applied]? = some c) (hidle : isAssign c = false)
    {sm : StateMachine} (hsm : sm.placement = r.sm.placement) :
    Counts { r with sm := sm, applied := r.applied + 1 } log := by
  have hplaced : placedAt log (r.applied + 1) = placedAt log r.applied := by
    rw [placedAt, replay_succ hc, placeEntry_of_not_assign _ hidle]
    rfl
  refine ⟨(List.getElem?_eq_some_iff.mp hc).1, ?_, fun h => absurd h (by simp [hi]), ?_⟩
  · show sm.placement.generation = _
    rw [hsm, h.generation, assigned, assigned, counted_succ hc, hidle]
    rfl
  · show sm.placement.assignments = _
    rw [hsm, h.assignments]
    simp only [hi, Bool.false_eq_true, if_false]
    exact hplaced.symm

theorem Replica.Counts.applyNext {r r' : Replica} (h : r.Counts log)
    (hr : r.applyNext log = some r') : r'.Counts log := by
  unfold Replica.applyNext at hr
  split at hr
  · cases hr
  next hnot =>
  have hi : r.inserting = false := by simpa using hnot
  obtain ⟨entry, hentry, heq⟩ := Option.map_eq_some_iff.mp hr
  rcases entry with _ | a | plan | node
  · subst heq
    exact h.skip hi hentry rfl rfl
  · -- the map is one entry ahead of the count
    have hmap : r.sm.placement.assignments.insert a = placedAt log (r.applied + 1) := by
      rw [h.assignments, if_neg (by simp [hi]), placedAt, placedAt, replay_succ hentry]
      rfl
    subst heq
    exact ⟨h.applied_le, h.generation, fun _ => ⟨a, hentry⟩, hmap⟩
  · subst heq
    exact h.skip hi hentry rfl (placement_applyCommand _ rfl)
  · subst heq
    exact h.skip hi hentry rfl (placement_applyCommand _ rfl)

theorem Replica.Counts.countNext {r r' : Replica} (h : r.Counts log)
    (hr : r.countNext = some r') : r'.Counts log := by
  unfold Replica.countNext at hr
  split at hr
  · next hi =>
    cases hr
    obtain ⟨a, ha⟩ := h.inserting hi
    refine ⟨(List.getElem?_eq_some_iff.mp ha).1, ?_, nofun, ?_⟩
    · show r.sm.placement.generation + 1 = _
      rw [h.generation, assigned, assigned, counted_succ ha]
      rfl
    · show r.sm.placement.assignments = _
      rw [h.assignments, if_pos hi, if_neg nofun]
  · cases hr

/-- **The halves of an entry make up `apply_command`.** -/
theorem applyNext_whole {r : Replica} (hi : r.inserting = false) {c : Command}
    (hc : log[r.applied]? = some (some c)) :
    ((r.applyNext log).bind fun r' => if r'.inserting then r'.countNext else some r')
      = some { r with sm := applyCommand r.sm c, applied := r.applied + 1 } := by
  rw [Replica.applyNext, if_neg (by simp [hi]), hc]
  cases c with
  | assignShard a =>
    have hassign : applyCommand r.sm (.assignShard a)
        = { r.sm with placement := (r.sm.placement.insert a).bump } :=
      congrArg (fun p => { r.sm with placement := p }) (r.sm.placement.assign_eq a)
    simp [Replica.countNext, hassign, hi]
  | setScalePlan plan => simp [hi]
  | forgetNode node => simp [hi]

/-- A restore that jumps over exactly one assignment. -/
theorem counts_of_restore {r : Replica} {sm : StateMachine} {index : Nat} {data : Bytes}
    (hi : r.inserting = false) (hlen : index ≤ log.length) (hexact : Exact B log index data)
    (hcount : assigned log index = r.sm.placement.generation + 1)
    (hsm : restoreStateMachine B.serde data r.sm = .ok sm) :
    Replica.Counts { r with sm := sm, applied := index } log := by
  cases hdecode : B.serde.decode data with
  | error e =>
    rw [restoreStateMachine, hdecode] at hsm
    cases hsm
  | ok snapshot =>
    rw [restoreStateMachine, hdecode] at hsm
    cases hsm
    refine ⟨hlen, hcount.symm, fun h => absurd h (by simp [hi]), ?_⟩
    show Assignments.ofList snapshot.shards = _
    rw [hexact snapshot hdecode, if_neg (by simp [hi])]

theorem Replica.Counts.install {r r' : Replica} {index : Nat} {data : Bytes}
    (hexact : Exact B log index data)
    (hcount : assigned log index = r.sm.placement.generation + 1)
    (hr : r.install B log index data = some r') : r'.Counts log := by
  unfold Replica.install at hr
  split at hr
  · cases hr
  next hnot =>
  simp only [not_or, Bool.not_eq_true, Nat.not_lt] at hnot
  split at hr
  · next sm hsm =>
    cases hr
    exact counts_of_restore hnot.1 hnot.2.2 hexact hcount hsm
  · cases hr

theorem counts_start {snapshot : Option (Nat × Bytes)} {r : Replica}
    (hhonest : ∀ index data, snapshot = some (index, data) →
      Exact B log index data ∧ assigned log index = 1)
    (hr : B.start log snapshot = some r) : r.Counts log := by
  rcases snapshot with _ | ⟨index, data⟩
  · cases hr
    exact counts_fresh B log
  unfold Boot.start at hr
  obtain ⟨hexact, hcount⟩ := hhonest index data rfl
  simp only at hr
  split at hr
  · cases hr
  next hlen =>
  split at hr
  · next sm hsm =>
    cases hr
    exact counts_of_restore rfl (Nat.not_lt.mp hlen) hexact hcount hsm
  · cases hr

/-! ## The group -/

theorem map_applied_set {reads : List Read} {k : Nat} {read read' : Read}
    (hk : reads[k]? = some read) (h : read'.applied = read.applied) :
    (reads.set k read').map Read.applied = reads.map Read.applied := by
  obtain ⟨hlt, rfl⟩ := List.getElem?_eq_some_iff.mp hk
  refine List.ext_getElem (by simp) fun i hi hi' => ?_
  rw [List.getElem_map, List.getElem_map, List.getElem_set]
  split
  · next heq =>
    subst heq
    exact h
  · rfl

namespace Served.Counts

variable {s t : Served}

theorem put (h : s.Counts) {n : NodeId} {r : Replica} (hr : r.Counts s.log) :
    (s.put n r).Counts where
  replica m := by
    show (Function.update s.replica n r m).Counts s.log
    by_cases hm : m = n
    · subst hm
      rwa [Function.update_self]
    · rw [Function.update_of_ne hm]
      exact h.replica m
  read := h.read
  sorted := h.sorted

/-- **A step keeps the count honest.** -/
theorem step (h : s.Counts) {e : Event} (hhonest : Honest B s e) (hact : s.act B e = some t) :
    t.Counts := by
  cases e with
  | commit entries =>
    cases hact
    have hlog := List.prefix_append s.log entries
    exact ⟨fun n => (h.replica n).extend hlog, fun read hr => (h.read read hr).extend hlog,
      h.sorted⟩
  | apply n =>
    obtain ⟨r, hr, rfl⟩ := Option.map_eq_some_iff.mp hact
    exact h.put ((h.replica n).applyNext hr)
  | count n =>
    obtain ⟨r, hr, rfl⟩ := Option.map_eq_some_iff.mp hact
    exact h.put ((h.replica n).countNext hr)
  | install n index data =>
    obtain ⟨r, hr, rfl⟩ := Option.map_eq_some_iff.mp hact
    exact h.put (.install hhonest.1 hhonest.2 hr)
  | restart n snapshot =>
    obtain ⟨r, hr, rfl⟩ := Option.map_eq_some_iff.mp hact
    have hput := h.put (n := n) (counts_start (by rintro index data rfl; exact hhonest) hr)
    exact ⟨hput.replica, fun read hread => h.read read (List.mem_filter.mp hread).1,
      h.sorted.sublist (List.filter_sublist.map _)⟩
  | lead n leading =>
    cases hact
    exact h.put { h.replica n with }
  | soft n membership policies =>
    cases hact
    exact h.put { h.replica n with }
  | request n =>
    simp only [act, Option.ite_none_right_eq_some, Option.some.injEq] at hact
    obtain ⟨_, rfl⟩ := hact
    have hr := h.replica n
    refine ⟨h.replica, fun read hread => ?_, ?_⟩
    · rcases List.mem_append.mp hread with hread | hread
      · exact h.read read hread
      · rw [List.mem_singleton.mp hread]
        exact ⟨hr.applied_le, hr.generation, nofun⟩
    · rw [List.map_append, List.pairwise_append]
      refine ⟨h.sorted, List.pairwise_singleton _ _, fun i hi j hj => ?_⟩
      obtain ⟨read, hread, rfl⟩ := List.mem_map.mp hi
      rw [List.mem_singleton.mp hj]
      exact hhonest read hread
  | answer k =>
    simp only [act] at hact
    split at hact
    · next n generation applied hk =>
      cases hact
      obtain ⟨hsame, hi⟩ := hhonest _ hk
      have hold := h.read _ (List.mem_of_getElem? hk)
      refine ⟨h.replica, fun read hread => ?_, ?_⟩
      · rcases List.mem_or_eq_of_mem_set hread with hread | rfl
        · exact h.read read hread
        · refine ⟨hold.applied_le, hold.generation, ?_⟩
          rintro shards ⟨⟩
          -- nothing was applied since the generation was read
          have hmap := (h.replica n).assignments
          simp only at hsame hi
          rw [hi, hsame] at hmap
          exact congrArg Assignments.snapshot hmap
      · rw [map_applied_set hk]
        · exact h.sorted
        · rfl
    · cases hact

end Served.Counts

theorem counts_of_reachable {s : Served} (h : (servedSystem B (Honest B)).Reachable s) :
    s.Counts := by
  refine h.invariant (P := Served.Counts) ?_ fun s t _ hs hstep => ?_
  · rintro s rfl
    exact ⟨fun _ => counts_fresh B [], nofun, List.Pairwise.nil⟩
  · obtain ⟨e, hhonest, hact⟩ := hstep
    exact hs.step hhonest hact

/-! ## Runs -/

/-- The state after a run of events, if they can happen. -/
def Served.acts (B : Boot) (s : Served) (events : List Event) : Option Served :=
  events.foldlM (Served.act B) s

theorem reachable_acts {Allowed : Served → Event → Prop} (hall : ∀ s e, Allowed s e) {s t : Served}
    (hs : (servedSystem B Allowed).Reachable s) {events : List Event}
    (h : s.acts B events = some t) : (servedSystem B Allowed).Reachable t := by
  induction events generalizing s with
  | nil =>
    cases Option.some.inj h
    exact hs
  | cons e rest ih =>
    obtain ⟨u, hu, hrest⟩ := Option.bind_eq_some_iff.mp h
    exact ih (hs.step ⟨e, hall s e, hu⟩) hrest

/-- What the requests of a run were answered. -/
def Served.reported (s : Served) : List (Nat × Option (List ShardAssignment)) :=
  s.reads.map fun read => (read.generation, read.shards)

def jsonBoot : Boot := ⟨jsonSnapshotSerde, 4, ⟨3, 3⟩⟩

/-- Shard 0 on one node. -/
def onNode (node : NodeId) : ShardAssignment := ⟨0, [node], none, none, none⟩

def startServed : Served := ⟨[], fun _ => jsonBoot.fresh, []⟩

/-! ## What the generation identifies -/

theorem placedAt_of_assigned_eq {i j : Nat} (h : assigned log i = assigned log j) :
    placedAt log i = placedAt log j := by
  have hidle : ∀ (m : Assignments) (c : Option Command), isAssign c = false → placeEntry m c = m :=
    fun m _ hc => placeEntry_of_not_assign m hc
  rcases Nat.le_total i j with hij | hij
  · exact replay_eq_of_counted_eq hidle hij h
  · exact (replay_eq_of_counted_eq hidle hij h.symm).symm

/-- **The generation identifies the map**, in every run that keeps the count honest: answers of the
same generation carry the same map, whoever gave them, and a later request never reads a smaller
one. -/
theorem generation_identifies_map {s : Served}
    (h : (servedSystem B (Honest B)).Reachable s) :
    (∀ r ∈ s.reads, ∀ r' ∈ s.reads, ∀ shards shards', r.shards = some shards →
      r'.shards = some shards' → r.generation = r'.generation → shards = shards') ∧
    ∀ i j (hj : j < s.reads.length) (hij : i < j), s.reads[i].generation ≤ s.reads[j].generation := by
  have hc := counts_of_reachable h
  constructor
  · intro r hr r' hr' shards shards' hs hs' hgen
    have hcr := hc.read r hr
    have hcr' := hc.read r' hr'
    rw [hcr.generation, hcr'.generation] at hgen
    rw [hcr.shards shards hs, hcr'.shards shards' hs', placedAt_of_assigned_eq hgen]
  · intro i j hj hij
    have hle : s.reads[i].applied ≤ s.reads[j].applied := by
      have hsorted := List.pairwise_iff_getElem.mp hc.sorted i j (by simpa using hij.trans hj)
        (by simpa using hj) hij
      simpa using hsorted
    rw [(hc.read _ (List.getElem_mem (hij.trans hj))).generation,
      (hc.read _ (List.getElem_mem hj)).generation]
    exact counted_mono hle

/-- One member that applies an assignment, leads, and answers twice. -/
theorem generation_identifies_map_twice :
    ∃ s, (servedSystem jsonBoot (Honest jsonBoot)).Reachable s ∧ s.reads.length = 2 ∧
      ∀ r ∈ s.reads, ∀ r' ∈ s.reads, ∀ shards shards', r.shards = some shards →
        r'.shards = some shards' → r.generation = r'.generation → shards = shards' := by
  have h0 : (servedSystem jsonBoot (Honest jsonBoot)).Reachable startServed := .of_init rfl
  have h1 := h0.step ⟨.commit [some (.assignShard (onNode "n1"))], trivial, rfl⟩
  have h2 := h1.step ⟨.apply "a", trivial, rfl⟩
  have h3 := h2.step ⟨.count "a", trivial, rfl⟩
  have h4 := h3.step ⟨.lead "a" true, trivial, rfl⟩
  have h5 := h4.step ⟨.request "a", nofun, rfl⟩
  have h6 := h5.step ⟨.answer 0, by rintro _ ⟨⟩; exact ⟨rfl, rfl⟩, rfl⟩
  have h7 := h6.step ⟨.request "a", by rintro _ (_ | ⟨_, ⟨⟩⟩); exact Nat.le_refl 1, rfl⟩
  have h8 := h7.step ⟨.answer 1, by rintro _ ⟨⟩; exact ⟨rfl, rfl⟩, rfl⟩
  exact ⟨_, h8, rfl, (generation_identifies_map h8).1⟩

/-- Two assignments, 256 plans in between; `a` applies all of it and serves both maps, and `b`
takes over from a snapshot. -/
def takeover : List Event :=
  [.commit (some (.assignShard (onNode "n1")) :: List.replicate 256 (some (.setScalePlan ⟨3, 3⟩))),
      .apply "a", .count "a", .lead "a" true, .request "a", .answer 0]
    ++ List.replicate 256 (.apply "a")
    ++ [.commit [some (.assignShard (onNode "n2"))], .apply "a", .count "a", .request "a", .answer 1,
      .install "b" 258 (stateSnapshotFormat.print ⟨[onNode "n2"], ⟨3, 3⟩⟩),
      .lead "a" false, .lead "b" true, .request "b", .answer 2]

/-- A request that an assignment overlaps, and one behind it. -/
def overlap : List Event :=
  [.lead "a" true, .request "a", .answer 0, .commit [some (.assignShard (onNode "n1"))],
    .request "a", .apply "a", .answer 1]

/-- Two assignments; `a` applies and serves both, `b` leads behind the first. -/
def behind : List Event :=
  [.commit [some (.assignShard (onNode "n1")), some (.assignShard (onNode "n2"))],
    .apply "a", .count "a", .apply "a", .count "a", .lead "a" true, .request "a", .answer 0,
    .apply "b", .count "b", .lead "a" false, .lead "b" true, .request "b", .answer 1]

/-- Three runs that confuse a poller: a snapshot resets the count, an assignment lands between the
two reads of a request, a new leader is behind the old one. -/
theorem generation_not_identifying :
    ∃ s t u : Served,
      (servedSystem jsonBoot fun _ _ => True).Reachable s ∧
      (servedSystem jsonBoot fun _ _ => True).Reachable t ∧
      (servedSystem jsonBoot fun _ _ => True).Reachable u ∧
      s.reported = [(1, some [onNode "n1"]), (2, some [onNode "n2"]), (1, some [onNode "n2"])] ∧
      t.reported = [(0, some []), (0, some [onNode "n1"])] ∧
      u.reported = [(2, some [onNode "n2"]), (1, some [onNode "n1"])] := by
  have hrun : ∀ events reported,
      (startServed.acts jsonBoot events).map Served.reported = some reported →
      ∃ s, (servedSystem jsonBoot fun _ _ => True).Reachable s ∧ s.reported = reported := by
    intro events reported h
    obtain ⟨s, hs, hreported⟩ := Option.map_eq_some_iff.mp h
    exact ⟨s, reachable_acts (fun _ _ => trivial) (.of_init rfl) hs, hreported⟩
  obtain ⟨s, hs, hs'⟩ := hrun takeover
    [(1, some [onNode "n1"]), (2, some [onNode "n2"]), (1, some [onNode "n2"])] (by decide +kernel)
  obtain ⟨t, ht, ht'⟩ := hrun overlap [(0, some []), (0, some [onNode "n1"])] (by decide +kernel)
  obtain ⟨u, hu, hu'⟩ := hrun behind [(2, some [onNode "n2"]), (1, some [onNode "n1"])]
    (by decide +kernel)
  exact ⟨s, t, u, hs, ht, hu, hs', ht', hu'⟩

end FiduciaBrain.RaftDriver
