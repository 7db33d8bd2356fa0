import FiduciaBrain.Composition.Model

/-!
# A node under any sequence of calls

What each method of `NodeReplica` leaves behind, whether it succeeds or fails, and what that keeps
true from `NodeReplica.new` on. `Effect` lists the outcomes of a call; every invariant is a case
analysis over it.

* `Fenced` — the invariant of one state
* `Accounted` — where the staged and the active placement come from in the calls made so far
-/

namespace FiduciaBrain.Composition

/-- A method of the node with its arguments. -/
inductive Call
  | observeTerm (term : Term)
  | stage (snapshot : PlacementSnapshot)
  | acknowledgeShard (generation : Generation) (shard : ShardId)
  | activate (generation : Generation)
  | installWriteFence (fence : WriteFence)
  | restart
  deriving DecidableEq

namespace NodeReplica

def call (r : NodeReplica) : Call → NodeReplica
  | .observeTerm term => orKeep r (r.observeTerm term)
  | .stage snapshot => (r.stage snapshot).1
  | .acknowledgeShard generation shard =>
    orKeep r ((r.acknowledgeShard generation shard).map Prod.snd)
  | .activate generation => orKeep r (r.activate generation)
  | .installWriteFence fence => orKeep r (r.installWriteFence fence)
  | .restart => r.restart

def run (r : NodeReplica) (calls : List Call) : NodeReplica := calls.foldl call r

variable {r r' : NodeReplica}

@[simp] theorem run_nil : r.run [] = r := rfl

theorem run_append (calls more : List Call) : r.run (calls ++ more) = (r.run calls).run more :=
  List.foldl_append

theorem run_snoc (calls : List Call) (c : Call) : r.run (calls ++ [c]) = (r.run calls).call c :=
  run_append calls [c]

theorem run_stage (calls mid : List Call) (c : Call) :
    r.run (calls ++ c :: mid) = ((r.run calls).call c).run mid := by
  rw [run_append]
  rfl

/-! ## The invariant of one state -/

/-- What holds of the staged placement and of the fence. -/
structure Fenced (r : NodeReplica) : Prop where
  term : ∀ staged, r.staged = some staged → staged.snapshot.term = r.observedTerm
  newer : ∀ staged, r.staged = some staged → ∀ active, r.active = some active →
    active.generation < staged.snapshot.generation
  assigned : ∀ staged, r.staged = some staged →
    staged.assignedShards = staged.snapshot.shardsFor r.nodeId
  acknowledged : ∀ staged, r.staged = some staged →
    staged.acknowledgedShards ⊆ staged.assignedShards
  fence : ∀ fence, r.writeFence = some fence →
    fence.term = r.observedTerm ∧ r.activeGeneration = some fence.generation

theorem fenced_new (nodeId : NodeId) : Fenced (new nodeId) where
  term := fun _ h => nomatch h
  newer := fun _ h => nomatch h
  assigned := fun _ h => nomatch h
  acknowledged := fun _ h => nomatch h
  fence := fun _ h => nomatch h

/-! ## What a call leaves behind -/

/-- A higher term: no authority, nothing staged. -/
def raised (r : NodeReplica) (term : Term) : NodeReplica :=
  { r with observedTerm := term, writeFence := none, staged := none }

/-- A snapshot staged, at its term. -/
def placed (r : NodeReplica) (snapshot : PlacementSnapshot) : NodeReplica :=
  { r with
    observedTerm := snapshot.term
    writeFence := none
    staged := some
      { snapshot := snapshot
        assignedShards := snapshot.shardsFor r.nodeId
        acknowledgedShards := ∅ } }

def acknowledged (r : NodeReplica) (staged : StagedPlacement) (shard : ShardId) : NodeReplica :=
  { r with staged := some { staged with
      acknowledgedShards := insert shard staged.acknowledgedShards } }

def activated (r : NodeReplica) (staged : StagedPlacement) : NodeReplica :=
  { r with
    active := some
      { generation := staged.snapshot.generation, assignedShards := staged.assignedShards }
    staged := none
    writeFence := none }

/-- The outcomes of a call. -/
inductive Effect (r : NodeReplica) : Call → NodeReplica → Prop
  /-- Refused, or a replay. -/
  | same {c : Call} : c ≠ .restart → Effect r c r
  | raised {c : Call} {term : Term} : c ≠ .restart → r.observedTerm < term →
      Effect r c (r.raised term)
  | placed {snapshot : PlacementSnapshot} : r.observedTerm ≤ snapshot.term →
      (∀ active, r.active = some active → active.generation < snapshot.generation) →
      (∀ staged, r.staged = some staged → r.observedTerm = snapshot.term →
        staged.snapshot.generation < snapshot.generation) →
      (r.stage snapshot).2 = .ok .staged → Effect r (.stage snapshot) (r.placed snapshot)
  | acknowledged {staged : StagedPlacement} {shard : ShardId} {outcome : AckOutcome} :
      r.staged = some staged → shard ∈ staged.assignedShards →
      r.acknowledgeShard staged.snapshot.generation shard =
        .ok (outcome, r.acknowledged staged shard) →
      Effect r (.acknowledgeShard staged.snapshot.generation shard) (r.acknowledged staged shard)
  | activated {staged : StagedPlacement} :
      r.staged = some staged → staged.assignedShards ⊆ staged.acknowledgedShards →
      r.activate staged.snapshot.generation = .ok (r.activated staged) →
      Effect r (.activate staged.snapshot.generation) (r.activated staged)
  | installed {fence : WriteFence} :
      fence.term = r.observedTerm → r.activeGeneration = some fence.generation →
      r.installWriteFence fence = .ok { r with writeFence := some fence } →
      Effect r (.installWriteFence fence) { r with writeFence := some fence }
  | restarted : Effect r .restart r.restart

theorem acknowledgeShard_ok {generation : Generation} {shard : ShardId}
    {out : AckOutcome × NodeReplica} (h : r.acknowledgeShard generation shard = .ok out) :
    ∃ staged outcome, r.staged = some staged ∧ generation = staged.snapshot.generation ∧
      shard ∈ staged.assignedShards ∧ out = (outcome, r.acknowledged staged shard) := by
  unfold acknowledgeShard at h
  split at h
  · cases h
  next staged hs =>
  split at h
  · cases h
  next hgen =>
  split at h
  · cases h
  · next hshard =>
    cases h
    exact ⟨staged, _, hs, not_not.mp hgen, not_not.mp hshard, rfl⟩

theorem activate_ready {generation : Generation} (h : r.activate generation = .ok r') :
    ∃ staged, r.staged = some staged ∧ generation = staged.snapshot.generation ∧
      staged.assignedShards ⊆ staged.acknowledgedShards ∧ r' = r.activated staged := by
  unfold activate at h
  split at h
  · cases h
  next staged hs =>
  split at h
  · cases h
  next hgen =>
  have hgen := not_not.mp hgen
  split at h
  · cases h
  split at h
  · cases h
  · next hall =>
    cases h
    subst hgen
    exact ⟨staged, hs, rfl, Finset.sdiff_eq_empty_iff_subset.mp (not_not.mp hall), rfl⟩

theorem installWriteFence_held {fence : WriteFence} (h : r.installWriteFence fence = .ok r') :
    fence.term = r.observedTerm ∧ r.activeGeneration = some fence.generation ∧
      r' = { r with writeFence := some fence } := by
  unfold installWriteFence at h
  split at h
  · cases h
  next hterm =>
  split at h
  · cases h
  next active ha =>
  split at h
  · cases h
  · next hgen =>
    cases h
    refine ⟨not_not.mp hterm, ?_, rfl⟩
    simp only [activeGeneration, ha, Option.map_some, not_not.mp hgen]

theorem installWriteFence_of_held {fence : WriteFence} (hterm : fence.term = r.observedTerm)
    (hgen : r.activeGeneration = some fence.generation) :
    r.installWriteFence fence = .ok { r with writeFence := some fence } := by
  obtain ⟨active, ha, heq⟩ := Option.map_eq_some_iff.mp hgen
  unfold installWriteFence
  simp [hterm, ha, heq]

theorem lt_of_againstActive {snapshot : PlacementSnapshot} {shards : Finset ShardId}
    {active : ActivePlacement} (ha : r.active = some active)
    (h : stage.againstActive r snapshot shards = none) :
    active.generation < snapshot.generation := by
  unfold stage.againstActive at h
  rw [ha] at h
  simp only at h
  split at h
  · cases h
  next hlt =>
  split at h
  · split at h <;> cases h
  · next hne => exact Nat.lt_of_le_of_ne (Nat.le_of_not_lt hlt) (Ne.symm hne)

theorem lt_of_againstStaged {snapshot : PlacementSnapshot} {staged : StagedPlacement}
    (hs : r.staged = some staged) (h : stage.againstStaged r snapshot = none) :
    staged.snapshot.generation < snapshot.generation := by
  unfold stage.againstStaged at h
  rw [hs] at h
  simp only at h
  split at h
  · cases h
  next hlt =>
  split at h
  · split at h <;> cases h
  · next hne => exact Nat.lt_of_le_of_ne (Nat.le_of_not_lt hlt) (Ne.symm hne)

/-- Observing a term raises it, with what was staged under a lower one dropped, or does nothing. -/
theorem Fenced.observeTerm (h : Fenced r) {term : Term} (hr : r.observeTerm term = .ok r') :
    r.observedTerm = term ∧ r' = r ∨ r.observedTerm < term ∧ r' = r.raised term := by
  unfold NodeReplica.observeTerm at hr
  split at hr
  · cases hr
  split at hr
  · cases hr
  next hge =>
  split at hr
  · next hlt =>
    cases hr
    refine Or.inr ⟨hlt, ?_⟩
    -- what is staged has the term observed so far
    have hdrop : (r.staged.filter fun placement => ¬ placement.snapshot.term < term) = none := by
      refine Option.filter_eq_none_iff.mpr fun staged hs => ?_
      simpa [h.term staged hs] using hlt
    simp only [NodeReplica.raised, hdrop]
  · next hle =>
    cases hr
    exact Or.inl ⟨Nat.le_antisymm (Nat.le_of_not_lt hge) (Nat.le_of_not_lt hle), rfl⟩

theorem Fenced.stage (h : Fenced r) (snapshot : PlacementSnapshot) :
    Effect r (.stage snapshot) (r.stage snapshot).1 := by
  have hsame : Effect r (.stage snapshot) r := .same nofun
  rw [NodeReplica.stage]
  split
  · exact hsame
  next hge =>
  split
  · exact hsame
  next g hg =>
  have hobs := h.observeTerm hg
  have hkept : Effect r (.stage snapshot) g := by
    rcases hobs with ⟨_, rfl⟩ | ⟨hlt, rfl⟩
    · exact hsame
    · exact .raised nofun hlt
  simp only
  split
  · exact hkept
  next hactive =>
  split
  · exact hkept
  next hstaged =>
  have hplaced : (r.stage snapshot).2 = .ok .staged := by
    rw [NodeReplica.stage, if_neg hge, hg]
    simp only [hactive, hstaged]
  have heq : ({ g with
      writeFence := none
      staged := some
        { snapshot := snapshot
          assignedShards := snapshot.shardsFor g.nodeId
          acknowledgedShards := ∅ } } : NodeReplica) = r.placed snapshot := by
    rcases hobs with ⟨hterm, rfl⟩ | ⟨_, rfl⟩
    · simp only [NodeReplica.placed, ← hterm]
    · rfl
  rw [heq]
  refine .placed (Nat.le_of_not_lt hge) (fun active ha => ?_) (fun staged hs hterm => ?_) hplaced
  · have hga : g.active = some active := by
      rcases hobs with ⟨_, rfl⟩ | ⟨_, rfl⟩ <;> exact ha
    exact lt_of_againstActive hga hactive
  · have hgs : g.staged = some staged := by
      rcases hobs with ⟨_, rfl⟩ | ⟨hlt, _⟩
      · exact hs
      · exact absurd hterm (Nat.ne_of_lt hlt)
    exact lt_of_againstStaged hgs hstaged

/-- **Every call is one of the outcomes.** -/
theorem Fenced.effect (h : Fenced r) (c : Call) : Effect r c (r.call c) := by
  cases c with
  | observeTerm term =>
    simp only [call]
    cases hr : r.observeTerm term with
    | error e => exact .same nofun
    | ok r' =>
      rcases h.observeTerm hr with ⟨_, rfl⟩ | ⟨hlt, rfl⟩
      · exact .same nofun
      · exact .raised nofun hlt
  | stage snapshot => exact h.stage snapshot
  | acknowledgeShard generation shard =>
    simp only [call]
    cases hr : r.acknowledgeShard generation shard with
    | error e => exact .same nofun
    | ok out =>
      obtain ⟨staged, outcome, hs, rfl, hshard, rfl⟩ := acknowledgeShard_ok hr
      exact .acknowledged hs hshard hr
  | activate generation =>
    simp only [call]
    cases hr : r.activate generation with
    | error e => exact .same nofun
    | ok r' =>
      obtain ⟨staged, hs, rfl, hall, rfl⟩ := activate_ready hr
      exact .activated hs hall hr
  | installWriteFence fence =>
    simp only [call]
    cases hr : r.installWriteFence fence with
    | error e => exact .same nofun
    | ok r' =>
      obtain ⟨hterm, hactive, rfl⟩ := installWriteFence_held hr
      exact .installed hterm hactive hr
  | restart => exact .restarted

/-! ## What a call preserves -/

namespace Effect

variable {c : Call}

theorem nodeId (e : Effect r c r') : r'.nodeId = r.nodeId := by
  cases e <;> rfl

theorem observedTerm_le (e : Effect r c r') : r.observedTerm ≤ r'.observedTerm := by
  cases e with
  | raised _ hlt => exact Nat.le_of_lt hlt
  | placed hle => exact hle
  | _ => exact Nat.le_refl _

/-- Only an activation changes the active placement, and it takes a newer generation. -/
theorem active (h : Fenced r) (e : Effect r c r') :
    r'.active = r.active ∨ ∃ staged, r.staged = some staged ∧
      c = .activate staged.snapshot.generation ∧ r' = r.activated staged ∧
      staged.assignedShards ⊆ staged.acknowledgedShards ∧
      r.activate staged.snapshot.generation = .ok r' ∧
      ∀ g, r.activeGeneration = some g → g < staged.snapshot.generation := by
  cases e with
  | @activated staged hs hall hr =>
    refine Or.inr ⟨staged, hs, rfl, rfl, hall, hr, fun g hg => ?_⟩
    obtain ⟨active, ha, rfl⟩ := Option.map_eq_some_iff.mp hg
    exact h.newer staged hs active ha
  | _ => exact Or.inl rfl

theorem fenced (h : Fenced r) (e : Effect r c r') : Fenced r' := by
  cases e with
  | same => exact h
  | raised _ hlt =>
    exact
      { term := fun _ hs => nomatch hs
        newer := fun _ hs => nomatch hs
        assigned := fun _ hs => nomatch hs
        acknowledged := fun _ hs => nomatch hs
        fence := fun _ hf => nomatch hf }
  | @placed snapshot _ hactive =>
    refine
      { term := ?_, newer := ?_, assigned := ?_, acknowledged := ?_, fence := fun _ hf => nomatch hf }
    all_goals
      intro staged
      rintro ⟨⟩
    · rfl
    · exact hactive
    · rfl
    · exact Finset.empty_subset _
  | @acknowledged staged shard _ hs hshard =>
    refine
      { term := ?_, newer := ?_, assigned := ?_, acknowledged := ?_, fence := h.fence }
    all_goals
      intro st
      rintro ⟨⟩
    · exact h.term staged hs
    · exact h.newer staged hs
    · exact h.assigned staged hs
    · exact Finset.insert_subset hshard (h.acknowledged staged hs)
  | activated hs =>
    exact
      { term := fun _ hs => nomatch hs
        newer := fun _ hs => nomatch hs
        assigned := fun _ hs => nomatch hs
        acknowledged := fun _ hs => nomatch hs
        fence := fun _ hf => nomatch hf }
  | installed hterm hgen =>
    refine { h with fence := ?_ }
    rintro fence ⟨⟩
    exact ⟨hterm, hgen⟩
  | restarted =>
    have hof : ∀ staged, r.restart.staged = some staged →
        ∃ st, r.staged = some st ∧ staged = { st with acknowledgedShards := ∅ } := by
      intro staged hs
      obtain ⟨st, hst, rfl⟩ := Option.map_eq_some_iff.mp hs
      exact ⟨st, hst, rfl⟩
    refine
      { term := ?_, newer := ?_, assigned := ?_, acknowledged := ?_, fence := fun _ hf => nomatch hf }
    all_goals
      intro staged hs
      obtain ⟨st, hst, rfl⟩ := hof staged hs
    · exact h.term st hst
    · exact h.newer st hst
    · exact h.assigned st hst
    · exact Finset.empty_subset _

end Effect

theorem Fenced.call (h : Fenced r) (c : Call) : Fenced (r.call c) := (h.effect c).fenced h

theorem Fenced.run (h : Fenced r) (calls : List Call) : Fenced (r.run calls) := by
  induction calls generalizing r with
  | nil => exact h
  | cons c rest ih => exact ih (h.call c)

theorem Fenced.run_nodeId (h : Fenced r) (calls : List Call) : (r.run calls).nodeId = r.nodeId := by
  induction calls generalizing r with
  | nil => rfl
  | cons c rest ih => exact (ih (h.call c)).trans (h.effect c).nodeId

theorem Fenced.observedTerm_le (h : Fenced r) (calls : List Call) :
    r.observedTerm ≤ (r.run calls).observedTerm := by
  induction calls generalizing r with
  | nil => exact Nat.le_refl _
  | cons c rest ih => exact Nat.le_trans (h.effect c).observedTerm_le (ih (h.call c))

/-- An active generation is never lost and never replaced by an older one. -/
theorem Fenced.activeGeneration_le (h : Fenced r) (calls : List Call) {g : Generation}
    (hg : r.activeGeneration = some g) :
    ∃ g', (r.run calls).activeGeneration = some g' ∧ g ≤ g' := by
  induction calls generalizing r g with
  | nil => exact ⟨g, hg, Nat.le_refl g⟩
  | cons c rest ih =>
    rcases (h.effect c).active h with heq | ⟨staged, _, _, heq, _, _, hlt⟩
    · exact ih (h.call c) (by rw [activeGeneration, heq]; exact hg)
    · obtain ⟨g', hg', hle⟩ := ih (g := staged.snapshot.generation) (h.call c) (by rw [heq]; rfl)
      exact ⟨g', hg', Nat.le_trans (Nat.le_of_lt (hlt g hg)) hle⟩

/-! ## Where a placement comes from -/

/-- The calls acknowledge the shard for the generation, with no restart after that. -/
def AckedIn (r : NodeReplica) (generation : Generation) (shard : ShardId) (calls : List Call) :
    Prop :=
  ∃ before after out, calls = before ++ .acknowledgeShard generation shard :: after ∧
    (r.run before).acknowledgeShard generation shard = .ok out ∧ .restart ∉ after

theorem AckedIn.snoc {generation : Generation} {shard : ShardId} {calls : List Call}
    (h : AckedIn r generation shard calls) {c : Call} (hc : c ≠ .restart) :
    AckedIn r generation shard (calls ++ [c]) := by
  obtain ⟨before, after, out, rfl, hack, hrestart⟩ := h
  refine ⟨before, after ++ [c], out, by simp, hack, ?_⟩
  simp [hrestart, hc.symm]

/-- `snapshot` staged after the calls `before`. -/
def StagedAfter (r : NodeReplica) (before : List Call) (snapshot : PlacementSnapshot) : Prop :=
  ((r.run before).stage snapshot).2 = .ok .staged

/-- The shards of `shards`, each acknowledged in `mid` after `before` and the staging. -/
def AckedAfter (r : NodeReplica) (before : List Call) (snapshot : PlacementSnapshot)
    (mid : List Call) (shards : Finset ShardId) : Prop :=
  ∀ shard ∈ shards,
    AckedIn ((r.run before).call (.stage snapshot)) snapshot.generation shard mid

/-- The calls that account for the staged and for the active placement. -/
structure Accounted (r : NodeReplica) (calls : List Call) : Prop where
  staged : ∀ staged, (r.run calls).staged = some staged → ∃ before mid,
    calls = before ++ .stage staged.snapshot :: mid ∧ r.StagedAfter before staged.snapshot ∧
    r.AckedAfter before staged.snapshot mid staged.acknowledgedShards
  active : ∀ active, (r.run calls).active = some active → ∃ snapshot before mid after,
    calls = before ++ .stage snapshot :: (mid ++ .activate snapshot.generation :: after) ∧
    r.StagedAfter before snapshot ∧ active.generation = snapshot.generation ∧
    active.assignedShards = snapshot.shardsFor r.nodeId ∧
    (∃ r', (r.run (before ++ .stage snapshot :: mid)).activate snapshot.generation = .ok r') ∧
    r.AckedAfter before snapshot mid active.assignedShards

variable {calls : List Call} {c : Call}

theorem Accounted.snoc_staged (h : Fenced r) (ha : Accounted r calls) {staged : StagedPlacement}
    (hs : (r.run (calls ++ [c])).staged = some staged) : ∃ before mid,
      calls ++ [c] = before ++ .stage staged.snapshot :: mid ∧
      r.StagedAfter before staged.snapshot ∧
      r.AckedAfter before staged.snapshot mid staged.acknowledgedShards := by
  -- a call that leaves the staged placement as it was
  have hkeep : c ≠ .restart → (r.run calls).staged = some staged → ∃ before mid,
      calls ++ [c] = before ++ .stage staged.snapshot :: mid ∧
      r.StagedAfter before staged.snapshot ∧
      r.AckedAfter before staged.snapshot mid staged.acknowledgedShards := by
    intro hc hst
    obtain ⟨before, mid, rfl, hstage, hack⟩ := ha.staged staged hst
    exact ⟨before, mid ++ [c], by simp, hstage, fun shard hm => (hack shard hm).snoc hc⟩
  rw [run_snoc] at hs
  have e := (h.run calls).effect c
  generalize (r.run calls).call c = r' at e hs
  cases e with
  | same hc => exact hkeep hc hs
  | raised => cases hs
  | @placed snapshot _ _ _ hout =>
    cases hs
    exact ⟨calls, [], rfl, hout, fun shard hm => absurd hm (Finset.notMem_empty shard)⟩
  | @acknowledged st shard outcome hst _ hack =>
    cases hs
    obtain ⟨before, mid, rfl, hstage, hacked⟩ := ha.staged st hst
    refine ⟨before, mid ++ [.acknowledgeShard st.snapshot.generation shard], by simp, hstage, ?_⟩
    intro other hm
    rcases Finset.mem_insert.mp hm with rfl | hm
    · rw [run_stage] at hack
      exact ⟨mid, [], _, rfl, hack, List.not_mem_nil⟩
    · exact (hacked other hm).snoc nofun
  | activated => cases hs
  | installed => exact hkeep nofun hs
  | restarted =>
    obtain ⟨st, hst, rfl⟩ := Option.map_eq_some_iff.mp hs
    obtain ⟨before, mid, rfl, hstage, _⟩ := ha.staged st hst
    exact ⟨before, mid ++ [.restart], by simp, hstage,
      fun shard hm => absurd hm (Finset.notMem_empty shard)⟩

/-- **One more call is accounted for.** -/
theorem Accounted.snoc (h : Fenced r) (ha : Accounted r calls) (c : Call) :
    Accounted r (calls ++ [c]) where
  staged := fun _ hs => ha.snoc_staged h hs
  active := by
    intro active hactive
    have hf := h.run calls
    rw [run_snoc] at hactive
    rcases (hf.effect c).active hf with heq | ⟨st, hst, rfl, heq, hall, hok, _⟩
    · obtain ⟨snapshot, before, mid, after, rfl, hrest⟩ := ha.active active (heq ▸ hactive)
      exact ⟨snapshot, before, mid, after ++ [c], by simp, hrest⟩
    · rw [heq] at hactive
      cases hactive
      obtain ⟨before, mid, rfl, hstage, hacked⟩ := ha.staged st hst
      refine ⟨st.snapshot, before, mid, [], by simp, hstage, rfl, ?_, ⟨_, hok⟩,
        fun shard hm => hacked shard (hall hm)⟩
      rw [hf.assigned st hst, h.run_nodeId]

theorem accounted_new (nodeId : NodeId) (calls : List Call) : Accounted (new nodeId) calls := by
  induction calls using List.reverseRecOn with
  | nil => exact { staged := nofun, active := nofun }
  | append_singleton calls c ih => exact ih.snoc (fenced_new nodeId) c

/-- **What every sequence of calls keeps.** Terms and generations only rise, the staged placement
and the fence belong to the term and the generation of the node, and what is active was staged,
acknowledged shard by shard and then activated. -/
theorem activation_invariants (nodeId : NodeId) (calls more : List Call) :
    ((new nodeId).run calls).observedTerm ≤ ((new nodeId).run (calls ++ more)).observedTerm ∧
    (∀ g, ((new nodeId).run calls).activeGeneration = some g →
      ∃ g', ((new nodeId).run (calls ++ more)).activeGeneration = some g' ∧ g ≤ g') ∧
    (∀ g r', ((new nodeId).run calls).activate g = .ok r' → r'.activeGeneration = some g ∧
      ∀ g₀, ((new nodeId).run calls).activeGeneration = some g₀ → g₀ < g) ∧
    (∀ staged, ((new nodeId).run calls).staged = some staged →
      staged.snapshot.term = ((new nodeId).run calls).observedTerm ∧
      (∀ g, ((new nodeId).run calls).activeGeneration = some g → g < staged.snapshot.generation) ∧
      staged.assignedShards = staged.snapshot.shardsFor nodeId ∧
      staged.acknowledgedShards ⊆ staged.assignedShards) ∧
    (∀ fence, ((new nodeId).run calls).writeFence = some fence →
      fence.term = ((new nodeId).run calls).observedTerm ∧
      ((new nodeId).run calls).activeGeneration = some fence.generation) ∧
    (((new nodeId).run calls).activeShards = ∅ ∨ ∃ snapshot before mid after,
      calls = before ++ .stage snapshot :: (mid ++ .activate snapshot.generation :: after) ∧
      (((new nodeId).run before).stage snapshot).2 = .ok .staged ∧
      (∃ r', ((new nodeId).run (before ++ .stage snapshot :: mid)).activate snapshot.generation =
        .ok r') ∧
      ((new nodeId).run calls).activeGeneration = some snapshot.generation ∧
      ((new nodeId).run calls).activeShards = snapshot.shardsFor nodeId ∧
      ∀ shard ∈ snapshot.shardsFor nodeId, ∃ mid₁ mid₂ out,
        mid = mid₁ ++ .acknowledgeShard snapshot.generation shard :: mid₂ ∧
        ((new nodeId).run (before ++ .stage snapshot :: mid₁)).acknowledgeShard
          snapshot.generation shard = .ok out ∧ .restart ∉ mid₂) := by
  have hnew := fenced_new nodeId
  have hf := hnew.run calls
  have hid := hnew.run_nodeId calls
  have hacc := accounted_new nodeId calls
  generalize hr : (new nodeId).run calls = r at hf hid
  rw [run_append, hr]
  have hnewer : ∀ staged, r.staged = some staged → ∀ g, r.activeGeneration = some g →
      g < staged.snapshot.generation := by
    intro staged hs g hg
    obtain ⟨active, ha, rfl⟩ := Option.map_eq_some_iff.mp hg
    exact hf.newer staged hs active ha
  refine ⟨hf.observedTerm_le more, fun g hg => hf.activeGeneration_le more hg, ?_, ?_, hf.fence, ?_⟩
  · intro g r' hact
    obtain ⟨staged, hs, rfl, _, rfl⟩ := activate_ready hact
    exact ⟨rfl, hnewer staged hs⟩
  · intro staged hs
    exact ⟨hf.term staged hs, hnewer staged hs, (hf.assigned staged hs).trans (by rw [hid]; rfl),
      hf.acknowledged staged hs⟩
  · cases ha : r.active with
    | none => exact Or.inl (by simp only [activeShards, ha])
    | some active =>
      obtain ⟨snapshot, before, mid, after, hcalls, hstage, hgen, hshards, hact, hack⟩ :=
        hacc.active active (hr.symm ▸ ha)
      refine Or.inr ⟨snapshot, before, mid, after, hcalls, hstage, hact, ?_, ?_, ?_⟩
      · simp only [activeGeneration, ha, Option.map_some, hgen]
      · simp only [activeShards, ha, hshards]
        rfl
      · intro shard hm
        obtain ⟨mid₁, mid₂, out, hmid, hok, hrestart⟩ := hack shard (hshards.symm ▸ hm)
        exact ⟨mid₁, mid₂, out, hmid, by rwa [run_stage], hrestart⟩

end NodeReplica

end FiduciaBrain.Composition
