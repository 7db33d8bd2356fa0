import FiduciaBrain.Composition.Node

/-!
# Writes while a newer generation is staged

Staging revokes the fence once. A fence for the generation that is still active may come late or
twice, and `installWriteFence` looks at the term and the active generation alone: it takes it back.
`fails_closed_iff` says that this is the only way to lose the rule that a node with a staged
generation accepts no write, and `reinstalled_fence_admits_write` is a run where it happens.
-/

namespace FiduciaBrain.Composition.NodeReplica

variable {r r' : NodeReplica} {calls : List Call} {c : Call}

/-- While a placement is staged, no write is accepted. -/
def Closed (r : NodeReplica) : Prop :=
  ∀ staged, r.staged = some staged → ∀ fence shard, r.acceptsWrite fence shard = false

/-- A fence of the active generation arrives, with a newer one staged. -/
def Reopens (r : NodeReplica) (fence : WriteFence) : Prop :=
  r.staged ≠ none ∧ fence.term = r.observedTerm ∧ r.activeGeneration = some fence.generation ∧
    r.activeShards.Nonempty

/-- `g` is the generation of `staged`, or of a newer snapshot staged by `calls`. -/
def Supersedes (staged : StagedPlacement) (calls : List Call) (g : Generation) : Prop :=
  staged.snapshot.generation = g ∨ staged.snapshot.generation < g ∧
    ∃ snapshot, .stage snapshot ∈ calls ∧ snapshot.generation = g

/-- Writes under `fence` resume in `calls`: what is staged before them, or was staged in its place, is
activated and then the fence for it installed. -/
def ResumesIn (r : NodeReplica) (calls : List Call) (staged : StagedPlacement)
    (fence : WriteFence) : Prop :=
  ∃ before mid after,
    calls = before ++ .activate fence.generation :: (mid ++ .installWriteFence fence :: after) ∧
    Supersedes staged before fence.generation ∧
    (∃ r', (r.run before).activate fence.generation = .ok r') ∧
    (∃ r', (r.run (before ++ .activate fence.generation :: mid)).installWriteFence fence = .ok r')

/-- No write while a generation is staged, and none after it before it is activated and fenced, or
dropped by a higher term. -/
def FailsClosed (r : NodeReplica) (calls : List Call) : Prop :=
  (∀ before after, calls = before ++ after → Closed (r.run before)) ∧
  ∀ before mid after staged fence shard, calls = before ++ mid ++ after →
    (r.run before).staged = some staged → (r.run (before ++ mid)).acceptsWrite fence shard = true →
    staged.snapshot.term < (r.run (before ++ mid)).observedTerm ∨
      (r.run before).ResumesIn mid staged fence

theorem acceptsWrite_iff {fence : WriteFence} {shard : ShardId} :
    r.acceptsWrite fence shard = true ↔ r.writeFence = some fence ∧
      r.activeGeneration = some fence.generation ∧ shard ∈ r.activeShards := by
  unfold acceptsWrite activeGeneration activeShards
  cases r.active <;> simp

/-! ## No fence is held over a staged placement -/

/-- The fence is gone, or there is nothing it could admit. -/
def Sealed (r : NodeReplica) : Prop :=
  r.staged ≠ none → r.writeFence = none ∨ r.activeShards = ∅

theorem Sealed.closed (h : Sealed r) : Closed r := by
  intro staged hs fence shard
  rw [Bool.eq_false_iff, ne_eq, acceptsWrite_iff]
  rintro ⟨hf, _, hm⟩
  rcases h (by simp [hs]) with hn | hn
  · simp [hn] at hf
  · simp [hn] at hm

theorem Sealed.call (hf : Fenced r) (h : Sealed r)
    (hc : ∀ fence, c = .installWriteFence fence → ¬ r.Reopens fence) : Sealed (r.call c) := by
  have e := hf.effect c
  generalize r.call c = r' at e
  cases e with
  | same => exact h
  | raised => exact fun hs => absurd rfl hs
  | placed => exact fun _ => Or.inl rfl
  | acknowledged hs => exact fun _ => h (by simp [hs])
  | activated => exact fun hs => absurd rfl hs
  | @installed fence hterm hgen =>
    intro hs
    right
    by_contra hne
    exact hc fence rfl ⟨hs, hterm, hgen, Finset.nonempty_iff_ne_empty.mpr hne⟩
  | restarted => exact fun _ => Or.inl rfl

theorem Sealed.run (hf : Fenced r) (h : Sealed r)
    (hc : ∀ before fence after, calls = before ++ .installWriteFence fence :: after →
      ¬ (r.run before).Reopens fence) : Sealed (r.run calls) := by
  induction calls generalizing r with
  | nil => exact h
  | cons c rest ih =>
    refine ih (hf.call c) (h.call hf fun fence he => hc [] fence rest (by simp [he])) ?_
    intro before fence after he
    exact hc (c :: before) fence after (by simp [he])

/-! ## What becomes of a staged placement -/

theorem Supersedes.le {staged : StagedPlacement} {g : Generation} (h : Supersedes staged calls g) :
    staged.snapshot.generation ≤ g := by
  rcases h with rfl | ⟨hlt, _⟩
  · exact Nat.le_refl _
  · exact Nat.le_of_lt hlt

theorem Supersedes.append {staged : StagedPlacement} {g : Generation}
    (h : Supersedes staged calls g) (more : List Call) : Supersedes staged (calls ++ more) g :=
  h.imp_right fun ⟨hlt, snapshot, hm, hg⟩ => ⟨hlt, snapshot, List.mem_append_left _ hm, hg⟩

/-- The generation is activated by `calls`, and the fence held was installed after that. -/
structure Activated (r : NodeReplica) (calls : List Call) (staged : StagedPlacement)
    (g : Generation) (before mid : List Call) : Prop where
  calls_eq : calls = before ++ .activate g :: mid
  supersedes : Supersedes staged before g
  activate_ok : ∃ r', (r.run before).activate g = .ok r'
  active : (r.run calls).activeGeneration = some g
  fence : ∀ fence, (r.run calls).writeFence = some fence → ∃ mid₁ mid₂,
    mid = mid₁ ++ .installWriteFence fence :: mid₂ ∧
    ∃ r', (r.run (before ++ .activate g :: mid₁)).installWriteFence fence = .ok r'

/-- Where `calls` have taken a placement staged before them, the term unchanged. -/
structure Pending (r : NodeReplica) (calls : List Call) (staged : StagedPlacement) : Prop where
  /-- What is staged now is the placement or was staged in its place. -/
  next : ∀ st, (r.run calls).staged = some st → Supersedes staged calls st.snapshot.generation
  settled : (r.run calls).staged ≠ none ∨ ∃ g before mid, Activated r calls staged g before mid

theorem Activated.snoc {staged : StagedPlacement} {g : Generation} {before mid : List Call}
    (h : Activated r calls staged g before mid)
    (hactive : (r.run (calls ++ [c])).activeGeneration = some g)
    (hfence : (r.run (calls ++ [c])).writeFence = none ∨
      (r.run (calls ++ [c])).writeFence = (r.run calls).writeFence) :
    Activated r (calls ++ [c]) staged g before (mid ++ [c]) where
  calls_eq := by simp [h.calls_eq]
  supersedes := h.supersedes
  activate_ok := h.activate_ok
  active := hactive
  fence := by
    intro fence hf
    rcases hfence with hn | hn
    · simp [hn] at hf
    · obtain ⟨mid₁, mid₂, rfl, hok⟩ := h.fence fence (hn ▸ hf)
      exact ⟨mid₁, mid₂ ++ [c], by simp, hok⟩

theorem Activated.install {staged : StagedPlacement} {g : Generation} {before mid : List Call}
    {fence : WriteFence} (h : Activated r calls staged g before mid)
    (hok : (r.run calls).installWriteFence fence = .ok r')
    (hrun : r.run (calls ++ [.installWriteFence fence]) = r') :
    Activated r (calls ++ [.installWriteFence fence]) staged g before
      (mid ++ [.installWriteFence fence]) where
  calls_eq := by simp [h.calls_eq]
  supersedes := h.supersedes
  activate_ok := h.activate_ok
  active := by
    rw [hrun, (installWriteFence_held hok).2.2]
    exact h.active
  fence := by
    intro f hf
    rw [hrun, (installWriteFence_held hok).2.2] at hf
    cases hf
    exact ⟨mid, [], rfl, r', by rw [← h.calls_eq]; exact hok⟩

/-- One more call, none of them at a higher term. -/
theorem Pending.snoc {staged : StagedPlacement} (hf : Fenced r) (hs : r.staged = some staged)
    (h : Pending r calls staged)
    (hterm : (r.run (calls ++ [c])).observedTerm ≤ staged.snapshot.term) :
    Pending r (calls ++ [c]) staged := by
  have hfc := hf.run calls
  have hge : staged.snapshot.term ≤ (r.run calls).observedTerm := by
    rw [hf.term staged hs]
    exact hf.observedTerm_le calls
  have e := hfc.effect c
  have hrun : r.run (calls ++ [c]) = (r.run calls).call c := run_snoc calls c
  generalize (r.run calls).call c = r' at e hrun
  -- the placement staged now was staged before this call
  have hnext : (∀ st, r'.staged = some st → ∃ st₀, (r.run calls).staged = some st₀ ∧
      st.snapshot = st₀.snapshot) → ∀ st, (r.run (calls ++ [c])).staged = some st →
      Supersedes staged (calls ++ [c]) st.snapshot.generation := by
    intro hsame st hst
    obtain ⟨st₀, hst₀, heq⟩ := hsame st (hrun ▸ hst)
    rw [heq]
    exact (h.next st₀ hst₀).append [c]
  -- the call grants nothing and leaves what is active alone
  have hkeep : r'.active = (r.run calls).active →
      (r'.writeFence = none ∨ r'.writeFence = (r.run calls).writeFence) →
      (r'.staged ≠ none ∨ (r.run calls).staged = none) →
      (r.run (calls ++ [c])).staged ≠ none ∨
        ∃ g before mid, Activated r (calls ++ [c]) staged g before mid := by
    intro hactive hfence hstaged
    rcases hstaged with hstaged | hstaged
    · exact Or.inl (hrun ▸ hstaged)
    · obtain ⟨g, before, mid, ha⟩ := h.settled.resolve_left (not_not.mpr hstaged)
      refine Or.inr ⟨g, before, mid ++ [c], ha.snoc ?_ (hrun ▸ hfence)⟩
      rw [hrun, activeGeneration, hactive]
      exact ha.active
  cases e with
  | same =>
    exact ⟨hnext fun st hst => ⟨st, hst, rfl⟩,
      hkeep rfl (Or.inr rfl) (Decidable.not_or_of_imp id)⟩
  | @raised _ term _ hlt =>
    rw [hrun] at hterm
    exact absurd hterm (Nat.not_le.mpr (Nat.lt_of_le_of_lt hge hlt))
  | @placed snapshot hle hactive hstaged =>
    refine ⟨fun st hst => ?_, Or.inl (by simp [hrun, NodeReplica.placed])⟩
    have hsame : (r.run calls).observedTerm = snapshot.term := by
      rw [hrun] at hterm
      exact Nat.le_antisymm hle (Nat.le_trans hterm hge)
    have hlt : staged.snapshot.generation < snapshot.generation := by
      rcases h.settled with hsome | ⟨g, before, mid, ha⟩
      · obtain ⟨st₀, hst₀⟩ := Option.ne_none_iff_exists'.mp hsome
        exact Nat.lt_of_le_of_lt (h.next st₀ hst₀).le (hstaged st₀ hst₀ hsame)
      · obtain ⟨active, hact, rfl⟩ := Option.map_eq_some_iff.mp ha.active
        exact Nat.lt_of_le_of_lt ha.supersedes.le (hactive active hact)
    rw [hrun] at hst
    cases hst
    exact Or.inr ⟨hlt, snapshot, by simp, rfl⟩
  | @acknowledged st shard _ hst =>
    refine ⟨hnext ?_, Or.inl (by simp [hrun, NodeReplica.acknowledged])⟩
    rintro _ ⟨⟩
    exact ⟨st, hst, rfl⟩
  | @activated st hst _ hok =>
    refine ⟨hnext (fun _ h => by cases h), Or.inr ⟨st.snapshot.generation, calls, [], ?_⟩⟩
    exact
      { calls_eq := rfl
        supersedes := h.next st hst
        activate_ok := ⟨_, hok⟩
        active := by rw [hrun]; rfl
        fence := fun f hf => by
          rw [hrun] at hf
          cases hf }
  | @installed fence _ _ hok =>
    refine ⟨hnext fun st hst => ⟨st, hst, rfl⟩, ?_⟩
    rcases h.settled with hsome | ⟨g, before, mid, ha⟩
    · exact Or.inl (hrun ▸ hsome)
    · exact Or.inr ⟨g, before, _, ha.install hok hrun⟩
  | restarted =>
    refine ⟨hnext fun st hst => ?_, hkeep rfl (Or.inl rfl) ?_⟩
    · obtain ⟨st₀, hst₀, rfl⟩ := Option.map_eq_some_iff.mp hst
      exact ⟨st₀, hst₀, rfl⟩
    · rw [restart]
      cases (r.run calls).staged <;> simp

theorem Pending.run {staged : StagedPlacement} (hf : Fenced r) (hs : r.staged = some staged)
    (calls : List Call) : staged.snapshot.term < (r.run calls).observedTerm ∨
      Pending r calls staged := by
  induction calls using List.reverseRecOn with
  | nil =>
    right
    refine ⟨fun st hst => ?_, Or.inl (by simp [hs])⟩
    rw [run_nil, hs] at hst
    cases hst
    exact Or.inl rfl
  | append_singleton calls c ih =>
    rcases Nat.lt_or_ge staged.snapshot.term (r.run (calls ++ [c])).observedTerm with hlt | hge
    · exact Or.inl hlt
    right
    refine (ih.resolve_left fun hlt => ?_).snoc hf hs hge
    have hle := ((hf.run calls).effect c).observedTerm_le
    rw [← run_snoc] at hle
    exact Nat.not_le.mpr hlt (Nat.le_trans hle hge)

/-- Writes accepted after a generation was staged, the state that accepts them being closed. -/
theorem resumes_of_acceptsWrite (hf : Fenced r) {staged : StagedPlacement} {fence : WriteFence}
    {shard : ShardId} (hs : r.staged = some staged) (hclosed : Closed (r.run calls))
    (h : (r.run calls).acceptsWrite fence shard = true) :
    staged.snapshot.term < (r.run calls).observedTerm ∨ r.ResumesIn calls staged fence := by
  refine (Pending.run hf hs calls).imp_right fun hp => ?_
  have hnone : (r.run calls).staged = none := by
    refine Option.eq_none_iff_forall_ne_some.mpr fun st hst => ?_
    simp [hclosed st hst] at h
  obtain ⟨hheld, hgen, _⟩ := acceptsWrite_iff.mp h
  obtain ⟨g, before, mid, ha⟩ := hp.settled.resolve_left (not_not.mpr hnone)
  have heq : g = fence.generation := Option.some.inj (ha.active.symm.trans hgen)
  subst heq
  obtain ⟨mid₁, mid₂, rfl, hok⟩ := ha.fence fence hheld
  exact ⟨before, mid₁, mid₂, ha.calls_eq, ha.supersedes, ha.activate_ok, hok⟩

/-! ## Failing closed -/

/-- **A node fails closed exactly as long as no fence of the active generation is installed over a
staged one.** -/
theorem fails_closed_iff (nodeId : NodeId) (calls : List Call) :
    FailsClosed (new nodeId) calls ↔
      ∀ before fence after, calls = before ++ .installWriteFence fence :: after →
        ¬ ((new nodeId).run before).Reopens fence := by
  have hf := fenced_new nodeId
  constructor
  · rintro ⟨hclosed, _⟩ before fence after rfl ⟨hstaged, hterm, hgen, shard, hm⟩
    obtain ⟨staged, hs⟩ := Option.ne_none_iff_exists'.mp hstaged
    have hok := installWriteFence_of_held hterm hgen
    have hcall : (new nodeId).run (before ++ [.installWriteFence fence]) =
        { (new nodeId).run before with writeFence := some fence } := by
      rw [run_snoc, NodeReplica.call, hok]
      rfl
    have hno := hclosed (before ++ [.installWriteFence fence]) after (by simp) staged
      (by rw [hcall]; exact hs) fence shard
    rw [hcall, Bool.eq_false_iff, ne_eq, acceptsWrite_iff] at hno
    exact hno ⟨rfl, hgen, hm⟩
  · intro h
    have hclosed : ∀ before after, calls = before ++ after →
        Closed ((new nodeId).run before) := by
      rintro before after rfl
      refine Sealed.closed (Sealed.run hf (fun hs => absurd rfl hs) ?_)
      rintro before fence rest rfl
      exact h before fence (rest ++ after) (by simp)
    refine ⟨hclosed, ?_⟩
    rintro before mid after staged fence shard rfl hs hw
    have hcl := hclosed (before ++ mid) after rfl
    rw [run_append] at hw hcl ⊢
    exact resumes_of_acceptsWrite (hf.run before) hs hcl hw

/-- Node 1 with shard 7 active in generation 1 and generation 2 staged, when the fence of generation
1 arrives again. -/
def redelivered : List Call :=
  let snapshot (generation : Generation) : PlacementSnapshot :=
    { term := 1, generation := generation, assignments := .ofList [(7, {1})] }
  let fence : WriteFence := { term := 1, generation := 1 }
  [.stage (snapshot 1), .acknowledgeShard 1 7, .activate 1, .installWriteFence fence,
    .stage (snapshot 2), .installWriteFence fence]

/-- **A node with generation 2 staged accepts a write of generation 1.** -/
theorem reinstalled_fence_admits_write :
    ((new 1).run redelivered).staged.map (·.snapshot.generation) = some 2 ∧
    ((new 1).run redelivered).acceptsWrite { term := 1, generation := 1 } 7 = true ∧
    ¬ FailsClosed (new 1) redelivered := by
  have hstaged : ((new 1).run redelivered).staged.map (·.snapshot.generation) = some 2 := by
    decide +kernel
  have hw : ((new 1).run redelivered).acceptsWrite { term := 1, generation := 1 } 7 = true := by
    decide +kernel
  refine ⟨hstaged, hw, fun h => ?_⟩
  obtain ⟨staged, hs, _⟩ := Option.map_eq_some_iff.mp hstaged
  have hno := h.1 redelivered [] (by simp) staged hs { term := 1, generation := 1 } 7
  exact Bool.noConfusion (hw.symm.trans hno)

end FiduciaBrain.Composition.NodeReplica
