import FiduciaBrain.Composition.Model
import Mathlib.Data.List.Chain

/-!
# A publisher under any sequence of calls

What `publishNext` hands out and what `commit` accepts over a whole run. `commit` answers for its
committed generation before it looks at what was published, whatever the snapshot assigns:
`commit_agreement_iff` says that this is the only way two commits of one generation can disagree.

* `Ledger` — what the snapshots handed out and the commits made so far have to do with the publisher
* `CommitAgreement` — the four properties of its commits
-/

namespace FiduciaBrain.Composition

/-- A snapshot that `PlacementSnapshot.new` built. -/
def PlacementSnapshot.Valid (s : PlacementSnapshot) : Prop :=
  ∃ term generation assignments, PlacementSnapshot.new term generation assignments = .ok s

/-- A method that changes the publisher, with its arguments. -/
inductive PublisherCall
  | becomeLeader (newTerm : Term)
  | stepDown (observedTerm : Term)
  | publishNext (assignments : Std.ExtTreeMap ShardId (List NodeId))
  | commit (snapshot : PlacementSnapshot)

theorem PlacementSnapshot.new_ok {term : Term} {generation : Generation}
    {assignments : Std.ExtTreeMap ShardId (List NodeId)} {s : PlacementSnapshot}
    (h : PlacementSnapshot.new term generation assignments = .ok s) :
    s.term = term ∧ s.generation = generation ∧ s.generation ≠ 0 := by
  unfold PlacementSnapshot.new at h
  split at h
  · cases h
  split at h
  · cases h
  next hgen =>
  split at h
  · cases h
  cases hc : PlacementSnapshot.canonicalize ∅ assignments.toList with
  | error e =>
    rw [hc] at h
    cases h
  | ok canonical =>
    rw [hc] at h
    cases h
    exact ⟨rfl, rfl, hgen⟩

namespace BrainPublisher

def call (p : BrainPublisher) : PublisherCall → BrainPublisher
  | .becomeLeader newTerm => orKeep p (p.becomeLeader newTerm)
  | .stepDown observedTerm => orKeep p (p.stepDown observedTerm)
  | .publishNext assignments => orKeep p ((p.publishNext assignments).map Prod.snd)
  | .commit snapshot => orKeep p (p.commit snapshot)

def run (p : BrainPublisher) (calls : List PublisherCall) : BrainPublisher := calls.foldl call p

/-- The snapshot that a call hands out. -/
def publishes (p : BrainPublisher) : PublisherCall → Option PlacementSnapshot
  | .publishNext assignments => ((p.publishNext assignments).map Prod.fst).toOption
  | _ => none

/-- The snapshot that a call commits, with success. -/
def commits (p : BrainPublisher) : PublisherCall → Option PlacementSnapshot
  | .commit snapshot => ((p.commit snapshot).map fun _ => snapshot).toOption
  | _ => none

/-- What the calls of a run say, in order. -/
def recorded (say : BrainPublisher → PublisherCall → Option PlacementSnapshot)
    (p : BrainPublisher) : List PublisherCall → List PlacementSnapshot
  | [] => []
  | c :: rest => (say p c).toList ++ recorded say (p.call c) rest

/-- The snapshots handed out by a run. -/
def publications (p : BrainPublisher) (calls : List PublisherCall) : List PlacementSnapshot :=
  recorded publishes p calls

/-- The snapshots that a run commits with success. -/
def commitments (p : BrainPublisher) (calls : List PublisherCall) : List PlacementSnapshot :=
  recorded commits p calls

/-- The snapshots of one generation. -/
def ofGeneration (g : Generation) (snapshots : List PlacementSnapshot) : List PlacementSnapshot :=
  snapshots.filter fun s => s.generation = g

variable {p p' : BrainPublisher} {calls : List PublisherCall} {c : PublisherCall}

theorem run_append (calls more : List PublisherCall) :
    p.run (calls ++ more) = (p.run calls).run more :=
  List.foldl_append

theorem run_snoc (calls : List PublisherCall) (c : PublisherCall) :
    p.run (calls ++ [c]) = (p.run calls).call c :=
  run_append calls [c]

theorem recorded_append (say : BrainPublisher → PublisherCall → Option PlacementSnapshot)
    (calls more : List PublisherCall) :
    recorded say p (calls ++ more) = recorded say p calls ++ recorded say (p.run calls) more := by
  induction calls generalizing p with
  | nil => rfl
  | cons c rest ih =>
    simp only [List.cons_append, recorded, ih, List.append_assoc]
    rfl

theorem recorded_snoc (say : BrainPublisher → PublisherCall → Option PlacementSnapshot)
    (calls : List PublisherCall) (c : PublisherCall) :
    recorded say p (calls ++ [c]) = recorded say p calls ++ (say (p.run calls) c).toList := by
  rw [recorded_append]
  simp [recorded]

/-! ## What a call does -/

/-- The outcomes of a call, with what it hands out and commits. -/
inductive Effect (p : BrainPublisher) :
    PublisherCall → BrainPublisher → Option PlacementSnapshot → Option PlacementSnapshot → Prop
  | refused {c : PublisherCall} : Effect p c p none none
  | moved {c : PublisherCall} {role : BrainRole} {term : Term} : p.term ≤ term →
      Effect p c { p with
        role := role
        term := term
        published := ∅
        lastPublishedGeneration := p.committedGeneration } none none
  | published {assignments : Std.ExtTreeMap ShardId (List NodeId)} {snapshot : PlacementSnapshot} :
      p.publishNext assignments = .ok (snapshot, { p with
        lastPublishedGeneration := snapshot.generation
        published := p.published.insert snapshot.generation snapshot }) →
      snapshot.term = p.term → snapshot.generation = p.lastPublishedGeneration + 1 →
      Effect p (.publishNext assignments) { p with
        lastPublishedGeneration := snapshot.generation
        published := p.published.insert snapshot.generation snapshot } (some snapshot) none
  | replayed {snapshot : PlacementSnapshot} : p.role = .leader → snapshot.term = p.term →
      snapshot.generation = p.committedGeneration → Effect p (.commit snapshot) p none (some snapshot)
  | committed {snapshot : PlacementSnapshot} : snapshot.term = p.term →
      snapshot.generation = p.committedGeneration + 1 →
      p.published[snapshot.generation]? = some snapshot →
      Effect p (.commit snapshot) { p with committedGeneration := snapshot.generation } none
        (some snapshot)

theorem new_ok {role : BrainRole} {term : Term} {generation : Generation}
    (h : BrainPublisher.new role term generation = .ok p) :
    p.lastPublishedGeneration = generation ∧ p.committedGeneration = generation ∧
      p.published = ∅ := by
  unfold BrainPublisher.new at h
  split at h
  · cases h
  · cases h
    exact ⟨rfl, rfl, rfl⟩

theorem publishNext_made {assignments : Std.ExtTreeMap ShardId (List NodeId)}
    {snapshot : PlacementSnapshot} (h : p.publishNext assignments = .ok (snapshot, p')) :
    snapshot.term = p.term ∧ snapshot.generation = p.lastPublishedGeneration + 1 ∧
      p' = { p with
        lastPublishedGeneration := snapshot.generation
        published := p.published.insert snapshot.generation snapshot } := by
  unfold publishNext at h
  split at h
  · cases h
  split at h
  · cases h
  next generation hadd =>
  have hgen : generation = p.lastPublishedGeneration + 1 := by
    unfold checkedAdd at hadd
    split at hadd
    · exact (Option.some.inj hadd).symm
    · cases hadd
  cases hs : PlacementSnapshot.new p.term generation assignments with
  | error e =>
    rw [hs] at h
    cases h
  | ok made =>
    rw [hs] at h
    cases h
    obtain ⟨hterm, rfl, _⟩ := PlacementSnapshot.new_ok hs
    exact ⟨hterm, hgen, rfl⟩

theorem commit_cases {snapshot : PlacementSnapshot} (h : p.commit snapshot = .ok p') :
    p.role = .leader ∧ snapshot.term = p.term ∧
      (snapshot.generation = p.committedGeneration ∧ p' = p ∨
        snapshot.generation = p.committedGeneration + 1 ∧
        p.published[snapshot.generation]? = some snapshot ∧
        p' = { p with committedGeneration := snapshot.generation }) := by
  unfold commit at h
  split at h
  · cases h
  next hrole =>
  split at h
  · cases h
  next hterm =>
  refine ⟨not_not.mp hrole, not_not.mp hterm, ?_⟩
  split at h
  · next heq =>
    cases h
    exact Or.inl ⟨heq, rfl⟩
  split at h
  · cases h
  next expected hadd =>
  split at h
  · cases h
  next hgen =>
  have hexp : expected = p.committedGeneration + 1 := by
    unfold checkedAdd at hadd
    split at hadd
    · exact (Option.some.inj hadd).symm
    · cases hadd
  split at h
  · next published hpub =>
    split at h
    · next heq =>
      cases h
      exact Or.inr ⟨(not_not.mp hgen).trans hexp, hpub.trans (by rw [heq]), rfl⟩
    · cases h
  · cases h

/-- **Every call is one of the outcomes.** -/
theorem effect (p : BrainPublisher) (c : PublisherCall) :
    Effect p c (p.call c) (p.publishes c) (p.commits c) := by
  cases c with
  | becomeLeader newTerm =>
    simp only [call, publishes, commits, becomeLeader]
    split
    · exact .refused
    · next hlt => exact .moved (Nat.le_of_lt (Nat.lt_of_not_le hlt))
  | stepDown observedTerm =>
    simp only [call, publishes, commits, stepDown]
    split
    · exact .refused
    · next hle => exact .moved (Nat.le_of_not_lt hle)
  | publishNext assignments =>
    simp only [call, publishes, commits]
    cases hr : p.publishNext assignments with
    | error e => exact .refused
    | ok out =>
      obtain ⟨snapshot, p'⟩ := out
      obtain ⟨hterm, hgen, rfl⟩ := publishNext_made hr
      exact .published hr hterm hgen
  | commit snapshot =>
    simp only [call, publishes, commits]
    cases hr : p.commit snapshot with
    | error e => exact .refused
    | ok p' =>
      obtain ⟨hrole, hterm, ⟨hgen, rfl⟩ | ⟨hgen, hpub, rfl⟩⟩ := commit_cases hr
      · exact .replayed hrole hterm hgen
      · exact .committed hterm hgen hpub

/-! ## The ledger -/

/-- The snapshot was handed out under its number, in the term that the calls lead to. -/
def PublishedIn (p : BrainPublisher) (calls : List PublisherCall) (s : PlacementSnapshot) : Prop :=
  ∃ before assignments after p', calls = before ++ .publishNext assignments :: after ∧
    (p.run before).publishNext assignments = .ok (s, p') ∧
    (p.run before).term = (p.run calls).term

theorem PublishedIn.snoc {s : PlacementSnapshot} (h : PublishedIn p calls s)
    (hterm : (p.run (calls ++ [c])).term = (p.run calls).term) : PublishedIn p (calls ++ [c]) s := by
  obtain ⟨before, assignments, after, p', heq, hok, ht⟩ := h
  exact ⟨before, assignments, after ++ [c], p', by simp [heq], hok, ht.trans hterm.symm⟩

/-- The last snapshot handed out under a number. -/
def latest (p : BrainPublisher) (calls : List PublisherCall) (g : Generation) :
    Option PlacementSnapshot :=
  (ofGeneration g (p.publications calls)).getLast?

/-- What was handed out and committed by the calls so far. -/
structure Ledger (p : BrainPublisher) (calls : List PublisherCall) : Prop where
  le : (p.run calls).committedGeneration ≤ (p.run calls).lastPublishedGeneration
  published : ∀ g s, (p.run calls).published[g]? = some s → s.generation = g ∧
    g ≤ (p.run calls).lastPublishedGeneration ∧ p.PublishedIn calls s ∧ p.latest calls g = some s
  /-- What is committed first is what was handed out last. -/
  first : ∀ g, 1 ≤ g → g ≤ (p.run calls).committedGeneration → ∃ s, p.latest calls g = some s ∧
    (ofGeneration g (p.commitments calls)).head? = some s
  bounded : ∀ s ∈ p.commitments calls, s.generation ≤ (p.run calls).committedGeneration
  chain : List.IsChain (fun a b => b = a ∨ b = a + 1)
    (0 :: (p.commitments calls).map (·.generation))
  last : (0 :: (p.commitments calls).map (·.generation)).getLast? =
    some (p.run calls).committedGeneration

theorem latest_snoc_none (h : (p.run calls).publishes c = none) (g : Generation) :
    p.latest (calls ++ [c]) g = p.latest calls g := by
  rw [latest, publications, recorded_snoc, h]
  simp [latest, publications]

/-- A snapshot handed out leaves every smaller number alone and takes its own. -/
theorem latest_snoc_some {s : PlacementSnapshot} (h : (p.run calls).publishes c = some s)
    (g : Generation) :
    p.latest (calls ++ [c]) g = if s.generation = g then some s else p.latest calls g := by
  rw [latest, publications, recorded_snoc, h]
  split <;> simp [latest, publications, ofGeneration, *]

theorem commitments_snoc (h : (p.run calls).commits c = none) :
    p.commitments (calls ++ [c]) = p.commitments calls := by
  rw [commitments, recorded_snoc, h]
  simp [commitments]

theorem commitments_snoc_some {s : PlacementSnapshot} (h : (p.run calls).commits c = some s) :
    p.commitments (calls ++ [c]) = p.commitments calls ++ [s] := by
  rw [commitments, recorded_snoc, h]
  simp [commitments]

theorem line_snoc (snapshots : List PlacementSnapshot) (s : PlacementSnapshot) :
    0 :: (snapshots ++ [s]).map (·.generation) =
      (0 :: snapshots.map (·.generation)) ++ [s.generation] := by
  rw [List.map_append]
  rfl

/-- A commit of the committed generation or of the next one extends the chain. -/
theorem Ledger.chain_snoc (h : Ledger p calls) {s : PlacementSnapshot}
    (hs : s.generation = (p.run calls).committedGeneration ∨
      s.generation = (p.run calls).committedGeneration + 1) :
    List.IsChain (fun a b => b = a ∨ b = a + 1)
      (0 :: (p.commitments calls ++ [s]).map (·.generation)) := by
  rw [line_snoc]
  refine List.isChain_append.mpr ⟨h.chain, .singleton _, fun a ha b hb => ?_⟩
  rw [h.last] at ha
  cases ha
  cases hb
  exact hs

theorem ofGeneration_snoc_head {g : Generation} {snapshots : List PlacementSnapshot}
    {s t : PlacementSnapshot} (h : (ofGeneration g snapshots).head? = some t) :
    (ofGeneration g (snapshots ++ [s])).head? = some t := by
  unfold ofGeneration at h ⊢
  rw [List.filter_append, List.head?_append, h]
  rfl

/-- A call that hands nothing out and stays in the term leaves what is handed out alone. -/
theorem Ledger.published_snoc (h : Ledger p calls) (hpub : (p.run calls).publishes c = none)
    (hrun : p.run (calls ++ [c]) = p') (hmap : p'.published = (p.run calls).published)
    (hlast : p'.lastPublishedGeneration = (p.run calls).lastPublishedGeneration)
    (hterm : p'.term = (p.run calls).term) {g : Generation} {s : PlacementSnapshot}
    (hs : (p.run (calls ++ [c])).published[g]? = some s) : s.generation = g ∧
      g ≤ (p.run (calls ++ [c])).lastPublishedGeneration ∧ p.PublishedIn (calls ++ [c]) s ∧
      p.latest (calls ++ [c]) g = some s := by
  rw [hrun, hmap] at hs
  obtain ⟨hg, hle, hin, hl⟩ := h.published g s hs
  refine ⟨hg, ?_, hin.snoc (by rw [hrun, hterm]), (latest_snoc_none hpub g).trans hl⟩
  rw [hrun, hlast]
  exact hle

/-- What is committed stays below the committed generation. -/
theorem Ledger.bounded_snoc (h : Ledger p calls) {s : PlacementSnapshot}
    (hle : (p.run calls).committedGeneration ≤ s.generation) :
    ∀ t ∈ p.commitments calls ++ [s], t.generation ≤ s.generation := by
  intro t ht
  rcases List.mem_append.mp ht with ht | ht
  · exact Nat.le_trans (h.bounded t ht) hle
  · rw [List.mem_singleton.mp ht]

/-- The first commit of the next generation is of what was handed out last. -/
theorem Ledger.first_snoc (h : Ledger p calls) {s : PlacementSnapshot}
    (hgen : s.generation = (p.run calls).committedGeneration + 1)
    (hlast : p.latest calls s.generation = some s) {g : Generation} (hpos : 1 ≤ g)
    (hle : g ≤ s.generation) : ∃ t, p.latest calls g = some t ∧
      (ofGeneration g (p.commitments calls ++ [s])).head? = some t := by
  rcases Nat.lt_or_eq_of_le hle with hlt | rfl
  · rw [hgen] at hlt
    obtain ⟨t, ht, hfirst⟩ := h.first g hpos (Nat.le_of_lt_succ hlt)
    exact ⟨t, ht, ofGeneration_snoc_head hfirst⟩
  · -- no commit of this generation was made before
    have hnone : ofGeneration s.generation (p.commitments calls) = [] := by
      refine List.filter_eq_nil_iff.mpr fun t ht => ?_
      have hlt := Nat.lt_succ_of_le (h.bounded t ht)
      simpa [hgen] using Nat.ne_of_lt hlt
    refine ⟨s, hlast, ?_⟩
    unfold ofGeneration at hnone ⊢
    simp [List.filter_append, hnone]

/-- **One more call keeps the ledger.** -/
theorem Ledger.snoc (h : Ledger p calls) (c : PublisherCall) : Ledger p (calls ++ [c]) := by
  have e := (p.run calls).effect c
  have hrun := run_snoc (p := p) calls c
  generalize (p.run calls).call c = p' at e hrun
  generalize hpub : (p.run calls).publishes c = made at e
  generalize hcom : (p.run calls).commits c = done at e
  cases e with
  | refused =>
    have hl := fun g => latest_snoc_none hpub g
    have hc := commitments_snoc hcom
    exact
      { le := hrun ▸ h.le
        published := fun g s hs => h.published_snoc hpub hrun rfl rfl rfl hs
        first := by simpa only [hrun, hl, hc] using h.first
        bounded := by simpa only [hrun, hc] using h.bounded
        chain := by simpa only [hc] using h.chain
        last := by simpa only [hrun, hc] using h.last }
  | moved =>
    have hl := fun g => latest_snoc_none hpub g
    have hc := commitments_snoc hcom
    exact
      { le := by rw [hrun]
        published := fun g s hs => by simp [hrun] at hs
        first := by simpa only [hrun, hl, hc] using h.first
        bounded := by simpa only [hrun, hc] using h.bounded
        chain := by simpa only [hc] using h.chain
        last := by simpa only [hrun, hc] using h.last }
  | @published assignments snapshot hok hterm hgen =>
    have hl := fun g => latest_snoc_some hpub g
    have hc := commitments_snoc hcom
    have hnew : (p.run calls).committedGeneration < snapshot.generation := by
      rw [hgen]
      exact Nat.lt_succ_of_le h.le
    exact
      { le := by
          rw [hrun]
          exact Nat.le_of_lt hnew
        published := fun g s hs => by
          rw [hrun] at hs
          simp only [Std.ExtTreeMap.getElem?_insert, Nat.compare_eq_eq] at hs
          rw [hl]
          split at hs
          · next heq =>
            cases hs
            exact ⟨heq, by simp [hrun, heq], ⟨calls, assignments, [], _, rfl, hok, by rw [hrun]⟩,
              if_pos heq⟩
          · next hne =>
            obtain ⟨hg, hle, hin, hlast⟩ := h.published g s hs
            refine ⟨hg, ?_, hin.snoc (by rw [hrun]), (if_neg hne).trans hlast⟩
            rw [hrun, hgen]
            exact Nat.le_succ_of_le hle
        first := fun g hpos hle => by
          rw [hrun] at hle
          obtain ⟨s, hs, hfirst⟩ := h.first g hpos hle
          refine ⟨s, ?_, hc ▸ hfirst⟩
          rw [hl, if_neg (Nat.ne_of_gt (Nat.lt_of_le_of_lt hle hnew)), hs]
        bounded := by simpa only [hrun, hc] using h.bounded
        chain := by simpa only [hc] using h.chain
        last := by simpa only [hrun, hc] using h.last }
  | @replayed snapshot _ _ hgen =>
    have hl := fun g => latest_snoc_none hpub g
    have hc := commitments_snoc_some hcom
    exact
      { le := hrun ▸ h.le
        published := fun g s hs => h.published_snoc hpub hrun rfl rfl rfl hs
        first := fun g hpos hle => by
          obtain ⟨s, hs, hfirst⟩ := h.first g hpos (hrun ▸ hle)
          exact ⟨s, (hl g).trans hs, hc ▸ ofGeneration_snoc_head hfirst⟩
        bounded := by
          rw [hc, hrun, ← hgen]
          exact h.bounded_snoc (Nat.le_of_eq hgen.symm)
        chain := hc ▸ h.chain_snoc (Or.inl hgen)
        last := by rw [hrun, hc, line_snoc, List.getLast?_concat, hgen] }
  | @committed snapshot hterm hgen hget =>
    have hl := fun g => latest_snoc_none hpub g
    have hc := commitments_snoc_some hcom
    obtain ⟨_, hle, _, hlast⟩ := h.published _ snapshot hget
    exact
      { le := by
          rw [hrun]
          exact hle
        published := fun g s hs => h.published_snoc hpub hrun rfl rfl rfl hs
        first := fun g hpos hle => by
          rw [hrun] at hle
          rw [hl, hc]
          exact h.first_snoc hgen hlast hpos hle
        bounded := by
          rw [hc, hrun]
          exact h.bounded_snoc (by rw [hgen]; exact Nat.le_succ _)
        chain := hc ▸ h.chain_snoc (Or.inr hgen)
        last := by rw [hrun, hc, line_snoc, List.getLast?_concat] }

theorem ledger_new {role : BrainRole} {term : Term} (h : new role term 0 = .ok p)
    (calls : List PublisherCall) : Ledger p calls := by
  obtain ⟨hlast, hcommitted, hpublished⟩ := new_ok h
  induction calls using List.reverseRecOn with
  | nil =>
    exact
      { le := by simp [run, hlast, hcommitted]
        published := fun g s hs => by simp [run, hpublished] at hs
        first := fun g hpos hle => by
          simp only [run, List.foldl_nil, hcommitted] at hle
          exact absurd (Nat.lt_of_lt_of_le hpos hle) (Nat.lt_irrefl 0)
        bounded := nofun
        chain := .singleton 0
        last := by simp [run, commitments, recorded, hcommitted] }
  | append_singleton calls c ih => exact ih.snoc c

/-! ## Agreement -/

/-- The four properties of the commits of a run. -/
structure CommitAgreement (p : BrainPublisher) (calls : List PublisherCall) : Prop where
  agree : ∀ s ∈ p.commitments calls, ∀ t ∈ p.commitments calls, s.generation = t.generation →
    s.assignments = t.assignments
  /-- A first commit is of a snapshot handed out under that number in the term of the commit. -/
  first : ∀ before s after p', calls = before ++ .commit s :: after →
    (p.run before).commit s = .ok p' → (∀ t ∈ p.commitments before, t.generation ≠ s.generation) →
    p.PublishedIn before s
  sequential : (∀ s ∈ p.commitments calls, s.generation ≠ 0) ∧
    List.IsChain (fun a b => b = a ∨ b = a + 1) (0 :: (p.commitments calls).map (·.generation)) ∧
    (0 :: (p.commitments calls).map (·.generation)).getLast? =
      some (p.run calls).committedGeneration
  bounded : ∀ before after, calls = before ++ after →
    (p.run before).committedGeneration ≤ (p.run before).lastPublishedGeneration

/-- Commits of the committed generation repeat the assignments handed out under its number last. -/
def Repeats (p : BrainPublisher) (calls : List PublisherCall) : Prop :=
  ∀ before s after, calls = before ++ .commit s :: after → (p.run before).role = .leader →
    s.term = (p.run before).term → s.generation = (p.run before).committedGeneration →
    ∀ t, p.latest before s.generation = some t → s.assignments = t.assignments

theorem commit_of_replay {s : PlacementSnapshot} (hrole : p.role = .leader) (hterm : s.term = p.term)
    (hgen : s.generation = p.committedGeneration) : p.commit s = .ok p := by
  unfold commit
  rw [if_neg (not_not.mpr hrole), if_neg (not_not.mpr hterm), if_pos hgen]

theorem commits_eq_some {s t : PlacementSnapshot} :
    p.commits (.commit s) = some t ↔ s = t ∧ ∃ p', p.commit s = .ok p' := by
  simp only [commits]
  cases p.commit s with
  | error e => simp [Except.map, Except.toOption]
  | ok p' => simp [Except.map, Except.toOption]

theorem mem_commitments {s : PlacementSnapshot} : s ∈ p.commitments calls ↔
    ∃ before after p', calls = before ++ .commit s :: after ∧ (p.run before).commit s = .ok p' := by
  unfold commitments
  induction calls generalizing p with
  | nil => simp [recorded]
  | cons c rest ih =>
    rw [recorded, List.mem_append, ih]
    constructor
    · rintro (hs | ⟨before, after, p', rfl, hok⟩)
      · cases c with
        | commit t =>
          obtain ⟨rfl, p', hok⟩ := commits_eq_some.mp (Option.mem_toList.mp hs)
          exact ⟨[], rest, p', rfl, hok⟩
        | _ => simp [commits] at hs
      · exact ⟨c :: before, after, p', rfl, hok⟩
    · rintro ⟨before, after, p', heq, hok⟩
      cases before with
      | nil =>
        cases heq
        exact Or.inl (Option.mem_toList.mpr (commits_eq_some.mpr ⟨rfl, p', hok⟩))
      | cons b before =>
        cases heq
        exact Or.inr ⟨before, after, p', rfl, hok⟩

/-- A generation that is committed has a first commit, of what was handed out under it last. -/
theorem Ledger.committed_first (h : Ledger p calls) {g : Generation} (hpos : g ≠ 0)
    (hle : g ≤ (p.run calls).committedGeneration) :
    ∃ s ∈ p.commitments calls, s.generation = g ∧ p.latest calls g = some s := by
  obtain ⟨s, hs, hfirst⟩ := h.first g (Nat.one_le_iff_ne_zero.mpr hpos) hle
  have hmem := List.mem_filter.mp (List.mem_of_mem_head? hfirst)
  exact ⟨s, hmem.1, of_decide_eq_true hmem.2, hs⟩

theorem Repeats.of_append {more : List PublisherCall} (h : Repeats p (calls ++ more)) :
    Repeats p calls := by
  rintro before s after rfl
  exact h before s (after ++ more) (by simp)

/-- Under `Repeats`, what is committed under a number assigns what was handed out under it last. -/
theorem Repeats.latest {role : BrainRole} {term : Term} (h : new role term 0 = .ok p)
    (hv : ∀ s, .commit s ∈ calls → s.generation ≠ 0) (hr : Repeats p calls) :
    ∀ s ∈ p.commitments calls, ∃ t, p.latest calls s.generation = some t ∧
      s.assignments = t.assignments := by
  induction calls using List.reverseRecOn with
  | nil => simp [commitments, recorded]
  | append_singleton calls c ih =>
    have hl := ledger_new h calls
    specialize ih (fun s hs => hv s (List.mem_append_left _ hs)) hr.of_append
    have e := (p.run calls).effect c
    have hrun := run_snoc (p := p) calls c
    generalize (p.run calls).call c = p' at e hrun
    generalize hpub : (p.run calls).publishes c = made at e
    generalize hcom : (p.run calls).commits c = done at e
    cases e with
    | refused | moved =>
      simp only [commitments_snoc hcom, latest_snoc_none hpub]
      exact ih
    | @published _ snapshot _ _ hgen =>
      simp only [commitments_snoc hcom, latest_snoc_some hpub]
      intro s hs
      have hlt : s.generation < snapshot.generation := by
        rw [hgen]
        exact Nat.lt_succ_of_le (Nat.le_trans (hl.bounded s hs) hl.le)
      rw [if_neg (Nat.ne_of_gt hlt)]
      exact ih s hs
    | @replayed snapshot hrole hterm hgen =>
      simp only [commitments_snoc_some hcom, latest_snoc_none hpub]
      intro s hs
      rcases List.mem_append.mp hs with hs | hs
      · exact ih s hs
      · rw [List.mem_singleton.mp hs]
        have hne := hv snapshot (by simp)
        obtain ⟨t, _, _, ht⟩ := hl.committed_first hne (Nat.le_of_eq hgen)
        exact ⟨t, ht, hr calls snapshot [] rfl hrole hterm hgen t ht⟩
    | @committed snapshot _ _ hget =>
      simp only [commitments_snoc_some hcom, latest_snoc_none hpub]
      intro s hs
      rcases List.mem_append.mp hs with hs | hs
      · exact ih s hs
      · rw [List.mem_singleton.mp hs]
        exact ⟨snapshot, (hl.published _ snapshot hget).2.2.2, rfl⟩

/-- **The four properties hold exactly when commits of the committed generation repeat what was
handed out under its number.** -/
theorem commit_agreement_iff {role : BrainRole} {term : Term} (h : new role term 0 = .ok p)
    (hv : ∀ s, .commit s ∈ calls → s.Valid) : CommitAgreement p calls ↔ Repeats p calls := by
  have hne : ∀ s, .commit s ∈ calls → s.generation ≠ 0 := by
    intro s hs
    obtain ⟨term, generation, assignments, hnew⟩ := hv s hs
    exact (PlacementSnapshot.new_ok hnew).2.2
  constructor
  · rintro hag before s after rfl hrole hterm hgen t ht
    have hl := ledger_new h before
    have hs := mem_commitments.mpr ⟨before, after, _, rfl, commit_of_replay hrole hterm hgen⟩
    obtain ⟨t', htmem, htgen, ht'⟩ :=
      hl.committed_first (hne s (by simp)) (Nat.le_of_eq hgen)
    rw [ht] at ht'
    cases ht'
    refine hag.agree s hs t ?_ htgen.symm
    rw [commitments, recorded_append]
    exact List.mem_append_left _ htmem
  · intro hr
    have hl := ledger_new h calls
    have hlatest := hr.latest h hne
    refine ⟨?_, ?_, ⟨?_, hl.chain, hl.last⟩, ?_⟩
    · intro s hs t ht hgen
      obtain ⟨s', hs', hsa⟩ := hlatest s hs
      obtain ⟨t', ht', hta⟩ := hlatest t ht
      rw [hgen, ht'] at hs'
      cases hs'
      exact hsa.trans hta.symm
    · rintro before s after p' rfl hok hfirst
      have hlb := ledger_new h before
      obtain ⟨_, _, ⟨hgen, _⟩ | ⟨_, hget, _⟩⟩ := commit_cases hok
      · -- the committed generation was committed before
        obtain ⟨t, htmem, htgen, _⟩ := hlb.committed_first (hne s (by simp)) (Nat.le_of_eq hgen)
        exact absurd htgen (hfirst t htmem)
      · exact (hlb.published _ s hget).2.2.1
    · intro s hs
      obtain ⟨before, after, _, rfl, _⟩ := mem_commitments.mp hs
      exact hne s (by simp)
    · rintro before after rfl
      exact (ledger_new h before).le

/-! ## Two runs of the first leader -/

/-- Shard 7 on node `n`, as generation 1 of term 1. -/
def firstPlacement (n : NodeId) : PlacementSnapshot where
  term := 1
  generation := 1
  assignments := .ofList [(7, {n})]

theorem firstPlacement_valid (n : NodeId) : (firstPlacement n).Valid :=
  ⟨1, 1, .ofList [(7, [n])], rfl⟩

def firstLeader : BrainPublisher where
  role := .leader
  term := 1
  lastPublishedGeneration := 0
  committedGeneration := 0
  published := ∅

/-- Generation 1 is published on node 1 and committed, and then committed on node `n`. -/
def committedAgain (n : NodeId) : List PublisherCall :=
  [.publishNext (.ofList [(7, [1])]), .commit (firstPlacement 1), .commit (firstPlacement n)]

theorem committedAgain_valid (n : NodeId) : ∀ s, .commit s ∈ committedAgain n → s.Valid := by
  intro s hs
  simp only [committedAgain, List.mem_cons, PublisherCall.commit.injEq, List.not_mem_nil, or_false,
    reduceCtorEq, false_or] at hs
  rcases hs with rfl | rfl
  · exact firstPlacement_valid 1
  · exact firstPlacement_valid n

theorem commit_agreement_iff_first : CommitAgreement firstLeader (committedAgain 1) := by
  refine (commit_agreement_iff (rfl : new .leader 1 0 = .ok firstLeader)
    (committedAgain_valid 1)).mpr ?_
  intro before s after heq _ _ hgen t ht
  rcases before with _ | ⟨c₀, _ | ⟨c₁, _ | ⟨c₂, rest⟩⟩⟩
  · cases heq
  · -- the first commit, of a generation that is not committed yet
    cases heq
    exact absurd hgen (by decide +kernel)
  · cases heq
    have hlatest : firstLeader.latest
        [.publishNext (.ofList [(7, [1])]), .commit (firstPlacement 1)] 1
          = some (firstPlacement 1) := by decide +kernel
    cases hlatest.symm.trans ht
    rfl
  · simp [committedAgain] at heq

/-- **Generation 1 is committed twice, with different contents.** -/
theorem conflicting_commit_accepted :
    new .leader 1 0 = .ok firstLeader ∧ (∀ s, .commit s ∈ committedAgain 2 → s.Valid) ∧
    ¬ CommitAgreement firstLeader (committedAgain 2) := by
  refine ⟨rfl, committedAgain_valid 2, fun h => ?_⟩
  have hag := h.agree (firstPlacement 1) (by decide +kernel) (firstPlacement 2) (by decide +kernel) rfl
  exact absurd hag (by decide +kernel)

end BrainPublisher

end FiduciaBrain.Composition
