import FiduciaBrain.RaftDriver.Traced
import FiduciaBrain.Raft.Answers

/-!
# Persisting before acknowledging

A save writes the engine's durable state as it is when the IO lock is taken, and `ready()` asks for a
save when the engine changed since the last one. So the state in the store is as old as the read it
came from, and it backs an answer if every `Ready` up to the answer's own that asked for a save was
taken before that read (`Snap`). The drain that carries the answer waits for a save of its own if it
asked for one, and for nobody's if it did not.
-/

namespace FiduciaBrain.RaftDriver

open Infra

/-! ## A member and the reads behind its saves -/

/-- A member, with the number of `Ready`s that had been taken when the state in the store was read
from the engine, and when the state was read that the holder of the IO lock is saving. Both are
history and feed back into nothing. -/
structure Recorded where
  driver : Driver
  stored : Nat
  reading : Nat

def Driver.stageOf (d : Driver) (k : Nat) : Option Stage := d.drains[k]?.map Drain.stage

/-- What is remembered behind an action that leads to `d'`. -/
def Recorded.next (w : Recorded) (d' : Driver) : Action → Recorded
  | .advance k _ =>
    match w.driver.stageOf k, d'.stageOf k with
    | some .persisting, some (.saving _) =>
      { driver := d', stored := w.stored, reading := w.driver.drains.length }
    | some (.saving _), some .applying =>
      { driver := d', stored := w.reading, reading := w.reading }
    | some (.installing _), some .releasing =>
      { driver := d', stored := w.driver.drains.length, reading := w.reading }
    | _, _ => { driver := d', stored := w.stored, reading := w.reading }
  | _ => { driver := d', stored := w.stored, reading := w.reading }

/-- A member under any interleaving of its threads in which every action meets `Guard`. -/
def recordedSystem (S : Setup) (Guard : Recorded → Action → Prop) : TransitionSystem Recorded where
  init w := w.driver.Starts S ∧ w.stored = 0 ∧ w.reading = 0
  step w w' := ∃ a d', Guard w a ∧ w.driver.act S a = some d' ∧ w' = w.next d' a

/-- Every `Ready` before the `k`-th that asks for a save is one of the first `v`. -/
def Covered (d : Driver) (v k : Nat) : Prop :=
  ∀ j < k, ∀ rd, d.readies[j]? = some rd → rd.persist.isSome = true → j < v

/-- A drain whose own `Ready` asks for no save releases answers that commit the member only when the
state in the store was read behind the last `Ready` that asked for one. -/
def ReleasesSaved (w : Recorded) : Action → Prop
  | .advance k _ => ∀ dr, w.driver.drains[k]? = some dr → dr.stage = .releasing →
    dr.ready.persist = none → (∃ a ∈ dr.ready.messages, a.msg.commits = true) →
    Covered w.driver w.stored k
  | _ => True

/-- Does the next step read the engine's state for the store? -/
def Stage.reads : Stage → Bool
  | .persisting | .installing _ => true
  | _ => false

/-- What is read for the store backs the answers that are still to be released: the engine has not
dropped the entries since, nor left the term of the vote. -/
def ReadsBacked (w : Recorded) : Action → Prop
  | .advance k _ => ∀ dr, w.driver.drains[k]? = some dr → dr.stage.reads = true →
    w.driver.store.isSome = true → w.driver.ioLock = none → w.driver.available = true →
    ∀ x ∈ w.driver.drains, x.stage.rank ≤ Stage.releasing.rank → ∀ a ∈ x.ready.messages,
      w.driver.engine.persistedSnapshot.Backs x.taken a
  | _ => True

variable {S : Setup} {d d' : Driver} {k : Nat} {dr : Drain}

/-! ## What a step does to the store -/

/-- What the next step of drain `k` does to the engine and to the store. -/
inductive Stored (d : Driver) (k : Nat) (dr : Drain) (d' : Driver) : Prop
  | moved (dr' : Drain) : d'.engine = d.engine → d'.store = d.store →
      d'.drains = d.drains.set k dr' → dr'.ready = dr.ready → dr'.taken = dr.taken →
      dr.stage.rank ≤ dr'.stage.rank → dr'.stage.holdsIo = false →
      (dr.stage.holdsIo = true ∨ (∃ data, dr.stage = .installing data) → dr'.stage = .failed) →
      (dr'.stage = .persisting → d.store.isSome = true) →
      (3 ≤ dr'.stage.rank → dr'.stage.rank ≤ Stage.releasing.rank →
        3 ≤ dr.stage.rank ∨ dr.ready.persist = none ∨ d.store = none) → Stored d k dr d'
  | read : dr.stage = .persisting → d.ioLock = none → d.available = true →
      d' = { d with ioLock := some k }.goto k dr (.saving d.engine.persistedSnapshot) →
      Stored d k dr d'
  | wrote (p : Persisted) : dr.stage = .saving p →
      d' = { d with ioLock := none, store := some p }.goto k { dr with unsaved := false }
        .applying → Stored d k dr d'
  | folded (data : Bytes) : dr.stage = .installing data → d.store.isSome = true →
      d.ioLock = none → d.available = true →
      d' = { d with
        store := some (d.engine.compact dr.ready.appliedUpto data).persistedSnapshot
        engine := d.engine.compact dr.ready.appliedUpto data }.goto k dr .releasing →
      Stored d k dr d'
  | bare : d.store = none → d'.store = none →
      (∃ dr', d'.drains = d.drains.set k dr' ∧ dr'.stage = .releasing) → Stored d k dr d'
  | waiting : d' = d → dr.stage.holdsIo = false → (∀ data, dr.stage ≠ .installing data) →
      dr.stage ≠ .persisting → Stored d k dr d'

theorem stored_enter (hstage : dr.stage = .entered) : Stored d k dr (d.enter k dr) := by
  have fits : ∀ stage : Stage, stage.holdsIo = false →
      (stage = .persisting → d.store.isSome = true) →
      (3 ≤ stage.rank → stage.rank ≤ Stage.releasing.rank →
        dr.ready.persist = none ∨ d.store = none) → Stored d k dr (d.goto k dr stage) := by
    intro stage hio hqueue hskip
    refine .moved { dr with stage := stage } rfl rfl rfl rfl rfl ?_ hio ?_ hqueue
      (fun h h' => .inr (hskip h h'))
    · rw [hstage]
      exact Nat.zero_le _
    · rintro (h | ⟨data, h⟩) <;> simp [hstage, Stage.holdsIo] at h
  unfold Driver.enter
  split
  · exact fits .failed rfl (by simp) (by simp [Stage.rank])
  split
  · next hasks =>
    rw [Bool.and_eq_true] at hasks
    exact fits .persisting rfl (fun _ => hasks.2) (by simp [Stage.rank])
  · next hnot =>
    refine fits .applying rfl (by simp) (fun _ _ => ?_)
    cases hp : dr.ready.persist with
    | none => exact .inl rfl
    | some p => exact .inr (by simpa [hp] using hnot)

theorem stored_lockIo (hstage : dr.stage = .persisting) (h : d.lockIo k dr = some d') :
    Stored d k dr d' := by
  unfold Driver.lockIo at h
  split at h
  · cases h
  next hlock =>
  split at h <;> cases h
  · refine .moved { dr with stage := .failed } rfl rfl rfl rfl rfl ?_ rfl (fun _ => rfl) (by simp)
      (by simp [Stage.rank])
    rw [hstage]
    simp [Stage.rank]
  · next hup => exact .read hstage (by simpa using hlock) (by simpa using hup) rfl

theorem stored_install {data : Bytes} {ok : Bool} (hstage : dr.stage = .installing data)
    (h : d.install k dr data ok = some d') : Stored d k dr d' := by
  have fails : ∀ d' : Driver, d'.engine = d.engine → d'.store = d.store →
      d'.drains = d.drains.set k { dr with stage := .failed } → Stored d k dr d' := by
    intro d' hengine hstore hdrains
    refine .moved { dr with stage := .failed } hengine hstore hdrains rfl rfl ?_ rfl (fun _ => rfl)
      (by simp) (by simp [Stage.rank])
    exact Stage.rank_le_failed _
  unfold Driver.install at h
  simp only at h
  split at h
  · next hstore =>
    cases h
    have hnone : d.store = none := by simpa using hstore
    exact .bare hnone hnone ⟨_, rfl, rfl⟩
  next hstore =>
  split at h
  · cases h
  next hlock =>
  split at h
  · cases h
    exact fails _ rfl rfl rfl
  next hup =>
  split at h <;> cases h
  · exact .folded data hstage (by simpa [Option.isSome_iff_ne_none] using hstore)
      (by simpa using hlock) (by simpa using hup) rfl
  · exact fails _ rfl rfl rfl

theorem stored_save {p : Persisted} {ok : Bool} (hstage : dr.stage = .saving p) :
    Stored d k dr (d.save k dr p ok) := by
  unfold Driver.save
  simp only
  split
  · exact .wrote p hstage rfl
  · exact .moved { dr with stage := .failed } rfl rfl rfl rfl rfl (Stage.rank_le_failed _) rfl
      (fun _ => rfl) (by simp) (by simp [Stage.rank])

/-- A step that neither queues for the store nor reads or writes for it. -/
theorem stored_of_advanced (ha : Advanced S d k dr d') (hrank : 3 ≤ dr.stage.rank)
    (hinstall : ∀ data, dr.stage ≠ .installing data) : Stored d k dr d' := by
  have hio : dr.stage.holdsIo = false := by
    cases hstage : dr.stage <;> simp_all [Stage.rank, Stage.holdsIo]
  have fits : ∀ dr' : Drain, d'.engine = d.engine → d'.store = d.store →
      d'.drains = d.drains.set k dr' → dr'.ready = dr.ready → dr'.taken = dr.taken →
      dr.stage.rank ≤ dr'.stage.rank → dr'.stage.holdsIo = false → Stored d k dr d' := by
    intro dr' hengine hstore hdrains hready htaken hle hio'
    refine .moved dr' hengine hstore hdrains hready htaken hle hio' ?_ ?_ (fun _ _ => .inl hrank)
    · rintro (h | ⟨data, h⟩)
      · rw [hio] at h
        cases h
      · exact absurd h (hinstall data)
    · intro h
      rw [h] at hle
      exact absurd (hrank.trans hle) (by simp [Stage.rank])
  cases ha with
  | quiet stage available _ _ hbare hle _ =>
    refine fits { dr with stage := stage } rfl rfl rfl rfl rfl hle ?_
    cases stage <;> simp_all [Stage.bare, Stage.holdsIo]
  | gotIo hstage _ => simp [hstage, Stage.rank] at hrank
  | saved _ hstage _ => simp [hstage, Stage.rank] at hrank
  | lost _ hstage => simp [hstage, Stage.rank] at hrank
  | restore data snapshot hstage _ _ _ _ =>
    exact fits { dr with stage := .restoring snapshot.plan } rfl rfl rfl rfl rfl
      (by simp [hstage, Stage.rank]) rfl
  | stale _ hstage _ _ =>
    exact fits { dr with unapplied := false, stage := .compacting } rfl rfl rfl rfl rfl
      (by simp [hstage, Stage.rank]) rfl
  | batch hstage _ _ _ _ =>
    exact fits { dr with
      stage := .committing (dr.ready.committed.filter fun c => c.1 > d.applyWatermark) } rfl rfl rfl
      rfl rfl (by simp [hstage, Stage.rank]) rfl
  | restored _ hstage =>
    exact fits { dr with stage := .committing dr.ready.committed } rfl rfl rfl rfl rfl
      (by simp [hstage, Stage.rank]) rfl
  | applied _ _ todo hstage =>
    exact fits { dr with stage := .committing todo } rfl rfl rfl rfl rfl
      (by simp [hstage, Stage.rank]) rfl
  | finished hstage =>
    exact fits { dr with unapplied := false, stage := .compacting } rfl rfl rfl rfl rfl
      (by simp [hstage, Stage.rank]) rfl
  | readShards hstage =>
    exact fits { dr with stage := .readingPlan d.sm.placement.snapshot } rfl rfl rfl rfl rfl
      (by simp [hstage, Stage.rank]) rfl
  | readPlan _ data hstage _ =>
    exact fits { dr with stage := .installing data } rfl rfl rfl rfl rfl
      (by simp [hstage, Stage.rank]) rfl
  | compacted data hstage _ => exact absurd hstage (hinstall data)
  | waiting => exact .waiting rfl hio hinstall (by rintro h; simp [h, Stage.rank] at hrank)

/-- **What a step of a drain does to the store.** -/
theorem stored_of_advance {ok : Bool} (h : d.advance S k dr ok = some d') : Stored d k dr d' := by
  have hadvanced := advanced_of_advance h
  cases hstage : dr.stage with
  | entered =>
    rw [Driver.advance, hstage] at h
    cases h
    exact stored_enter hstage
  | persisting =>
    rw [Driver.advance, hstage] at h
    exact stored_lockIo hstage h
  | saving p =>
    rw [Driver.advance, hstage] at h
    cases h
    exact stored_save hstage
  | installing data =>
    rw [Driver.advance, hstage] at h
    exact stored_install hstage h
  | _ => exact stored_of_advanced hadvanced (by simp [hstage, Stage.rank]) (by simp [hstage])

/-! ## States that were read from the engine -/

/-- `p` is the engine's durable state as it was when `v` `Ready`s had been taken: it is what the
engine has now if none that asks for a save came behind, and it backs the answers it covers. -/
structure Snap (d : Driver) (p : Persisted) (v : Nat) : Prop where
  le : v ≤ d.drains.length
  same : Covered d v d.drains.length → p = d.engine.persistedSnapshot
  backs : ∀ (k : Nat) (dr : Drain), d.drains[k]? = some dr →
    dr.stage.rank ≤ Stage.releasing.rank → Covered d v (k + 1) →
    ∀ a ∈ dr.ready.messages, p.Backs dr.taken a

theorem Covered.congr {v k : Nat} (h : d'.readies = d.readies) (hc : Covered d' v k) :
    Covered d v k := by
  intro j hj rd hrd
  exact hc j hj rd (h ▸ hrd)

theorem Covered.mono {v v' k : Nat} (hv : v ≤ v') (h : Covered d v k) : Covered d v' k :=
  fun j hj rd hrd hasks => (h j hj rd hrd hasks).trans_le hv

theorem getElem?_readies (hk : d.drains[k]? = some dr) : d.readies[k]? = some dr.ready := by
  rw [Driver.readies, List.getElem?_map, hk, Option.map_some]

theorem Snap.congr {p : Persisted} {v : Nat} (h : Snap d p v) (hengine : d'.engine = d.engine)
    (hdrains : d'.drains = d.drains) : Snap d' p v := by
  have hreadies : d'.readies = d.readies := by rw [Driver.readies, Driver.readies, hdrains]
  refine ⟨hdrains ▸ h.le, fun hc => ?_, fun j x hj hx hc => ?_⟩
  · rw [hdrains] at hc
    rw [hengine]
    exact h.same (hc.congr hreadies)
  · exact h.backs j x (hdrains ▸ hj) hx (hc.congr hreadies)

/-- A drain moves on. -/
theorem Snap.moved {p : Persisted} {v : Nat} (h : Snap d p v) (hk : d.drains[k]? = some dr)
    {dr' : Drain} (hengine : d'.engine = d.engine) (hdrains : d'.drains = d.drains.set k dr')
    (hready : dr'.ready = dr.ready) (htaken : dr'.taken = dr.taken)
    (hrank : dr.stage.rank ≤ dr'.stage.rank) : Snap d' p v := by
  have hreadies : d'.readies = d.readies := by
    rw [Driver.readies, hdrains]
    exact readies_set hk hready
  have hlen : d'.drains.length = d.drains.length := by rw [hdrains, List.length_set]
  refine ⟨hlen ▸ h.le, fun hc => ?_, fun j x hj hx hc => ?_⟩
  · rw [hlen] at hc
    rw [hengine]
    exact h.same (hc.congr hreadies)
  · rw [hdrains] at hj
    rcases getElem?_set_cases hj with ⟨rfl, rfl⟩ | ⟨_, hj⟩
    · rw [hready, htaken]
      exact h.backs _ dr hk (hrank.trans hx) (hc.congr hreadies)
    · exact h.backs j x hj hx (hc.congr hreadies)

/-- A call hands out a `Ready`. What it answers is backed by the engine's new state, which is the old
one unless the `Ready` asks for a save. -/
theorem Snap.hand {p : Persisted} {v : Nat} (h : Snap d p v) (hinv : DriverInv d)
    {i : Raft.Input} (ha : d.engine.Admissible i) (replyTo : Option NodeId)
    (waiter : Option (Nat × Nat)) :
    Snap (d.hand (d.engine.run i) replyTo waiter) p v := by
  have hreadies : (d.hand (d.engine.run i) replyTo waiter).readies
      = d.readies ++ [(d.engine.run i).ready.1] := by
    simp [Driver.readies, Driver.hand]
  have hlen : (d.hand (d.engine.run i) replyTo waiter).drains.length = d.drains.length + 1 := by
    simp [Driver.hand]
  have hlength : d.readies.length = d.drains.length := List.length_map _
  have old : ∀ n ≤ d.drains.length, Covered (d.hand (d.engine.run i) replyTo waiter) v n →
      Covered d v n := by
    intro n hn hc j hj rd hrd
    refine hc j hj rd ?_
    rw [hreadies, List.getElem?_append_left (by omega)]
    exact hrd
  -- the new `Ready` is only covered when it asks for no save
  have hsame : Covered (d.hand (d.engine.run i) replyTo waiter) v (d.drains.length + 1) →
      p = (d.engine.run i).ready.2.persistedSnapshot := by
    intro hc
    have hclean : (d.engine.run i).dirty = false := by
      by_contra hdirty
      have hlast := hc d.drains.length (Nat.lt_succ_self _) (d.engine.run i).ready.1
        (by rw [hreadies, ← hlength, List.getElem?_concat_length])
        (by simp [Raft.ready, hdirty])
      exact absurd (hlast.trans_le h.le) (lt_irrefl _)
    have hbefore := h.same (old _ (le_refl _) (fun j hj => hc j (Nat.lt_succ_of_lt hj)))
    exact hbefore.trans (Raft.persistedSnapshot_run hinv.wellFormed hclean).2.symm
  refine ⟨by rw [hlen]; exact Nat.le_succ_of_le h.le, ?_, ?_⟩
  · intro hc
    rw [hlen] at hc
    exact hsame hc
  · intro k dr hk hrank hc a hmem
    rcases getElem?_concat_cases hk with ⟨rfl, rfl⟩ | hk
    · rw [hsame hc]
      exact Raft.backs_run hinv.wellFormed hinv.out ha a hmem
    · have hlt : k < d.drains.length := (List.getElem?_eq_some_iff.mp hk).1
      exact h.backs k dr hk hrank (old _ hlt hc) a hmem

/-! ## Compaction keeps what is backed -/

theorem backs_compact {r : Raft} (h : r.WellFormed) (index : Nat) (data : Bytes)
    {taken : Persisted} {a : Addressed} (hb : r.persistedSnapshot.Backs taken a) :
    (r.compact index data).persistedSnapshot.Backs taken a := by
  unfold Raft.compact
  split
  · exact hb
  next hcut =>
  have contains : ∀ {n : Nat}, r.persistedSnapshot.Contains taken n → Persisted.Contains
      { r.persistedSnapshot with
        log := r.log.drop (index - r.baseIndex)
        baseIndex := index
        baseTerm := r.termAt index
        snapshot := some data } taken n := by
    intro n hn j hj hpos
    rcases hn j hj hpos with hbase | ⟨e, he, hidx, hlog⟩
    · have hold : j ≤ r.baseIndex := hbase
      exact .inl (show j ≤ index by omega)
    · rcases Nat.lt_or_ge index j with hlt | hle
      · refine .inr ⟨e, he, hidx, ?_⟩
        have hlog' : e ∈ r.log := hlog
        obtain ⟨q, hq, rfl⟩ := List.getElem_of_mem hlog'
        have hindex : r.log[q].index = r.baseIndex + q + 1 := h.log_valid.index_eq hq
        refine List.mem_drop_iff_getElem.mpr ⟨q - (index - r.baseIndex), by omega, ?_⟩
        congr 1
        omega
      · exact .inl hle
  unfold Persisted.Backs at hb ⊢
  split
  · next resp hmsg =>
    rw [hmsg] at hb
    exact fun hs => contains (hb hs)
  · next resp hmsg =>
    rw [hmsg] at hb
    exact fun hs => contains (hb hs)
  · next resp hmsg =>
    rw [hmsg] at hb
    exact hb
  all_goals trivial

/-! ## The invariant -/

/-- The state in the store and the state that is being saved were read from the engine, and a drain
that asked for a save and is past it has it. -/
structure Saved (w : Recorded) : Prop where
  inv : DriverInv w.driver
  bare : w.driver.store = none → ∀ (k : Nat) (dr : Drain), w.driver.drains[k]? = some dr →
    dr.stage ≠ .persisting ∧ dr.stage.holdsIo = false
  store : ∀ p, w.driver.store = some p → Snap w.driver p w.stored
  reading : ∀ (k : Nat) (dr : Drain) (p : Persisted), w.driver.drains[k]? = some dr →
    dr.stage = .saving p → k < w.reading ∧ w.stored ≤ w.reading ∧ Snap w.driver p w.reading
  saved : w.driver.store.isSome = true → ∀ (k : Nat) (dr : Drain), w.driver.drains[k]? = some dr →
    dr.ready.persist.isSome = true → 3 ≤ dr.stage.rank →
    dr.stage.rank ≤ Stage.releasing.rank → k < w.stored

theorem stageOf_of_getElem? (hk : d.drains[k]? = some dr) : d.stageOf k = some dr.stage := by
  rw [Driver.stageOf, hk, Option.map_some]

theorem getElem?_set_of_getElem? {dr' : Drain} (hk : d.drains[k]? = some dr)
    (hdrains : d'.drains = d.drains.set k dr') : d'.drains[k]? = some dr' := by
  rw [hdrains, List.getElem?_set_self (List.getElem?_eq_some_iff.mp hk).1]

@[simp] theorem next_driver (w : Recorded) (d' : Driver) (a : Action) :
    (w.next d' a).driver = d' := by
  unfold Recorded.next
  split
  · split <;> rfl
  · rfl

variable {w : Recorded}

/-- Nothing was read for the store and nothing was written to it. -/
theorem next_of_quiet {ok : Bool} {s s' : Stage} (h : w.driver.stageOf k = some s)
    (h' : d'.stageOf k = some s') (hio : s'.holdsIo = false)
    (hfrom : s.holdsIo = true ∨ (∃ data, s = .installing data) → s' = .failed) :
    w.next d' (.advance k ok) = { driver := d', stored := w.stored, reading := w.reading } := by
  simp only [Recorded.next, h, h']
  split
  · next heq =>
    cases heq
    cases hio
  · next hs hs' =>
    cases hs
    cases hs'
    cases hfrom (.inl rfl)
  · next hs hs' =>
    cases hs
    cases hs'
    cases hfrom (.inr ⟨_, rfl⟩)
  · rfl

namespace Saved

/-- A step that leaves the engine and the store alone. -/
theorem moved (hw : Saved w) (hk : w.driver.drains[k]? = some dr) (hinv : DriverInv d')
    {dr' : Drain} (hengine : d'.engine = w.driver.engine) (hstore : d'.store = w.driver.store)
    (hdrains : d'.drains = w.driver.drains.set k dr') (hready : dr'.ready = dr.ready)
    (htaken : dr'.taken = dr.taken) (hrank : dr.stage.rank ≤ dr'.stage.rank)
    (hio : dr'.stage.holdsIo = false)
    (hqueue : dr'.stage = .persisting → w.driver.store.isSome = true)
    (hskip : 3 ≤ dr'.stage.rank → dr'.stage.rank ≤ Stage.releasing.rank →
      3 ≤ dr.stage.rank ∨ dr.ready.persist = none ∨ w.driver.store = none) :
    Saved { driver := d', stored := w.stored, reading := w.reading } where
  inv := hinv
  bare := by
    intro hnone j x hj
    simp only [hdrains] at hj
    rcases getElem?_set_cases hj with ⟨rfl, rfl⟩ | ⟨_, hj⟩
    · refine ⟨fun hstage => ?_, hio⟩
      have hsome := hqueue hstage
      rw [← hstore, hnone] at hsome
      cases hsome
    · exact hw.bare (hstore ▸ hnone) j x hj
  store := by
    intro p hp
    exact (hw.store p (hstore ▸ hp)).moved hk hengine hdrains hready htaken hrank
  reading := by
    intro j x p hj hx
    simp only [hdrains] at hj
    rcases getElem?_set_cases hj with ⟨rfl, rfl⟩ | ⟨_, hj⟩
    · rw [hx] at hio
      cases hio
    · obtain ⟨h1, h2, h3⟩ := hw.reading j x p hj hx
      exact ⟨h1, h2, h3.moved hk hengine hdrains hready htaken hrank⟩
  saved := by
    intro hsome j x hj hasks hx hx'
    simp only [hstore] at hsome
    simp only [hdrains] at hj
    rcases getElem?_set_cases hj with ⟨rfl, rfl⟩ | ⟨_, hj⟩
    · rw [hready] at hasks
      rcases hskip hx hx' with hpast | hnone | hnone
      · exact hw.saved hsome _ dr hk hasks hpast (hrank.trans hx')
      · rw [hnone] at hasks
        cases hasks
      · rw [hnone] at hsome
        cases hsome
    · exact hw.saved hsome j x hj hasks hx hx'

/-- A step that leaves the engine, the store and the drains alone. -/
theorem congr (hw : Saved w) (hinv : DriverInv d') (hengine : d'.engine = w.driver.engine)
    (hstore : d'.store = w.driver.store) (hdrains : d'.drains = w.driver.drains) :
    Saved { driver := d', stored := w.stored, reading := w.reading } where
  inv := hinv
  bare := fun hnone k dr hk => hw.bare (hstore ▸ hnone) k dr (hdrains ▸ hk)
  store := fun p hp => (hw.store p (hstore ▸ hp)).congr hengine hdrains
  reading := fun k dr p hk hx => by
    obtain ⟨hown, hle, hsnap⟩ := hw.reading k dr p (hdrains ▸ hk) hx
    exact ⟨hown, hle, hsnap.congr hengine hdrains⟩
  saved := fun hsome k dr hk => hw.saved (hstore ▸ hsome) k dr (hdrains ▸ hk)

/-- Who is at the store has one. -/
theorem isSome_store (hw : Saved w) (hk : w.driver.drains[k]? = some dr)
    (h : dr.stage = .persisting ∨ dr.stage.holdsIo = true) : w.driver.store.isSome = true := by
  rw [Option.isSome_iff_ne_none]
  intro hnone
  obtain ⟨hqueue, hio⟩ := hw.bare hnone k dr hk
  rcases h with h | h
  · exact hqueue h
  · rw [hio] at h
    cases h

/-- Nobody but the holder of the IO lock has read a state. -/
theorem alone (hw : Saved w) {j : Nat} {x : Drain} {p : Persisted}
    (hfree : w.driver.ioLock = none ∨ w.driver.ioLock = some k) (hne : j ≠ k)
    (hj : w.driver.drains[j]? = some x) (hx : x.stage = .saving p) : False := by
  have hlock := hw.inv.io j x hj (by rw [hx]; rfl)
  rcases hfree with h | h <;> rw [h] at hlock <;> cases hlock
  exact hne rfl

/-- What is read now backs all that is still to be released. -/
theorem snap_now (hbacks : ∀ x ∈ w.driver.drains, x.stage.rank ≤ Stage.releasing.rank →
    ∀ a ∈ x.ready.messages, w.driver.engine.persistedSnapshot.Backs x.taken a) :
    Snap w.driver w.driver.engine.persistedSnapshot w.driver.drains.length :=
  ⟨le_refl _, fun _ => rfl, fun _ x hj hx _ => hbacks x (List.mem_of_getElem? hj) hx⟩

/-- A drain takes the IO lock and reads the engine's state. -/
theorem read (hw : Saved w) (hk : w.driver.drains[k]? = some dr) (hinv : DriverInv d')
    (hstage : dr.stage = .persisting) (hfree : w.driver.ioLock = none)
    (hbacks : ∀ x ∈ w.driver.drains, x.stage.rank ≤ Stage.releasing.rank →
      ∀ a ∈ x.ready.messages, w.driver.engine.persistedSnapshot.Backs x.taken a)
    (hengine : d'.engine = w.driver.engine) (hstore : d'.store = w.driver.store)
    (hdrains : d'.drains = w.driver.drains.set k
      { dr with stage := .saving w.driver.engine.persistedSnapshot }) :
    Saved { driver := d', stored := w.stored, reading := w.driver.drains.length } := by
  have hsome := hw.isSome_store hk (.inl hstage)
  have hrank : dr.stage.rank ≤ (Stage.saving w.driver.engine.persistedSnapshot).rank := by
    simp [hstage, Stage.rank]
  have keep : ∀ {p : Persisted} {v : Nat}, Snap w.driver p v → Snap d' p v := fun h =>
    h.moved hk hengine hdrains rfl rfl hrank
  exact {
    inv := hinv
    bare := fun hnone => by
      rw [← hstore, hnone] at hsome
      cases hsome
    store := fun p hp => keep (hw.store p (hstore ▸ hp))
    reading := by
      intro j x p hj hx
      simp only [hdrains] at hj
      rcases getElem?_set_cases hj with ⟨rfl, rfl⟩ | ⟨hne, hj⟩
      · cases hx
        obtain ⟨q, hq⟩ := Option.isSome_iff_exists.mp hsome
        exact ⟨(List.getElem?_eq_some_iff.mp hk).1, (hw.store q hq).le, keep (snap_now hbacks)⟩
      · exact (hw.alone (.inl hfree) hne hj hx).elim
    saved := by
      intro _ j x hj hasks hx hx'
      simp only [hdrains] at hj
      rcases getElem?_set_cases hj with ⟨rfl, rfl⟩ | ⟨_, hj⟩
      · exact absurd hx (by simp [Stage.rank])
      · exact hw.saved hsome j x hj hasks hx hx' }

/-- The save of a drain goes through. -/
theorem wrote (hw : Saved w) (hk : w.driver.drains[k]? = some dr) (hinv : DriverInv d')
    {p : Persisted} (hstage : dr.stage = .saving p) (hengine : d'.engine = w.driver.engine)
    (hstore : d'.store = some p)
    (hdrains : d'.drains = w.driver.drains.set k { dr with unsaved := false, stage := .applying }) :
    Saved { driver := d', stored := w.reading, reading := w.reading } := by
  have hlock := hw.inv.io k dr hk (by rw [hstage]; rfl)
  obtain ⟨hown, hle, hsnap⟩ := hw.reading k dr p hk hstage
  exact {
    inv := hinv
    bare := fun hnone => by
      rw [hstore] at hnone
      cases hnone
    store := by
      intro q hq
      rw [hstore] at hq
      cases hq
      exact hsnap.moved hk hengine hdrains rfl rfl (by simp [hstage, Stage.rank])
    reading := by
      intro j x q hj hx
      simp only [hdrains] at hj
      rcases getElem?_set_cases hj with ⟨rfl, rfl⟩ | ⟨hne, hj⟩
      · cases hx
      · exact (hw.alone (.inr hlock) hne hj hx).elim
    saved := by
      intro _ j x hj hasks hx hx'
      simp only [hdrains] at hj
      rcases getElem?_set_cases hj with ⟨rfl, rfl⟩ | ⟨_, hj⟩
      · exact hown
      · have hsome := hw.isSome_store hk (.inr (by rw [hstage]; rfl))
        exact (hw.saved hsome j x hj hasks hx hx').trans_le hle }

/-- A compacted engine is saved and installed. -/
theorem folded (hw : Saved w) (hk : w.driver.drains[k]? = some dr) (hinv : DriverInv d')
    {data : Bytes} (hstage : dr.stage = .installing data) (hfree : w.driver.ioLock = none)
    (hbacks : ∀ x ∈ w.driver.drains, x.stage.rank ≤ Stage.releasing.rank →
      ∀ a ∈ x.ready.messages, w.driver.engine.persistedSnapshot.Backs x.taken a)
    (hengine : d'.engine = w.driver.engine.compact dr.ready.appliedUpto data)
    (hstore : d'.store
      = some (w.driver.engine.compact dr.ready.appliedUpto data).persistedSnapshot)
    (hdrains : d'.drains = w.driver.drains.set k { dr with stage := .releasing }) :
    Saved { driver := d', stored := w.driver.drains.length, reading := w.reading } := by
  exact {
    inv := hinv
    bare := fun hnone => by
      rw [hstore] at hnone
      cases hnone
    store := by
      intro q hq
      rw [hstore] at hq
      cases hq
      refine ⟨by rw [hdrains, List.length_set], fun _ => by rw [hengine], ?_⟩
      intro j x hj hx _ a ha
      refine backs_compact hw.inv.wellFormed _ _ ?_
      rw [hdrains] at hj
      rcases getElem?_set_cases hj with ⟨rfl, rfl⟩ | ⟨_, hj⟩
      · exact hbacks dr (List.mem_of_getElem? hk) (by simp [hstage, Stage.rank]) a ha
      · exact hbacks x (List.mem_of_getElem? hj) hx a ha
    reading := by
      intro j x q hj hx
      simp only [hdrains] at hj
      rcases getElem?_set_cases hj with ⟨rfl, rfl⟩ | ⟨hne, hj⟩
      · cases hx
      · exact (hw.alone (.inl hfree) hne hj hx).elim
    saved := by
      intro _ j x hj _ _ _
      simp only [hdrains] at hj
      rcases getElem?_set_cases hj with ⟨rfl, rfl⟩ | ⟨_, hj⟩
      · exact (List.getElem?_eq_some_iff.mp hk).1
      · exact (List.getElem?_eq_some_iff.mp hj).1 }

/-- A member without a store has nothing to say. -/
theorem of_bare {w : Recorded} (hinv : DriverInv w.driver) (hnone : w.driver.store = none)
    (hbare : ∀ (k : Nat) (dr : Drain), w.driver.drains[k]? = some dr →
      dr.stage ≠ .persisting ∧ dr.stage.holdsIo = false) : Saved w where
  inv := hinv
  bare := fun _ => hbare
  store := fun p hp => by
    rw [hnone] at hp
    cases hp
  reading := fun k dr p hk hx => by
    have hio := (hbare k dr hk).2
    rw [hx] at hio
    cases hio
  saved := fun hsome => by
    rw [hnone] at hsome
    cases hsome

/-- **A step of a drain keeps the invariant.** -/
theorem advance (hw : Saved w) {ok : Bool} (hk : w.driver.drains[k]? = some dr)
    (h : w.driver.advance S k dr ok = some d') (hreads : ReadsBacked w (.advance k ok)) :
    Saved (w.next d' (.advance k ok)) := by
  have hinv := hw.inv.advanced hk (advanced_of_advance h)
  have hfrom := stageOf_of_getElem? hk
  cases stored_of_advance h with
  | moved dr' hengine hstore hdrains hready htaken hrank hio hfails hqueue hskip =>
    have hto := stageOf_of_getElem? (getElem?_set_of_getElem? hk hdrains)
    rw [next_of_quiet hfrom hto hio hfails]
    exact hw.moved hk hinv hengine hstore hdrains hready htaken hrank hio hqueue hskip
  | read hstage hfree hup hd' =>
    have hdrains : d'.drains = w.driver.drains.set k
        { dr with stage := .saving w.driver.engine.persistedSnapshot } := by rw [hd']; rfl
    have hto := stageOf_of_getElem? (getElem?_set_of_getElem? hk hdrains)
    have hsome := hw.isSome_store hk (.inl hstage)
    have hnext : w.next d' (.advance k ok) = { driver := d', stored := w.stored
                                               reading := w.driver.drains.length } := by
      simp only [Recorded.next, hfrom, hto, hstage]
    rw [hnext]
    exact hw.read hk hinv hstage hfree (hreads dr hk (by rw [hstage]; rfl) hsome hfree hup)
      (by rw [hd']; rfl) (by rw [hd']; rfl) hdrains
  | wrote p hstage hd' =>
    have hdrains : d'.drains = w.driver.drains.set k
        { dr with unsaved := false, stage := .applying } := by rw [hd']; rfl
    have hto := stageOf_of_getElem? (getElem?_set_of_getElem? hk hdrains)
    have hnext : w.next d' (.advance k ok)
        = { driver := d', stored := w.reading, reading := w.reading } := by
      simp only [Recorded.next, hfrom, hto, hstage]
    rw [hnext]
    exact hw.wrote hk hinv hstage (by rw [hd']; rfl) (by rw [hd']; rfl) hdrains
  | folded data hstage hsome hfree hup hd' =>
    have hdrains : d'.drains = w.driver.drains.set k { dr with stage := .releasing } := by
      rw [hd']
      rfl
    have hto := stageOf_of_getElem? (getElem?_set_of_getElem? hk hdrains)
    have hnext : w.next d' (.advance k ok)
        = { driver := d', stored := w.driver.drains.length, reading := w.reading } := by
      simp only [Recorded.next, hfrom, hto, hstage]
    rw [hnext]
    exact hw.folded hk hinv hstage hfree (hreads dr hk (by rw [hstage]; rfl) hsome hfree hup)
      (by rw [hd']; rfl) (by rw [hd']; rfl) hdrains
  | bare hnone hnone' hset =>
    obtain ⟨dr', hdrains, hstage⟩ := hset
    refine of_bare (by rwa [next_driver]) (by rwa [next_driver]) (fun j x hj => ?_)
    rw [next_driver, hdrains] at hj
    rcases getElem?_set_cases hj with ⟨rfl, rfl⟩ | ⟨_, hj⟩
    · rw [hstage]
      exact ⟨by simp, rfl⟩
    · exact hw.bare hnone j x hj
  | waiting hd' hio hinstall hpersist =>
    subst hd'
    rw [next_of_quiet hfrom hfrom hio]
    · exact hw.congr hw.inv rfl rfl rfl
    · rintro (h | ⟨data, h⟩)
      · rw [hio] at h
        cases h
      · exact absurd h (hinstall data)

/-- **A call keeps the invariant.** -/
theorem hand (hw : Saved w) {i : Raft.Input} (hi : ∀ index snapshot, i ≠ .compact index snapshot)
    (ha : w.driver.engine.Admissible i) (replyTo : Option NodeId) (waiter : Option (Nat × Nat)) :
    Saved { driver := w.driver.hand (w.driver.engine.run i) replyTo waiter
            stored := w.stored, reading := w.reading } where
  inv := hw.inv.hand hi ha replyTo waiter
  bare := by
    intro hnone j x hj
    rcases getElem?_concat_cases hj with ⟨rfl, rfl⟩ | hj
    · exact ⟨by simp, rfl⟩
    · exact hw.bare hnone j x hj
  store := fun p hp => (hw.store p hp).hand hw.inv ha replyTo waiter
  reading := by
    intro j x p hj hx
    rcases getElem?_concat_cases hj with ⟨rfl, rfl⟩ | hj
    · cases hx
    · obtain ⟨h1, h2, h3⟩ := hw.reading j x p hj hx
      exact ⟨h1, h2, h3.hand hw.inv ha replyTo waiter⟩
  saved := by
    intro hsome j x hj hasks hx hx'
    rcases getElem?_concat_cases hj with ⟨rfl, rfl⟩ | hj
    · exact absurd hx (by simp [Stage.rank])
    · exact hw.saved hsome j x hj hasks hx hx'

theorem act (hw : Saved w) {a : Action} (h : w.driver.act S a = some d')
    (hreads : ReadsBacked w a) : Saved (w.next d' a) := by
  cases a with
  | call req =>
    obtain ⟨replyTo, waiter, rfl⟩ := hand_of_call h
    exact hw.hand req.input_ne_compact (req.admissible _) replyTo waiter
  | advance k ok =>
    obtain ⟨dr, hk, hadv⟩ := Option.bind_eq_some_iff.mp h
    exact hw.advance hk hadv hreads
  | soft membership policies =>
    have hinv := hw.inv.act h
    cases h
    exact hw.congr hinv rfl rfl rfl
  | closeOutbox =>
    have hinv := hw.inv.act h
    cases h
    exact hw.congr hinv rfl rfl rfl

end Saved

theorem saved_of_starts (h : w.driver.Starts S) (hstored : w.stored = 0) : Saved w := by
  have hinv := driverInv_of_starts h
  obtain ⟨id, peers, cfg, seed, store, restored, sm, hvalid, hstore, hnew⟩ := h
  obtain ⟨sm', _, hd⟩ := new_spec hnew
  have hdrains : w.driver.drains = [] := by rw [hd]
  exact {
    inv := hinv
    bare := fun _ k dr hk => by simp [hdrains] at hk
    store := by
      intro p hp
      refine ⟨by simp [hstored], fun _ => ?_, fun k dr hk => by simp [hdrains] at hk⟩
      rw [hd] at hp ⊢
      rcases hstore with hnone | hsome
      · rw [hnone] at hp
        cases hp
      · rw [hsome] at hp
        cases hp
        rfl
    reading := fun k dr p hk => by simp [hdrains] at hk
    saved := fun _ k dr hk => by simp [hdrains] at hk }

/-- Both conditions on the actions of a run. -/
def SavesInTime (w : Recorded) (a : Action) : Prop := ReleasesSaved w a ∧ ReadsBacked w a

theorem saved_of_reachable (h : (recordedSystem S SavesInTime).Reachable w) : Saved w := by
  refine h.invariant (P := Saved) ?_ ?_
  · rintro w ⟨hstarts, hstored, _⟩
    exact saved_of_starts hstarts hstored
  · rintro w w' _ hw ⟨a, d', hguard, hact, rfl⟩
    exact hw.act hact hguard.2

/-! ## Runs -/

instance (d : Driver) (v k : Nat) : Decidable (Covered d v k) :=
  inferInstanceAs (Decidable (∀ j < k, ∀ rd ∈ d.readies[j]?, rd.persist.isSome = true → j < v))

instance : ∀ (w : Recorded) (a : Action), Decidable (ReleasesSaved w a)
  | w, .advance k _ => inferInstanceAs (Decidable (∀ dr ∈ w.driver.drains[k]?,
      dr.stage = .releasing → dr.ready.persist = none →
      (∃ a ∈ dr.ready.messages, a.msg.commits = true) → Covered w.driver w.stored k))
  | _, .call _ | _, .soft _ _ | _, .closeOutbox => .isTrue trivial

instance : ∀ (w : Recorded) (a : Action), Decidable (ReadsBacked w a)
  | w, .advance k _ => inferInstanceAs (Decidable (∀ dr ∈ w.driver.drains[k]?,
      dr.stage.reads = true → w.driver.store.isSome = true → w.driver.ioLock = none →
      w.driver.available = true → ∀ x ∈ w.driver.drains, x.stage.rank ≤ Stage.releasing.rank →
      ∀ a ∈ x.ready.messages, w.driver.engine.persistedSnapshot.Backs x.taken a))
  | _, .call _ | _, .soft _ _ | _, .closeOutbox => .isTrue trivial

instance (w : Recorded) (a : Action) : Decidable (SavesInTime w a) :=
  inferInstanceAs (Decidable (_ ∧ _))

/-- Some actions in a row, each of which meets `Guard`. -/
def Recorded.runs (S : Setup) (Guard : Recorded → Action → Prop)
    [∀ w a, Decidable (Guard w a)] (w : Recorded) : List Action → Option Recorded
  | [] => some w
  | a :: rest =>
    if Guard w a then (w.driver.act S a).bind fun d' => (w.next d' a).runs S Guard rest else none

theorem reachable_of_runs {Guard : Recorded → Action → Prop} [∀ w a, Decidable (Guard w a)]
    (acts : List Action) : ∀ {w w' : Recorded}, (recordedSystem S Guard).Reachable w →
      w.runs S Guard acts = some w' → (recordedSystem S Guard).Reachable w' := by
  induction acts with
  | nil =>
    intro w w' h hruns
    cases hruns
    exact h
  | cons a rest ih =>
    intro w w' h hruns
    rw [Recorded.runs] at hruns
    split at hruns
    · next hguard =>
      obtain ⟨d', hact, hrest⟩ := Option.bind_eq_some_iff.mp hruns
      exact ih (h.step ⟨a, d', hguard, hact, rfl⟩) hrest
    · cases hruns

/-- A fresh follower with an empty store. -/
def freshRecorded : Recorded where
  driver := freshDriver ["brain-1"] (some Persisted.default)
  stored := 0
  reading := 0

theorem freshRecorded_reachable (Guard : Recorded → Action → Prop) :
    (recordedSystem S Guard).Reachable freshRecorded :=
  .of_init ⟨freshDriver_starts _ (.inr rfl), rfl, rfl⟩

/-- A leader's first entry. -/
def firstAppend : Request :=
  .inbound "brain-1" (.appendEntries
    { term := 1, leaderId := "brain-1", prevLogIndex := 0, prevLogTerm := 0
      entries := [⟨1, 1, none⟩], leaderCommit := 0 })

/-! ## The result -/

/-- **Persist before acknowledge.** Where a drain releases its answers, the store backs them. -/
theorem released_answers_backed (h : (recordedSystem S SavesInTime).Reachable w) {ok : Bool}
    (hguard : SavesInTime w (.advance k ok)) (hk : w.driver.drains[k]? = some dr)
    (hstage : dr.stage = .releasing) {p : Persisted} (hp : w.driver.store = some p) :
    ∀ a ∈ dr.ready.messages, p.Backs dr.taken a := by
  have hw := saved_of_reachable h
  have hrank : dr.stage.rank ≤ Stage.releasing.rank := by rw [hstage]
  intro a ha
  cases hcommits : a.msg.commits with
  | false => exact Persisted.backs_of_not_commits hcommits
  | true =>
    refine (hw.store p hp).backs k dr hk hrank ?_ a ha
    cases hasks : dr.ready.persist with
    | none =>
      have hcovered := hguard.1 dr hk hstage hasks ⟨a, ha, hcommits⟩
      intro j hj rd hrd hpersist
      rcases Nat.lt_succ_iff_lt_or_eq.mp hj with hlt | rfl
      · exact hcovered j hlt rd hrd hpersist
      · rw [getElem?_readies hk] at hrd
        cases hrd
        rw [hasks] at hpersist
        cases hpersist
    | some q =>
      have hown := hw.saved (by rw [hp]; rfl) k dr hk (by rw [hasks]; rfl)
        (by simp [hstage, Stage.rank]) hrank
      exact fun j hj _ _ _ => Nat.lt_of_le_of_lt (Nat.le_of_lt_succ hj) hown

/-- The leader's append arrives twice. The second `Ready` asks for no save and its drain is the first
to release, but only behind the save of the other one. -/
def saveFirstRun : List Action :=
  [.call firstAppend, .call firstAppend] ++ List.replicate 3 (.advance 0 true) ++
    List.replicate 3 (.advance 1 true)

theorem released_answers_backed_saveFirst : ∃ (w : Recorded) (dr : Drain) (p : Persisted),
    w.driver.drains[1]? = some dr ∧ dr.stage = .releasing ∧ w.driver.store = some p ∧
      p.Backs dr.taken ⟨"brain-1", .appendEntriesResp ⟨1, true, 1⟩⟩ := by
  have hrun : (freshRecorded.runs ⟨jsonSnapshotSerde, 1024⟩ SavesInTime saveFirstRun).map
      (fun w => (decide (SavesInTime w (.advance 1 true)), w.driver.store.isSome,
        w.driver.drains[1]?.map fun dr => (dr.stage, dr.ready.messages))) =
      some (true, true,
        some (.releasing, [⟨"brain-1", .appendEntriesResp ⟨1, true, 1⟩⟩])) := by decide +kernel
  obtain ⟨w, hruns, hw⟩ := Option.map_eq_some_iff.mp hrun
  simp only [Prod.mk.injEq, decide_eq_true_eq] at hw
  obtain ⟨hguard, hsome, hdrain⟩ := hw
  obtain ⟨p, hp⟩ := Option.isSome_iff_exists.mp hsome
  obtain ⟨dr, hk, hdr⟩ := Option.map_eq_some_iff.mp hdrain
  obtain ⟨hstage, hmessages⟩ := Prod.mk.inj hdr
  have hreach := reachable_of_runs saveFirstRun (freshRecorded_reachable _) hruns
  exact ⟨w, dr, p, hk, hstage, hp, released_answers_backed hreach hguard hk hstage hp _
    (by rw [hmessages]; exact List.mem_singleton_self _)⟩

/-- The same two appends, and the thread with the second one does not wait for the save. -/
def overtakenRun : List Action :=
  [.call firstAppend, .call firstAppend] ++ List.replicate 3 (.advance 1 true)

/-- A follower returns its acknowledgement of an entry that its store does not have. -/
theorem acknowledged_before_saved : ∃ (w : Recorded) (dr : Drain) (p : Persisted) (d' : Driver),
    (recordedSystem ⟨jsonSnapshotSerde, 1024⟩ fun _ _ => True).Reachable w ∧
      w.driver.drains[1]? = some dr ∧ dr.stage = .releasing ∧ w.driver.store = some p ∧
      w.driver.act ⟨jsonSnapshotSerde, 1024⟩ (.advance 1 true) = some d' ∧
      d'.stageOf 1 = some (.replied (some (.appendEntriesResp ⟨1, true, 1⟩))) ∧
      ⟨"brain-1", .appendEntriesResp ⟨1, true, 1⟩⟩ ∈ dr.ready.messages ∧
      ¬ p.Backs dr.taken ⟨"brain-1", .appendEntriesResp ⟨1, true, 1⟩⟩ := by
  have hrun : (freshRecorded.runs ⟨jsonSnapshotSerde, 1024⟩ (fun _ _ => True) overtakenRun).map
      (fun w => (w.driver.store, (w.driver.act ⟨jsonSnapshotSerde, 1024⟩ (.advance 1 true)).map
          (fun d' => d'.stageOf 1),
        w.driver.drains[1]?.map fun dr => (dr.stage, dr.ready.messages))) =
      some (some Persisted.default,
        some (some (.replied (some (.appendEntriesResp ⟨1, true, 1⟩)))),
        some (.releasing, [⟨"brain-1", .appendEntriesResp ⟨1, true, 1⟩⟩])) := by decide +kernel
  obtain ⟨w, hruns, hw⟩ := Option.map_eq_some_iff.mp hrun
  simp only [Prod.mk.injEq] at hw
  obtain ⟨hp, hact, hdrain⟩ := hw
  obtain ⟨d', hact, hreplied⟩ := Option.map_eq_some_iff.mp hact
  obtain ⟨dr, hk, hdr⟩ := Option.map_eq_some_iff.mp hdrain
  obtain ⟨hstage, hmessages⟩ := Prod.mk.inj hdr
  have hmem : ⟨"brain-1", .appendEntriesResp ⟨1, true, 1⟩⟩ ∈ dr.ready.messages := by
    rw [hmessages]
    exact List.mem_singleton_self _
  refine ⟨w, dr, Persisted.default, d', reachable_of_runs _ (freshRecorded_reachable _) hruns, hk,
    hstage, hp, hact, hreplied, hmem, fun hbacks => ?_⟩
  -- the empty log does not have the entry that is acknowledged
  rcases hbacks rfl 1 (le_refl _) Nat.one_pos with hbase | ⟨e, _, _, he⟩
  · exact absurd hbase (by decide)
  · cases he

end FiduciaBrain.RaftDriver
