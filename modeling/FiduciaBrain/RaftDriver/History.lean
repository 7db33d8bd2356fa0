import FiduciaBrain.RaftDriver.Steps
import FiduciaBrain.Infra.Replay

/-!
# The committed log

A member keeps only a part of the group's committed log. `Traced` puts the whole of it beside the
driver: entries that this member knows to be committed agree with it (`Logged`), and a snapshot
that a leader sends stands for a prefix of it (`Restores`). The driver never looks at it;
`exists_history` says that there is always one to look at.
-/

namespace FiduciaBrain

open Infra

/-! ## The replicated state, slot by slot -/

/-- The effect of a log entry; the no-op of a fresh leader has none. -/
def Replicated.applyEntry (st : Replicated) : Option Command → Replicated
  | none => st
  | some c => st.apply c

/-- What a command can overwrite. -/
inductive Slot
  | shard (shard : ShardId)
  | plan
  deriving DecidableEq, Repr

def Slot.Value : Slot → Type
  | .shard _ => Option ShardAssignment
  | .plan => ScalePlan

def Replicated.read (st : Replicated) : (k : Slot) → k.Value
  | .shard shard => st.assignments.get shard
  | .plan => st.plan

/-- What a log entry leaves in a slot, if it writes it. -/
def writeSlot : Option Command → (k : Slot) → Option k.Value
  | some (.assignShard a), .shard shard => if a.shardId = shard then some (some a) else none
  | some (.setScalePlan plan), .plan => some plan
  | _, _ => none

theorem Replicated.read_ext {s t : Replicated} (h : ∀ k, s.read k = t.read k) : s = t := by
  have hassignments : s.assignments = t.assignments :=
    Assignments.ext fun shard => h (.shard shard)
  have hplan : s.plan = t.plan := h .plan
  cases s
  cases t
  simp_all

theorem Replicated.read_applyEntry (st : Replicated) (c : Option Command) (k : Slot) :
    (st.applyEntry c).read k = (writeSlot c k).getD (st.read k) := by
  rcases c with _ | a | plan | node
  · cases k <;> rfl
  · cases k with
    | shard shard =>
      show (st.assignments.insert a).get shard = _
      rw [Assignments.get_insert]
      show _ = (if a.shardId = shard then some (some a) else none).getD _
      split <;> rfl
    | plan => rfl
  · cases k <;> rfl
  · cases k <;> rfl

/-- The placement map and the scale plan, under the replicated log. -/
def replicatedSlots : Slots Replicated.applyEntry where
  Slot := Slot
  Value := Slot.Value
  read := Replicated.read
  write := writeSlot
  read_apply := Replicated.read_applyEntry
  ext := Replicated.read_ext

/-! ## The commands of a stretch of the log -/

/-- The commands at the indices in `(a, b]`, with their indices. -/
def commandsIn (h : List (Option Command)) (a b : Nat) : List (Nat × Command) :=
  (List.range' (a + 1) (b - a)).filterMap fun index =>
    h[index - 1]?.bind fun command => command.map (index, ·)

theorem commandsIn_extend {h h' : List (Option Command)} {a b : Nat} (hh : h <+: h')
    (hb : b ≤ h.length) : commandsIn h' a b = commandsIn h a b := by
  obtain ⟨more, rfl⟩ := hh
  refine List.filterMap_congr fun index hindex => ?_
  have := List.mem_range'_1.mp hindex
  rw [List.getElem?_append_left (by omega)]

theorem commandsIn_filter (h : List (Option Command)) {a w : Nat} (b : Nat) (haw : a ≤ w) :
    (commandsIn h a b).filter (fun c => c.1 > w) = commandsIn h w b := by
  have hnone : ∀ index, index ≤ w → (h[index - 1]?.bind fun command =>
      command.map (index, ·)).filter (fun c : Nat × Command => c.1 > w) = none := by
    intro index hindex
    cases h[index - 1]? with
    | none => rfl
    | some command =>
      cases command with
      | none => rfl
      | some c => simpa using hindex
  have hsame : ∀ index, w < index → (h[index - 1]?.bind fun command =>
      command.map (index, ·)).filter (fun c : Nat × Command => c.1 > w)
      = h[index - 1]?.bind fun command => command.map (index, ·) := by
    intro index hindex
    cases h[index - 1]? with
    | none => rfl
    | some command =>
      cases command with
      | none => rfl
      | some c => simpa using hindex
  rw [commandsIn, List.filter_filterMap]
  rcases Nat.lt_or_ge b w with hlt | hge
  · rw [commandsIn, show b - w = 0 by omega]
    refine List.filterMap_eq_nil_iff.mpr fun index hindex => hnone index ?_
    have := List.mem_range'_1.mp hindex
    omega
  · have hsplit : List.range' (a + 1) (b - a)
        = List.range' (a + 1) (w - a) ++ List.range' (w + 1) (b - w) := by
      rw [show b - a = (w - a) + (b - w) by omega, ← List.range'_append_1,
        show a + 1 + (w - a) = w + 1 by omega]
    rw [hsplit, List.filterMap_append]
    have hfront : (List.range' (a + 1) (w - a)).filterMap (fun index =>
        (h[index - 1]?.bind fun command => command.map (index, ·)).filter
          (fun c : Nat × Command => c.1 > w)) = [] :=
      List.filterMap_eq_nil_iff.mpr fun index hindex => hnone index (by
        have := List.mem_range'_1.mp hindex
        omega)
    rw [hfront, List.nil_append]
    exact List.filterMap_congr fun index hindex => hsame index (by
      have := List.mem_range'_1.mp hindex
      omega)

/-- No command at an index that the stretch passes over. -/
theorem idle_of_bind_eq_none {h : List (Option Command)} {index : Nat}
    (hindex : index < h.length)
    (hnone : (h[index]?.bind fun command => command.map (index + 1, ·)) = none) :
    h[index]? = some none := by
  rw [List.getElem?_eq_getElem hindex] at hnone ⊢
  simpa using hnone

theorem commandsIn_eq_nil {h : List (Option Command)} {a b : Nat} (hb : b ≤ h.length)
    (hnil : commandsIn h a b = []) {i : Nat} (hai : a ≤ i) (hib : i < b) : h[i]? = some none := by
  have hnone := List.filterMap_eq_nil_iff.mp hnil (i + 1) (List.mem_range'_1.mpr (by omega))
  exact idle_of_bind_eq_none (by omega) hnone

/-- **The next command of a stretch**: nothing lies before it, and the rest comes behind it. -/
theorem commandsIn_eq_cons {h : List (Option Command)} {a b i : Nat} {c : Command}
    {todo : List (Nat × Command)} (hb : b ≤ h.length)
    (hcons : commandsIn h a b = (i, c) :: todo) :
    a < i ∧ i ≤ b ∧ h[i - 1]? = some (some c) ∧ todo = commandsIn h i b ∧
      ∀ j, a ≤ j → j < i - 1 → h[j]? = some none := by
  obtain ⟨front, index, back, hrange, hidle, hindex, hback⟩ := List.filterMap_eq_cons_iff.mp hcons
  obtain ⟨command, hcommand, hmap⟩ := Option.bind_eq_some_iff.mp hindex
  obtain ⟨c', rfl, heq⟩ := Option.map_eq_some_iff.mp hmap
  obtain ⟨rfl, rfl⟩ := Prod.mk.inj heq
  obtain ⟨n, hn, hfront, hrest⟩ := List.range'_eq_append_iff.mp hrange
  have hlen := congrArg List.length hrange
  rw [List.length_range', List.length_append, List.length_cons] at hlen
  have hfl : front.length = n := by rw [hfront, List.length_range']
  have hrest' : index :: back = List.range' (a + 1 + n) (b - a - n) := by simpa using hrest
  rw [show b - a - n = (b - a - n - 1) + 1 by omega, List.range'_succ] at hrest'
  obtain ⟨hi, htail⟩ := List.cons.inj hrest'
  refine ⟨by omega, by omega, hcommand, ?_, fun j haj hji => ?_⟩
  · rw [← hback, htail, commandsIn, show a + 1 + n + 1 = index + 1 by omega,
      show b - a - n - 1 = b - index by omega]
  · have hj : j + 1 ∈ front := by
      rw [hfront]
      exact List.mem_range'_1.mpr (by omega)
    exact idle_of_bind_eq_none (by omega) (hidle (j + 1) hj)

/-! ## What an engine knows of the log -/

/-- What the engine takes for committed is so, and its live entries below that point are the ones
committed. -/
structure Logged (r : Raft) (h : List (Option Command)) : Prop where
  commit_le : r.commitIndex ≤ h.length
  agrees : ∀ e ∈ r.log, e.index ≤ r.commitIndex → h[e.index - 1]? = some e.command

namespace Logged

variable {r r' : Raft} {h h' : List (Option Command)}

theorem extend (hr : Logged r h) (hh : h <+: h') : Logged r h' where
  commit_le := hr.commit_le.trans hh.length_le
  agrees e he hc := by
    obtain ⟨more, rfl⟩ := hh
    have hget := hr.agrees e he hc
    obtain ⟨hlt, _⟩ := List.getElem?_eq_some_iff.mp hget
    rw [List.getElem?_append_left hlt, hget]

/-- **What a `Ready` carries out is the stretch of the log that it claims to be.** -/
theorem newlyCommitted (hr : Logged r h) (hwf : r.WellFormed) :
    r.newlyCommitted = commandsIn h r.lastApplied r.commitIndex := by
  refine List.filterMap_congr fun index hindex => ?_
  have hrange := List.mem_range'_1.mp hindex
  have hbase : r.baseIndex ≤ r.lastApplied := hwf.base_le
  have hlast : r.commitIndex ≤ r.lastIndex := hwf.commit_le_last
  have hlen : r.lastIndex = r.baseIndex + r.log.length := rfl
  have hslot : index - r.baseIndex - 1 < r.log.length := by omega
  have hentry := hwf.log_valid.index_eq hslot
  have hagree := hr.agrees _ (List.getElem_mem hslot) (by omega)
  rw [Raft.logSlot_eq_some (by omega) (by omega), Option.bind_some,
    List.getElem?_eq_getElem hslot, Option.bind_some]
  rw [show r.log[index - r.baseIndex - 1].index = index by omega] at hagree
  rw [hagree, Option.bind_some]

end Logged

/-- **There is always a log to trace a member with**: an engine that takes nothing back extends
the one it had. -/
theorem exists_history {r r' : Raft} {h : List (Option Command)} (hwf : r.WellFormed)
    (hwf' : r'.WellFormed) (hp : Raft.Progress r r') (hr : Logged r h)
    (hlen : h.length = r.commitIndex) :
    ∃ h', h <+: h' ∧ Logged r' h' ∧ h'.length = r'.commitIndex := by
  have hcommit := hp.commit_le
  -- what is not in the log any more was folded into a snapshot
  let more := (List.range' (r.commitIndex + 1) (r'.commitIndex - r.commitIndex)).map fun index =>
    r'.log[index - r'.baseIndex - 1]?.bind LogEntry.command
  have hmore : more.length = r'.commitIndex - r.commitIndex := by
    rw [List.length_map, List.length_range']
  have hall : (h ++ more).length = r'.commitIndex := by
    rw [List.length_append, hmore]
    omega
  refine ⟨h ++ more, List.prefix_append _ _, ⟨hall.ge, fun e he hc => ?_⟩, hall⟩
  obtain ⟨k, hk, rfl⟩ := List.getElem_of_mem he
  have hindex := hwf'.log_valid.index_eq hk
  rcases Nat.lt_or_ge r.commitIndex r'.log[k].index with hlt | hle
  · rw [List.getElem?_append_right (by omega), List.getElem?_map, List.getElem?_range' (by omega),
      Option.map_some]
    rw [show r.commitIndex + 1 + 1 * (r'.log[k].index - 1 - h.length) - r'.baseIndex - 1 = k by
      omega, List.getElem?_eq_getElem hk, Option.bind_some]
  · have hold := hp.mem_of_committed hwf hwf' he hle
    rw [List.getElem?_append_left (by omega)]
    exact hr.agrees _ hold hle

end FiduciaBrain
