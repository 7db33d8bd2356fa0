import FiduciaBrain.Raft.Clock
import FiduciaBrain.Raft.Run
import Mathlib.Algebra.GroupWithZero.Nat

/-!
# Sequences of calls

A run of one engine, written as the list of what was asked of it.
-/

namespace FiduciaBrain.Raft

open Infra

/-- A call to the engine, or a drain. -/
inductive Call
  | input (i : Input)
  | ready
  deriving DecidableEq, Repr

/-- The ticks among the calls. -/
def Call.ticks : Call → Nat
  | .input i => i.ticks
  | .ready => 0

/-- The engine after a call or a drain. -/
def after (r : Raft) : Call → Raft
  | .input i => r.run i
  | .ready => r.ready.2

/-- The engine after all of them. -/
def calls (r : Raft) (l : List Call) : Raft := l.foldl after r

@[simp] theorem calls_nil (r : Raft) : r.calls [] = r := rfl

@[simp] theorem calls_cons (r : Raft) (c : Call) (l : List Call) :
    r.calls (c :: l) = (r.after c).calls l := rfl

/-- Every call but a compaction is admissible at any engine. -/
def Call.Plain : Call → Prop
  | .input (.compact _ _) => False
  | _ => True

instance (c : Call) : Decidable c.Plain := by
  unfold Call.Plain
  split <;> infer_instance

theorem Call.Plain.admissible {i : Input} (h : (Call.input i).Plain) (r : Raft) :
    r.Admissible i := by
  cases i with
  | compact index snapshot => exact h.elim
  | _ => trivial

theorem Call.Plain.step {c : Call} (h : c.Plain) (r : Raft) : EngineStep r (r.after c) := by
  cases c with
  | input i => exact .call r i (h.admissible r)
  | ready => exact .ready r

/-- Plain calls are a run. -/
theorem steps_calls {Valid : Persisted → Prop} {l : List Call} (h : ∀ c ∈ l, c.Plain) (r : Raft) :
    (engineSystem Valid).Steps r (r.calls l) := by
  induction l generalizing r with
  | nil => exact .refl r
  | cons c rest ih =>
    have hc : (engineSystem Valid).step r (r.after c) := (h c (List.mem_cons_self ..)).step r
    exact (TransitionSystem.Steps.single hc).trans
      (ih (fun c' hc' => h c' (List.mem_cons_of_mem _ hc')) _)

/-! ## A member of two -/

/-- A fresh member with the shortest timing there is. -/
def duoStart : Raft :=
  Raft.new "a" ["b"] { heartbeatTicks := 1, electionMinTicks := 2, electionMaxTicks := 2 } 7
    Persisted.default

/-- It stands at its second tick and gets its peer's two votes. -/
def duoLeader : Raft := duoStart.calls
  [.input .tick, .input .tick,
    .input (.step "b" (.requestVoteResp { term := 0, granted := true, preVote := true })),
    .input (.step "b" (.requestVoteResp { term := 1, granted := true, preVote := false }))]

end FiduciaBrain.Raft
