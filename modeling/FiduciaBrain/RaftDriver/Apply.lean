import FiduciaBrain.RaftDriver.Traced

/-!
# Log order

Batches and restores race to the watermark. Whoever releases it leaves the state machine as the
log up to the watermark makes it.
-/

namespace FiduciaBrain.RaftDriver

open Infra

variable {S : Setup} {genesis : Replicated} {d d' : Driver}

/-- **The watermark never moves back.** -/
theorem watermark_le_of_act {a : Action} (ha : d.act S a = some d') :
    d.applyWatermark ≤ d'.applyWatermark := by
  cases a with
  | call req =>
    obtain ⟨replyTo, waiter, rfl⟩ := hand_of_call ha
    exact Nat.le_refl _
  | advance k ok =>
    obtain ⟨dr, hk, hadv⟩ := Option.bind_eq_some_iff.mp ha
    cases advanced_of_advance hadv with
    | finished _ => exact Nat.le_max_left _ _
    | _ => exact Nat.le_refl _
  | soft membership policies =>
    cases ha
    exact Nat.le_refl _
  | closeOutbox =>
    cases ha
    exact Nat.le_refl _

/-- **Log order, exactly once.** While nobody holds the watermark, the placement map and the plan
are what the committed commands up to it lead to. The holder applies each command on top of exactly
the commands below it, none of them at or below the watermark, and what he restores lies ahead of
the watermark. The watermark never moves back. -/
theorem applies_in_log_order {t : Traced}
    (ht : (tracedSystem S (Level.exact Replicated.applyEntry genesis) fun _ _ => True).Reachable
      t) :
    t.driver.applyWatermark ≤ t.history.length ∧
      (t.driver.applyLock = none → t.driver.sm.replicated =
        replay Replicated.applyEntry genesis t.history t.driver.applyWatermark) ∧
      (∀ (k : Nat) (dr : Drain) (i : Nat) (c : Command) (todo : List (Nat × Command)),
        t.driver.drains[k]? = some dr → dr.stage = .committing ((i, c) :: todo) →
        t.driver.applyWatermark < i ∧ t.history[i - 1]? = some (some c) ∧
          t.driver.sm.replicated = replay Replicated.applyEntry genesis t.history (i - 1)) ∧
      (∀ (k : Nat) (dr : Drain) (plan : ScalePlan), t.driver.drains[k]? = some dr →
        dr.stage = .restoring plan →
        t.driver.applyWatermark ≤ dr.ready.appliedFrom ∧
          { t.driver.sm.replicated with plan := plan } =
            replay Replicated.applyEntry genesis t.history dr.ready.appliedFrom) ∧
      ∀ (a : Action) (d' : Driver), t.driver.act S a = some d' →
        t.driver.applyWatermark ≤ d'.applyWatermark := by
  have htracks := tracks_of_reachable ht
  refine ⟨?_, fun hfree => (htracks.free hfree).2, ?_, ?_, fun a d' => watermark_le_of_act⟩
  · exact (htracks.inv.watermark_le.trans htracks.inv.wellFormed.applied_le).trans
      htracks.logged.commit_le
  · intro k dr i c todo hk hstage
    obtain ⟨hlt, hget, hat, _⟩ :=
      (htracks.committing k dr _ hk hstage).step (htracks.upto_le' hk)
    exact ⟨hlt, hget, hat.2⟩
  · intro k dr plan hk hstage
    have hholds : dr.stage.holdsApply = true := by rw [hstage]; rfl
    have hrestore := htracks.inv.restore_of_restoring hk hstage
    exact ⟨htracks.inv.ahead_of_busy hk hholds hrestore, (htracks.restoring k dr plan hk hstage).2⟩

/-- A lone member elects itself, commits a plan and applies it. -/
def applyRun : List Action :=
  [.call .tick, .call .tick, .call (.propose (.setScalePlan ⟨5, 1⟩)), .advance 2 true,
    .advance 2 true, .advance 2 true, .advance 2 true]

theorem applies_in_log_order_fresh : ∃ t : Traced,
    t.driver.applyWatermark = 2 ∧ t.driver.sm.plan = ⟨5, 1⟩ ∧
      t.driver.sm.replicated =
        replay Replicated.applyEntry freshStateMachine.replicated t.history 2 := by
  have hrun : ((freshDriver [] none).runs ⟨jsonSnapshotSerde, 1024⟩
      (fun _ a => a.snapshot?.isNone) applyRun).map
        (fun d => (d.applyWatermark, d.applyLock, d.sm.plan)) = some (2, none, ⟨5, 1⟩) := by
    decide +kernel
  obtain ⟨d, hruns, hd⟩ := Option.map_eq_some_iff.mp hrun
  simp only [Prod.mk.injEq] at hd
  obtain ⟨hw, hlock, hplan⟩ := hd
  obtain ⟨h, hreach, _⟩ := exists_fresh_trace (Level.exact _ _) (fun _ _ => True) (by simp) []
    hruns
  have horder := (applies_in_log_order hreach).2.1 hlock
  rw [hw] at horder
  exact ⟨⟨d, h⟩, hw, hplan, horder⟩

end FiduciaBrain.RaftDriver
