import NFSKit.Foundations.Contraction
import NFSKit.Proofs.PipelineProofs

/-!
# The controller forgets

What a controller has been through before a failure matters less with every failure that follows: in the
steady phase a success moves the depths of two controllers no further apart, and a failure halves the gap
between them.
-/

namespace NFSKit

namespace PipelineController

open Contraction

variable {p q : PipelineController}

/-- A controller that has failed once since it was reset. -/
structure Settled (p : PipelineController) : Prop where
  bounds : p.InBounds
  steady : p.phase = .steady

theorem Settled.record (h : p.Settled) (success : Bool) : (p.record success).Settled := by
  cases success with
  | true =>
    refine ⟨h.bounds.recordSuccess, ?_⟩
    show p.recordSuccess.phase = .steady
    rw [recordSuccess_phase, h.steady]
    simp
  | false => exact ⟨h.bounds.recordFailure, rfl⟩

theorem Settled.foldl_record (h : p.Settled) (feedback : List Bool) :
    (feedback.foldl PipelineController.record p).Settled := by
  induction feedback generalizing p with
  | nil => exact h
  | cons success feedback ih => exact ih (h.record success)

theorem InBounds.settles (h : p.InBounds) : p.recordFailure.Settled := ⟨h.recordFailure, rfl⟩

theorem Settled.recordSuccess_depth_eq (h : p.Settled) :
    p.recordSuccess.depth = min (p.depth + 1 / p.depth) 32 := by
  have hmax : (p.maxDepth : ℚ) = 32 := by exact_mod_cast h.bounds.defaults.2
  rw [recordSuccess_depth, hmax]
  unfold grown
  rw [h.steady]

theorem InBounds.recordFailure_depth_eq (h : p.InBounds) : p.recordFailure.depth = max 1 (p.depth / 2) := by
  have hmin : (p.minDepth : ℚ) = 1 := by exact_mod_cast h.defaults.1
  show max (p.minDepth : ℚ) (p.depth / 2) = _
  rw [hmin]

/-- The gap between the depths of two controllers. -/
def gap (p q : PipelineController) : ℚ := |p.depth - q.depth|

/-- What a completion leaves of the gap. -/
def remaining (success : Bool) : ℚ := if success then 1 else 1 / 2

theorem gap_recordFailure_le (hp : p.InBounds) (hq : q.InBounds) :
    gap p.recordFailure q.recordFailure ≤ 1 / 2 * gap p q := by
  have hmax := abs_max_sub_max_le_abs (p.depth / 2) (q.depth / 2) 1
  have hhalf : |p.depth / 2 - q.depth / 2| = 1 / 2 * |p.depth - q.depth| := by
    rw [← sub_div, abs_div, abs_of_pos (two_pos : (0 : ℚ) < 2)]
    ring
  unfold gap
  rw [hp.recordFailure_depth_eq, hq.recordFailure_depth_eq, max_comm 1, max_comm 1, ← hhalf]
  exact hmax

/-- After a failure the depth is at most 16. -/
theorem gap_failed_le (hp : p.InBounds) (hq : q.InBounds) : gap p.recordFailure q.recordFailure ≤ 15 := by
  have upper {r : PipelineController} (hr : r.InBounds) : r.recordFailure.depth ≤ 16 := by
    have hle := hr.depth_le
    rw [hr.recordFailure_depth_eq]
    exact max_le (by norm_num) (by linarith)
  have hp' := hp.recordFailure.one_le_depth
  have hq' := hq.recordFailure.one_le_depth
  have hp₁ := upper hp
  have hq₁ := upper hq
  unfold gap
  rw [abs_le]
  constructor <;> linarith

theorem gap_record_le (hp : p.Settled) (hq : q.Settled) (success : Bool) :
    gap (p.record success) (q.record success) ≤ remaining success * gap p q := by
  cases success with
  | true =>
    show gap p.recordSuccess q.recordSuccess ≤ 1 * gap p q
    unfold gap
    rw [hp.recordSuccess_depth_eq, hq.recordSuccess_depth_eq, one_mul]
    exact (abs_min_sub_min_le _ _ _).trans
      (abs_add_inv_sub_le hp.bounds.one_le_depth hq.bounds.one_le_depth)
  | false => exact gap_recordFailure_le hp.bounds hq.bounds

theorem prod_remaining (feedback : List Bool) :
    (feedback.map remaining).prod = 1 / 2 ^ feedback.count false := by
  induction feedback with
  | nil => simp
  | cons success feedback ih =>
    rw [List.map_cons, List.prod_cons, ih]
    cases success with
    | true => simp [remaining]
    | false =>
      simp only [remaining, Bool.false_eq_true, if_false, List.count_cons_self, pow_succ]
      field_simp

/-- Depths that are less than 1 apart have effective depths at most 1 apart. -/
theorem effectiveDepth_close (hp : p.InBounds) (hq : q.InBounds) (h : gap p q < 1) :
    |p.effectiveDepth - q.effectiveDepth| ≤ 1 := by
  rw [hp.effectiveDepth_eq, hq.effectiveDepth_eq]
  have hclose := abs_sub_lt_iff.mp h
  have hp₁ := Int.floor_le p.depth
  have hp₂ := Int.lt_floor_add_one p.depth
  have hq₁ := Int.floor_le q.depth
  have hq₂ := Int.lt_floor_add_one q.depth
  have hle : (⌊p.depth⌋ : ℚ) < ⌊q.depth⌋ + 2 := by linarith
  have hle' : (⌊q.depth⌋ : ℚ) < ⌊p.depth⌋ + 2 := by linarith
  have hle : ⌊p.depth⌋ < ⌊q.depth⌋ + 2 := by exact_mod_cast hle
  have hle' : ⌊q.depth⌋ < ⌊p.depth⌋ + 2 := by exact_mod_cast hle'
  rw [abs_le]
  omega

/-- Two controllers with any two histories that fail and then see the same completions: however these go, the
gap between their depths never widens and is halved with each failure, and from the fourth of these on the
effective depths are at most 1 apart. -/
theorem history_forgotten (calls calls' : List Call) (feedback : List Bool) :
    let p := (({} : PipelineController).run calls).recordFailure
    let q := (({} : PipelineController).run calls').recordFailure
    gap (feedback.foldl record p) (feedback.foldl record q) ≤ gap p q / 2 ^ feedback.count false ∧
      (4 ≤ feedback.count false →
        |(feedback.foldl record p).effectiveDepth - (feedback.foldl record q).effectiveDepth| ≤ 1) := by
  intro p q
  have hp : p.Settled := (inBounds_init.run calls).settles
  have hq : q.Settled := (inBounds_init.run calls').settles
  have hgap : gap (feedback.foldl record p) (feedback.foldl record q) ≤ gap p q / 2 ^ feedback.count false := by
    have hfold := gap_foldl_le (c := remaining) (fun _ b h => Settled.record h b) (fun b => ?_)
      (fun _ _ b hs ht => gap_record_le hs ht b) hp hq feedback
    · rwa [prod_remaining, one_div, inv_mul_eq_div] at hfold
    · cases b <;> norm_num [remaining]
  refine ⟨hgap, fun hfour => ?_⟩
  refine effectiveDepth_close (hp.foldl_record feedback).bounds (hq.foldl_record feedback).bounds ?_
  have hpow : (2 : ℚ) ^ 4 ≤ 2 ^ feedback.count false := pow_le_pow_right₀ (by norm_num) hfour
  have hfirst : gap p q ≤ 15 := gap_failed_le (inBounds_init.run calls) (inBounds_init.run calls')
  refine hgap.trans_lt ((div_lt_one (by positivity)).mpr ?_)
  linarith

end PipelineController

end NFSKit
