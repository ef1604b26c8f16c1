import NFSKit.Pipeline
import Mathlib.Tactic.FieldSimp
import Mathlib.Tactic.Linarith
import Mathlib.Tactic.Positivity

/-!
# The adaptive depth

The depth stays between 1 and 32, slow start lasts for three successes after a reset, and from any depth
a few failures lead to 1. For the way up, the square of the depth is the potential: it grows by at least 2
with every success.
-/

namespace NFSKit

namespace PipelineController

variable {p : PipelineController} {l : List Call}

/-- The bounds of a controller that is created with the defaults. -/
structure InBounds (p : PipelineController) : Prop where
  defaults : p.DefaultBounds
  one_le_depth : 1 ≤ p.depth
  depth_le : p.depth ≤ 32
  one_le_ssthresh : 1 ≤ p.ssthresh
  ssthresh_le : p.ssthresh ≤ 16

theorem inBounds_init : InBounds {} := by
  constructor <;> norm_num [DefaultBounds]

/-- Within the bounds the clamp of `effectiveDepth` changes nothing. -/
theorem InBounds.effectiveDepth_eq (h : p.InBounds) : p.effectiveDepth = ⌊p.depth⌋ := by
  obtain ⟨⟨hmin, hmax⟩, hone, hle, -, -⟩ := h
  have hfloor : 1 ≤ ⌊p.depth⌋ := by
    rw [Int.le_floor]
    exact_mod_cast hone
  have hfloor' : ⌊p.depth⌋ ≤ 32 := by
    have hcast : (⌊p.depth⌋ : ℚ) ≤ (32 : ℤ) := (Int.floor_le p.depth).trans (by exact_mod_cast hle)
    exact_mod_cast hcast
  unfold effectiveDepth
  rw [hmin, hmax]
  omega

/-- The depth before the final `min` of `recordSuccess`. -/
def grown (p : PipelineController) : ℚ :=
  match p.phase with
  | .slowStart => p.depth * 2
  | .steady => p.depth + 1 / p.depth

theorem recordSuccess_depth (p : PipelineController) :
    p.recordSuccess.depth = min p.grown p.maxDepth := by
  unfold recordSuccess grown
  cases p.phase <;> rfl

theorem recordSuccess_ssthresh (p : PipelineController) : p.recordSuccess.ssthresh = p.ssthresh := by
  unfold recordSuccess
  cases p.phase <;> rfl

theorem recordSuccess_phase (p : PipelineController) : p.recordSuccess.phase =
    if p.phase = .slowStart ∧ p.depth * 2 < p.ssthresh then .slowStart else .steady := by
  unfold recordSuccess
  cases p.phase with
  | slowStart =>
    dsimp only
    by_cases h : p.depth * 2 < p.ssthresh
    · simp [h, not_le.mpr h]
    · simp [h, not_lt.mp h]
  | steady => simp

/-- A success never lowers the depth. -/
theorem depth_le_grown (h : 1 ≤ p.depth) : p.depth ≤ p.grown := by
  unfold grown
  cases p.phase with
  | slowStart =>
    dsimp only
    linarith
  | steady =>
    have hpos : 0 < 1 / p.depth := by positivity
    dsimp only
    linarith

/-- The square of the depth grows by at least 2. -/
theorem sq_add_two_le_grown (h : 1 ≤ p.depth) : p.depth ^ 2 + 2 ≤ p.grown ^ 2 := by
  unfold grown
  cases p.phase with
  | slowStart =>
    dsimp only
    nlinarith
  | steady =>
    have hne : p.depth ≠ 0 := by positivity
    have hexpand : (p.depth + 1 / p.depth) ^ 2 = p.depth ^ 2 + 2 + (1 / p.depth) ^ 2 := by
      field_simp
      ring
    have hpos : 0 ≤ (1 / p.depth) ^ 2 := sq_nonneg _
    dsimp only
    rw [hexpand]
    linarith

namespace InBounds

theorem recordSuccess (h : p.InBounds) : p.recordSuccess.InBounds := by
  have hmax : (p.maxDepth : ℚ) = 32 := by exact_mod_cast h.defaults.2
  have hgrown := (h.one_le_depth).trans (depth_le_grown h.one_le_depth)
  refine ⟨h.defaults.record true, ?_, ?_, ?_, ?_⟩
  · rw [recordSuccess_depth, hmax]
    exact le_min hgrown (by norm_num)
  · rw [recordSuccess_depth, hmax]
    exact min_le_right _ _
  · rw [recordSuccess_ssthresh]
    exact h.one_le_ssthresh
  · rw [recordSuccess_ssthresh]
    exact h.ssthresh_le

theorem recordFailure (h : p.InBounds) : p.recordFailure.InBounds := by
  have hmin : (p.minDepth : ℚ) = 1 := by exact_mod_cast h.defaults.1
  have hle := h.depth_le
  refine ⟨h.defaults.record false, ?_, ?_, ?_, ?_⟩ <;> simp only [PipelineController.recordFailure, hmin]
  · exact le_max_left _ _
  · exact max_le (by norm_num) (by linarith)
  · exact le_max_left _ _
  · exact max_le (by norm_num) (by linarith)

theorem reset (h : p.InBounds) : p.reset.InBounds := by
  refine ⟨h.defaults.reset, ?_, ?_, ?_, ?_⟩ <;> norm_num [PipelineController.reset]

theorem apply (h : p.InBounds) (c : Call) : (p.apply c).InBounds := by
  cases c with
  | recordSuccess => exact h.recordSuccess
  | recordFailure => exact h.recordFailure
  | reset => exact h.reset

theorem run (h : p.InBounds) (calls : List Call) : (p.run calls).InBounds := by
  induction calls generalizing p with
  | nil => exact h
  | cons c calls ih => exact ih (h.apply c)

end InBounds

/-! ## Slow start -/

/-- What the calls since the last reset tell of the phase: in slow start the depth has doubled with every
success, and the threshold is the initial one. -/
inductive Phased (p : PipelineController) (l : List Call) : Prop where
  | slowStart (hphase : p.phase = .slowStart) (hfail : .recordFailure ∉ l)
      (hcount : l.count .recordSuccess < 3) (hdepth : p.depth = 2 ^ (l.count .recordSuccess + 1))
      (hssthresh : p.ssthresh = 16)
  | steady (hphase : p.phase = .steady)
      (hcause : .recordFailure ∈ l ∨ 3 ≤ l.count .recordSuccess)

theorem Phased.phase_iff (h : p.Phased l) :
    p.phase = .slowStart ↔ .recordFailure ∉ l ∧ l.count .recordSuccess < 3 := by
  cases h with
  | slowStart hphase hfail hcount => exact ⟨fun _ => ⟨hfail, hcount⟩, fun _ => hphase⟩
  | steady hphase hcause =>
    constructor
    · intro hslow
      rw [hphase] at hslow
      cases hslow
    · rintro ⟨hfail, hcount⟩
      rcases hcause with hmem | hthree
      · exact absurd hmem hfail
      · omega

theorem Phased.recordSuccess (h : p.Phased l) (hb : p.InBounds) :
    p.recordSuccess.Phased (.recordSuccess :: l) := by
  have hcons : (Call.recordSuccess :: l).count .recordSuccess = l.count .recordSuccess + 1 :=
    List.count_cons_self
  cases h with
  | slowStart hphase hfail hcount hdepth hssthresh =>
    have hmax : (p.maxDepth : ℚ) = 32 := by exact_mod_cast hb.defaults.2
    have hgrown : p.grown = 2 ^ (l.count .recordSuccess + 1) * 2 := by
      unfold grown
      rw [hphase, hdepth]
    by_cases hlast : l.count .recordSuccess = 2
    · refine .steady ?_ (.inr ?_)
      · rw [recordSuccess_phase, hdepth, hssthresh, hlast]
        norm_num
      · omega
    · have hcase : l.count .recordSuccess = 0 ∨ l.count .recordSuccess = 1 := by omega
      refine .slowStart ?_ ?_ ?_ ?_ ?_
      · rw [recordSuccess_phase, hdepth, hssthresh, hphase]
        rcases hcase with h | h <;> rw [h] <;> norm_num
      · simpa using hfail
      · omega
      · rw [recordSuccess_depth, hgrown, hmax, hcons]
        rcases hcase with h | h <;> rw [h] <;> norm_num
      · rw [recordSuccess_ssthresh, hssthresh]
  | steady hphase hcause =>
    refine .steady ?_ ?_
    · rw [recordSuccess_phase, hphase]
      rfl
    · rcases hcause with hmem | hthree
      · exact .inl (List.mem_cons_of_mem _ hmem)
      · exact .inr (by omega)

/-- The phase of a controller that was created with the defaults. -/
theorem phased_run (calls : List Call) : ((({} : PipelineController).run calls).Phased (sinceReset calls)) := by
  induction calls using List.reverseRecOn with
  | nil => exact .slowStart rfl List.not_mem_nil (by decide) (by norm_num [sinceReset, run]) rfl
  | append_singleton calls c ih =>
    have hrun : ({} : PipelineController).run (calls ++ [c]) = (({} : PipelineController).run calls).apply c := by
      simp [run]
    have hsince : sinceReset (calls ++ [c]) = if c = .reset then [] else c :: sinceReset calls := by
      by_cases hc : c = .reset <;> simp [sinceReset, hc]
    rw [hrun, hsince]
    cases c with
    | recordSuccess => exact ih.recordSuccess (inBounds_init.run calls)
    | recordFailure => exact .steady rfl (.inl (List.mem_cons_self ..))
    | reset =>
      rw [if_pos rfl]
      exact .slowStart rfl List.not_mem_nil (by decide) (by norm_num [apply, reset]) rfl

/-! ## The way down and the way up -/

/-- `n` failures bring a depth of at most `2 ^ n` to 1. -/
theorem depth_failures {n : Nat} (hb : p.InBounds) (h : p.depth ≤ 2 ^ n) :
    (p.run (List.replicate n .recordFailure)).depth = 1 := by
  induction n generalizing p with
  | zero => exact le_antisymm (by simpa [run] using h) (hb.run _).one_le_depth
  | succ n ih =>
    refine ih hb.recordFailure ?_
    have hmin : (p.minDepth : ℚ) = 1 := by exact_mod_cast hb.defaults.1
    have hpow : (1 : ℚ) ≤ 2 ^ n := one_le_pow₀ (by norm_num)
    show max (p.minDepth : ℚ) (p.depth / 2) ≤ 2 ^ n
    rw [pow_succ] at h
    rw [hmin]
    exact max_le hpow (by linarith)

/-- One success brings the depth to 32, or the square of the depth up by 2. -/
theorem recordSuccess_grows (hb : p.InBounds) :
    p.recordSuccess.depth = 32 ∨ p.depth < 32 ∧ p.depth ^ 2 + 2 ≤ p.recordSuccess.depth ^ 2 := by
  have hmax : (p.maxDepth : ℚ) = 32 := by exact_mod_cast hb.defaults.2
  rw [recordSuccess_depth, hmax]
  by_cases hcap : 32 ≤ p.grown
  · exact .inl (min_eq_right hcap)
  · have hcap : p.grown < 32 := not_le.mp hcap
    rw [min_eq_left hcap.le]
    exact .inr ⟨(depth_le_grown hb.one_le_depth).trans_lt hcap, sq_add_two_le_grown hb.one_le_depth⟩

/-- `n` successes bring the depth to 32, or its square up by `2 * n`. -/
theorem depth_successes (hb : p.InBounds) (n : Nat) :
    (p.run (List.replicate n .recordSuccess)).depth = 32 ∨
      p.depth ^ 2 + 2 * n ≤ (p.run (List.replicate n .recordSuccess)).depth ^ 2 := by
  induction n generalizing p with
  | zero => exact .inr (by simp [run])
  | succ n ih =>
    rcases ih hb.recordSuccess with hdone | hgrown
    · exact .inl hdone
    · have hrun : p.run (List.replicate (n + 1) .recordSuccess) =
          p.recordSuccess.run (List.replicate n .recordSuccess) := rfl
      have hle := ((hb.recordSuccess).run (List.replicate n .recordSuccess)).depth_le
      have hone := ((hb.recordSuccess).run (List.replicate n .recordSuccess)).one_le_depth
      rw [hrun]
      rcases recordSuccess_grows hb with hcap | ⟨-, hstep⟩
      · left
        rw [hcap] at hgrown
        have hn : (0 : ℚ) ≤ 2 * n := by positivity
        nlinarith
      · right
        push_cast
        linarith

/-- The square of the depth cannot grow by more than 1023. -/
theorem depth_of_successes {n : Nat} (hb : p.InBounds) (hn : 512 ≤ n) :
    (p.run (List.replicate n .recordSuccess)).depth = 32 := by
  have hn : (512 : ℚ) ≤ n := by exact_mod_cast hn
  rcases depth_successes hb n with hdone | hgrown
  · exact hdone
  · have hone := hb.one_le_depth
    have hle := (hb.run (List.replicate n .recordSuccess)).depth_le
    have hone' := (hb.run (List.replicate n .recordSuccess)).one_le_depth
    nlinarith

/-- For every sequence of calls on a default controller: the depth and the threshold keep their bounds,
the effective depth is the floor of the depth, and slow start lasts until the first failure or the third
success after the last reset; then 5 failures bring the effective depth to 1, and 512 successes to 32. -/
theorem controller_adapts (calls : List Call) :
    let p := ({} : PipelineController).run calls
    (1 ≤ p.depth ∧ p.depth ≤ 32) ∧ (1 ≤ p.ssthresh ∧ p.ssthresh ≤ 16) ∧
      p.effectiveDepth = ⌊p.depth⌋ ∧
      (p.phase = .slowStart ↔ .recordFailure ∉ sinceReset calls ∧
        (sinceReset calls).count .recordSuccess < 3) ∧
      (p.run (List.replicate 5 .recordFailure)).effectiveDepth = 1 ∧
      (p.run (List.replicate 512 .recordSuccess)).effectiveDepth = 32 := by
  intro p
  have hb : p.InBounds := inBounds_init.run calls
  refine ⟨⟨hb.one_le_depth, hb.depth_le⟩, ⟨hb.one_le_ssthresh, hb.ssthresh_le⟩, hb.effectiveDepth_eq,
    (phased_run calls).phase_iff, ?_, ?_⟩
  · have hdepth : (p.run (List.replicate 5 .recordFailure)).depth = 1 :=
      depth_failures hb (hb.depth_le.trans (by norm_num))
    rw [(hb.run _).effectiveDepth_eq, hdepth]
    norm_num
  · rw [(hb.run _).effectiveDepth_eq, depth_of_successes hb le_rfl]
    norm_num

end PipelineController

end NFSKit
