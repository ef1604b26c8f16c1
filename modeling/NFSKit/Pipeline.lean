import Mathlib.Data.Rat.Floor

/-!
# Operation classes and the adaptive pipeline depth

`OperationType.swift` and `PipelineController.swift`. The `Double` depths of the source are exact
rationals here.
-/

namespace NFSKit

/-- Pipeline categories: each has its own controller and in-flight count. -/
inductive OperationCategory where
  /-- Bulk data transfer: read, pread, write, pwrite. -/
  | bulk
  /-- All other operations. -/
  | metadata
deriving DecidableEq, Repr

/-- All operation types of the event loop. -/
inductive OperationType where
  | read | pread | write | pwrite
  | stat | statvfs | readlink
  | mkdir | rmdir | unlink | rename | truncate
  | «open» | close | fsync
  | opendir
  | mount | umount
deriving DecidableEq, Repr

/-- The pipeline category of an operation. -/
def OperationType.category : OperationType → OperationCategory
  | .read | .pread | .write | .pwrite => .bulk
  | _ => .metadata

/-- The congestion-control phase. -/
inductive Phase where
  /-- The depth doubles on each success. -/
  | slowStart
  /-- Linear growth, after the threshold or a failure. -/
  | steady
deriving DecidableEq, Repr

/-- Adaptive pipeline depth with additive increase and multiplicative decrease. -/
structure PipelineController where
  /-- Fractional pipeline depth. -/
  depth : ℚ := 2
  /-- Slow-start threshold. -/
  ssthresh : ℚ := 16
  phase : Phase := .slowStart
  minDepth : Int := 1
  maxDepth : Int := 32
deriving DecidableEq, Repr

namespace PipelineController

/-- `max(minDepth, min(Int(depth), maxDepth))`. -/
def effectiveDepth (p : PipelineController) : Int := max p.minDepth (min ⌊p.depth⌋ p.maxDepth)

/-- A successful completion grows the depth. -/
def recordSuccess (p : PipelineController) : PipelineController :=
  let p :=
    match p.phase with
    | .slowStart =>
      let depth := p.depth * 2
      { p with depth, phase := if depth ≥ p.ssthresh then .steady else .slowStart }
    | .steady => { p with depth := p.depth + 1 / p.depth }
  { p with depth := min p.depth p.maxDepth }

/-- A failure (timeout or error) shrinks the depth. -/
def recordFailure (p : PipelineController) : PipelineController :=
  { p with
    ssthresh := max (p.minDepth : ℚ) (p.depth / 2)
    depth := max (p.minDepth : ℚ) (p.depth / 2)
    -- slow start is never re-entered after a failure
    phase := .steady }

/-- Back to the initial values. -/
def reset (p : PipelineController) : PipelineController :=
  { p with depth := 2, ssthresh := 16, phase := .slowStart }

/-- The completion feedback of `recordCompletion`. -/
def record (p : PipelineController) (success : Bool) : PipelineController :=
  if success then p.recordSuccess else p.recordFailure

/-- The calls that change a controller. -/
inductive Call where
  | recordSuccess | recordFailure | reset
deriving DecidableEq, Repr

def apply (p : PipelineController) : Call → PipelineController
  | .recordSuccess => p.recordSuccess
  | .recordFailure => p.recordFailure
  | .reset => p.reset

/-- The controller after a sequence of calls. -/
def run (p : PipelineController) (calls : List Call) : PipelineController := calls.foldl apply p

/-- The calls since the last reset, latest first. -/
def sinceReset (calls : List Call) : List Call := calls.reverse.takeWhile (· ≠ .reset)

/-- The bounds every controller of the event loop is created with. -/
def DefaultBounds (p : PipelineController) : Prop := p.minDepth = 1 ∧ p.maxDepth = 32

theorem defaultBounds_init : DefaultBounds {} := ⟨rfl, rfl⟩

theorem DefaultBounds.record {p : PipelineController} (h : p.DefaultBounds) (b : Bool) :
    (p.record b).DefaultBounds := by
  cases b with
  | false => exact h
  | true =>
    simp only [PipelineController.record, if_true, recordSuccess]
    cases p.phase <;> exact h

theorem DefaultBounds.reset {p : PipelineController} (h : p.DefaultBounds) :
    p.reset.DefaultBounds := h

theorem DefaultBounds.one_le {p : PipelineController} (h : p.DefaultBounds) :
    1 ≤ p.effectiveDepth := by
  simp [effectiveDepth, h.1]

theorem DefaultBounds.le_32 {p : PipelineController} (h : p.DefaultBounds) :
    p.effectiveDepth ≤ 32 := by
  simp [effectiveDepth, h.1, h.2]

end PipelineController

end NFSKit
