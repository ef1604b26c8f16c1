import NFSKit.EventLoop.Callbacks

/-!
# The drain of the pending queue as one call

`issuePendingOperations` together with what libnfs does inside it: it refuses an operation, accepts it,
or accepts it and runs its callback at once, which re-enters `handleCallbackCompletion` and with it the
drain. The machine cuts the same loop at every libnfs call; `Proofs.DrainProofs` shows that the two
agree.
-/

namespace NFSKit

/-- What libnfs does with an operation it is given. -/
inductive Answer where
  /-- The call returns, and the callback has not run. -/
  | returned (rc : Int)
  /-- The callback runs inside the call and tells the completion hook of a success or a failure; the
  call accepts. -/
  | completed (success : Bool)
deriving DecidableEq, Repr

/-- The part of the loop that a drain works on. -/
structure Drain where
  context : Option Ctx
  pendingOperations : List PendingOperation
  /-- `_inFlightCount`. -/
  inFlightCount : OperationCategory → Int
  controller : OperationCategory → PipelineController
  /-- The operations executed so far, each with libnfs's answer. -/
  executed : List (PendingOperation × Answer) := []
  /-- The calls of `failureCleanup` so far. -/
  failureCleanups : List (PendingOperation × Int) := []
  /-- A loop that has been torn down has no queue. -/
  retired : context = none → pendingOperations = []

/-- How libnfs answers, given what it has answered so far. -/
abbrev Behaviour := List (PendingOperation × Answer) → PendingOperation → Answer

namespace Drain

/-- `currentInFlight < controller.effectiveDepth`. -/
def hasCapacity (d : Drain) (c : OperationCategory) : Bool :=
  d.inFlightCount c < (d.controller c).effectiveDepth

/-- `pendingOperations.remove(at: i)`, the slot is taken and `op.execute(ctx)` is called. -/
def execute (d : Drain) (i : Nat) (op : PendingOperation) (answer : Answer) : Drain :=
  { d with
    pendingOperations := d.pendingOperations.eraseIdx i
    inFlightCount :=
      Function.update d.inFlightCount op.category (d.inFlightCount op.category + 1)
    executed := d.executed ++ [(op, answer)]
    retired := fun h => by rw [d.retired h, List.eraseIdx_nil] }

/-- The slot is given back and `op.failureCleanup(rc)` is called. -/
def refused (d : Drain) (op : PendingOperation) (rc : Int) : Drain :=
  { d with
    inFlightCount :=
      Function.update d.inFlightCount op.category (d.inFlightCount op.category - 1)
    failureCleanups := d.failureCleanups ++ [(op, rc)] }

def recordCompletion (d : Drain) (c : OperationCategory) (success : Bool) : Drain :=
  { d with
    inFlightCount := Function.update d.inFlightCount c (max 0 (d.inFlightCount c - 1))
    controller := Function.update d.controller c ((d.controller c).record success) }

/-- The `while` loop of `issuePendingOperations` from index `i`; `none` if `n` is too small a bound. -/
def drainLoop (behave : Behaviour) : Nat → Nat → Drain → Option Drain
  | 0, _, _ => none
  | n + 1, i, d =>
    match d.pendingOperations[i]? with
    | none => some d
    | some op =>
      if d.hasCapacity op.category then
        let answer := behave d.executed op
        let d := d.execute i op answer
        match answer with
        | .returned rc => drainLoop behave n i (if rc < 0 then d.refused op rc else d)
        | .completed success =>
          -- inside `execute`, `handleCallbackCompletion` starts the loop again from the front
          (match d.context with
            | none => some d
            | some _ => drainLoop behave n 0 (d.recordCompletion op.cbData.operationCategory success)
            ).bind fun d => drainLoop behave n i d
      else drainLoop behave n (i + 1) d

def issuePendingOperations (d : Drain) (behave : Behaviour) (n : Nat) : Option Drain :=
  match d.context with
  | none => some d
  | some _ => drainLoop behave n 0 d

/-- A bound on the iterations of the loop from index `i`, nested loops included. -/
def fuel (d : Drain) (i : Nat) : Nat :=
  d.pendingOperations.length * (d.pendingOperations.length + 1) + (d.pendingOperations.length - i) + 1

/-! ## What a run of executions amounts to -/

/-- The call of `failureCleanup` that an execution leads to. -/
def cleanup : PendingOperation × Answer → Option (PendingOperation × Int)
  | (op, .returned rc) => if rc < 0 then some (op, rc) else none
  | (_, .completed _) => none

/-- The in-flight counts after an execution: a refused operation leaves them as they were. -/
def counted (counts : OperationCategory → Int) :
    PendingOperation × Answer → OperationCategory → Int
  | (op, .returned rc) =>
    if rc < 0 then counts else Function.update counts op.category (counts op.category + 1)
  | (op, .completed _) =>
    let counts := Function.update counts op.category (counts op.category + 1)
    let c := op.cbData.operationCategory
    Function.update counts c (max 0 (counts c - 1))

/-- The controllers after an execution: only a completion tells them something. -/
def adapted (controllers : OperationCategory → PipelineController) :
    PendingOperation × Answer → OperationCategory → PipelineController
  | (_, .returned _) => controllers
  | (op, .completed success) =>
    let c := op.cbData.operationCategory
    Function.update controllers c ((controllers c).record success)

end Drain

end NFSKit
