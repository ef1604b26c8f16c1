import NFSKit.EventLoop.Sources

/-!
# Pipeline slots, the pending queue and the C callbacks

`recordCompletion`, `issuePendingOperations`, `handleCallbackCompletion`, `CallbackData.resume`,
`nfsCallback` and `rpcCallback`.

A function that calls libnfs ends by pushing a frame on the control stack; what it does after the
call is in `EventLoop.Teardown` and `EventLoop.Operations`, where the frame is popped.
-/

namespace NFSKit

/-- The category under which `issuePendingOperations` and `issueOperation` count an operation. -/
def PendingOperation.category (op : PendingOperation) : OperationCategory := op.type.category

/-- The context a hand-over calls. -/
def Site.ctx : Site → Ctx
  | .getexports n => .rpc n
  | _ => .nfs

/-- Whether the operation comes out of the pending queue. -/
def Site.isPending : Site → Bool
  | .pending _ _ => true
  | _ => false

/-- The context a call in progress is made on; none for a frame of Swift code. -/
def Frame.ctx : Frame → Option Ctx
  | .handOver site _ _ => some site.ctx
  | .completionHook _ _ => none
  | .service => some .nfs
  | .rpcService n => some (.rpc n)
  | .close _ => some .nfs
  | .rpcDestroy n _ => some (.rpc n)
  | .destroy _ _ => some .nfs

/-- The request being handed over by a call in progress, unless its callback has already run. -/
def Frame.inCall : Frame → Option CallbackData
  | .handOver _ cb ran => if cb.caller ∈ ran then none else some cb
  | _ => none

/-- Records that libnfs runs the callback of `caller` inside the call. -/
def Frame.noteCallback (caller : Nat) : Frame → Frame
  | .handOver site cb ran => .handOver site cb (caller :: ran)
  | f => f

namespace Core

def controller (s : Core) : OperationCategory → PipelineController
  | .bulk => s.bulkController
  | .metadata => s.metadataController

/-- `currentInFlight < controller.effectiveDepth`. -/
def hasCapacity (s : Core) (c : OperationCategory) : Bool :=
  s.inFlightCount c < (s.controller c).effectiveDepth

/-- How many operations of category `c` libnfs holds: those it has accepted, and those being handed
over whose callback has not run. -/
def outstandingCount (s : Core) (c : OperationCategory) : Nat :=
  s.outstanding.countP (fun r => r.cb.operationCategory = c) +
    (s.stack.filterMap Frame.inCall).countP (fun cb => cb.operationCategory = c)

end Core

namespace State

def setController (s : State) (c : OperationCategory) (p : PipelineController) : State :=
  match c with
  | .bulk => { s with bulkController := p }
  | .metadata => { s with metadataController := p }

/-- `_inFlightCount[c] += d`. -/
def addInFlight (s : State) (c : OperationCategory) (d : Int) : State :=
  { s with inFlightCount := Function.update s.inFlightCount c (s.inFlightCount c + d) }

/-! ## Swift objects and continuations -/

/-- `Unmanaged.passRetained(cbData)`. -/
def passRetained (s : State) (cb : CallbackData) : State :=
  { s with retained := Function.update s.retained cb.caller (s.retained cb.caller + 1) }

/-- `release()` and `takeRetainedValue()`. -/
def release (s : State) (cb : CallbackData) : State :=
  { s with retained := Function.update s.retained cb.caller (s.retained cb.caller - 1) }

/-- `continuation.resume(...)` on the raw Swift continuation. -/
def resumeContinuation (s : State) (caller : Nat) (r : Outcome) : State :=
  { s with outcomes := Function.update s.outcomes caller (s.outcomes caller ++ [r]) }

/-- `CallbackData.resume`: the continuation is resumed unless the object has resumed it before. -/
def resume (s : State) (cb : CallbackData) (r : Outcome) : State :=
  let s := { s with preconditionFailed := s.preconditionFailed || !s.onQueue }
  if s.hasResumed cb.caller then s
  else
    { s with hasResumed := Function.update s.hasResumed cb.caller true }.resumeContinuation cb.caller r

/-- `activeContinuations.removeValue(forKey: id)`. -/
def removeActive (s : State) (id : Nat) : State :=
  { s with activeContinuations := s.activeContinuations.filter (·.continuationID ≠ id) }

/-- The heap buffer of the operation is deallocated. -/
def deallocate (s : State) (caller : Nat) : State :=
  let b := s.buffers caller
  { s with
    buffers := Function.update s.buffers caller { b with deallocations := b.deallocations + 1 } }

/-- The heap buffer of the operation is taken over by a `Data`. -/
def handOverBuffer (s : State) (caller : Nat) : State :=
  let b := s.buffers caller
  { s with buffers := Function.update s.buffers caller { b with handovers := b.handovers + 1 } }

/-- `cbData.cleanup?()`. -/
def runCleanup (s : State) (cb : CallbackData) : State :=
  if cb.cleanup then s.deallocate cb.caller else s

def setFate (s : State) (caller : Nat) (f : Fate) : State :=
  { s with fates := Function.update s.fates caller (some f) }

/-! ## Sources -/

def updateWriteSource (s : State) : State :=
  match s.context with
  | none => s
  | some _ => { s with sources := s.sources.updateWriteSource s.lib.pollout }

/-! ## Handing operations to libnfs -/

/-- The libnfs call that hands `cb` over begins. -/
def handOver (s : State) (site : Site) (cb : CallbackData) : State :=
  { s with
    stack := .handOver site cb [] :: s.stack
    handOvers :=
      { cb
        deferred := site.isPending
        resumed := !(s.outcomes cb.caller).isEmpty
        outstanding := s.outstandingCount cb.operationCategory
        depth := (s.controller cb.operationCategory).effectiveDepth
        tornDown := s.teardownStarted } :: s.handOvers }

/-- A completion hook has returned: the callback goes on with `cbData.resume(result)` and returns to
libnfs. Where no hook is running, the queue block ends. -/
def finishHook (s : State) : State :=
  match s.stack with
  | .completionHook cb result :: rest => { s with stack := rest }.resume cb result
  | _ => s

/-- One iteration of the drain that issues: `pendingOperations.remove(at: i)`, the slot is taken and
`op.execute(ctx)` begins. -/
def executePending (s : State) (i : Nat) (op : PendingOperation) : State :=
  ({ s with pendingOperations := s.pendingOperations.eraseIdx i }.addInFlight op.category 1).handOver
    (.pending i op) op.cbData

/-- The `while` loop of `issuePendingOperations` from index `i`, up to its next libnfs call or its
end; `n` bounds the number of iterations. -/
def drainLoop (s : State) : Nat → Nat → State
  | 0, _ => s.finishHook
  | n + 1, i =>
    match s.pendingOperations[i]? with
    | none => s.finishHook
    | some op =>
      if s.hasCapacity op.category then s.executePending i op else s.drainLoop n (i + 1)

/-- The loop from index `i`, with as many iterations as there are operations left to look at. -/
def drainFrom (s : State) (i : Nat) : State := s.drainLoop (s.pendingOperations.length - i) i

def issuePendingOperations (s : State) : State :=
  match s.context with
  | none => s.finishHook
  | some _ => s.drainFrom 0

/-! ## Completions -/

def recordCompletion (s : State) (c : OperationCategory) (success : Bool) : State :=
  let n := s.inFlightCount c - 1
  let s :=
    { s with
      inFlightCount := Function.update s.inFlightCount c (max 0 n)
      clamped := Function.update s.clamped c (s.clamped c || n < 0) }
  s.setController c ((s.controller c).record success)

def handleCallbackCompletion (s : State) (id : Nat) (c : OperationCategory) (success : Bool) :
    State :=
  ((s.removeActive id).recordCompletion c success).issuePendingOperations

/-- `cbData.completionHook(success)`; the hook holds `self` weakly. -/
def completionHook (s : State) (cb : CallbackData) (success : Bool) : State :=
  if s.alive then
    let s :=
      if cb.entry = .getexports then { s with exports := { s.exports with rpcExportsDone := true } }
      else s
    s.handleCallbackCompletion cb.continuationID cb.operationCategory success
  else s.finishHook

/-- `cbData.dataHandler(status, data)`. -/
def dataHandler (s : State) (cb : CallbackData) (status : Int) (data : Option Value) :
    Outcome × State :=
  match cb.dataHandler with
  | .void => (.success .void, s)
  | .unwrap =>
    match data with
    | some v => (.success v, s)
    | none => (.failure .ENODATA, s)
  | .offset => (.success (data.getD (.int 0)), s)
  | .exports =>
    match data with
    | some (.exportNodes dirs) => (.success (.strings (dirs.filterMap id)), s)
    | _ => (.success (.strings []), s)
  | .takeBuffer =>
    if status > 0 then (.success (.data status), s.handOverBuffer cb.caller)
    else (.success (.data 0), s.deallocate cb.caller)
  | .byteCount => (.success (.int status), s)
  | .clampedCount => (.success (.int (max 0 status)), s)

/-- `completionHook(success)` with `resume(result)` to follow. -/
def complete (s : State) (cb : CallbackData) (result : Outcome) (success : Bool) : State :=
  { s with stack := .completionHook cb result :: s.stack }.completionHook cb success

/-- The C callback of the `nfs_*_async` calls. -/
def nfsCallback (s : State) (cb : CallbackData) (status : Int) (data : Option Value) : State :=
  let s := s.release cb
  if status < 0 then
    (s.runCleanup cb).complete cb (.failure (.ofCode (-status))) false
  else
    let (result, s) := s.dataHandler cb status data
    s.complete cb result result.isSuccess

/-- The C callback of `mount_getexports_async`. -/
def rpcCallback (s : State) (cb : CallbackData) (status : Int) (data : Option Value) : State :=
  let s := s.release cb
  if status ≠ 0 then
    s.complete cb (.failure (.ofCode status)) false
  else
    let (result, s) := s.dataHandler cb status data
    s.complete cb result result.isSuccess

/-- The callback that was registered with the request. -/
def runCallback (s : State) (cb : CallbackData) (status : Int) (data : Option Value) : State :=
  let s := s.setFate cb.caller (.called status)
  if cb.entry = .getexports then s.rpcCallback cb status data else s.nfsCallback cb status data

end State

end NFSKit
