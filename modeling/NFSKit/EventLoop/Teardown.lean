import NFSKit.EventLoop.Callbacks

/-!
# Teardown, timeouts and the export context

`performShutdown`, `shutdownWithError`, `cleanupRpcExports` and `scanForTimeouts`. Destroying a
context is a libnfs call, so each of these stops at the call; the second halves (`afterCleanup`,
`endTeardown`) run when the call returns.
-/

namespace NFSKit

namespace State

/-- The end of `performShutdown` and `shutdownWithError`, after `nfs_destroy_context`: every
continuation of the snapshot is resumed, and `performShutdown` also resets the pipeline. -/
def endTeardown (s : State) (kind : Teardown) (continuations : List CallbackData) : State :=
  let s := continuations.foldl (fun s cb => s.resume cb (.failure .ENOTCONN)) s
  let s :=
    match kind with
    | .performShutdown =>
      { s with
        bulkController := s.bulkController.reset
        metadataController := s.metadataController.reset
        inFlightCount := fun _ => 0 }
    | .shutdownWithError => s
  { s with teardowns := s.teardowns + 1 }

/-- The registry is snapshotted and cleared, the queue is cleared, and the context is destroyed. -/
def destroyContext (s : State) (kind : Teardown) : State :=
  let continuations := s.activeContinuations
  let s := { s with activeContinuations := [], pendingOperations := [] }
  let s :=
    match kind with
    | .performShutdown => { s with handleRegistry := [] }
    | .shutdownWithError => s
  match s.context with
  | some _ => { s with context := none, stack := .destroy kind continuations :: s.stack }
  | none => s.endTeardown kind continuations

/-- `performShutdown` from `cancelTimeoutTimer()` on. -/
def performShutdownRest (s : State) : State :=
  let s := { s with sources := s.sources.cancelTimeoutTimer }
  ({ s with logHandler := false }).destroyContext .performShutdown

/-- `cleanupRpcExports` after `rpc_destroy_context`, and what its caller does next. -/
def afterCleanup (s : State) (next : AfterCleanup) : State :=
  let s := { s with exports := { s.exports with rpcExportsDone := false, rpcExportsContID := none } }
  match next with
  | .done => s
  | .performShutdown => s.performShutdownRest
  | .getexports cb => s.resumeContinuation cb.caller (.failure POSIXErrorCode.EIO)

def cleanupRpcExports (s : State) (next : AfterCleanup) : State :=
  let s := { s with exports := s.exports.cancelRpcExportsSources }
  match s.exports.rpcExportsCtx with
  | some n =>
    { s with
      exports := { s.exports with rpcExportsCtx := none }
      stack := .rpcDestroy n next :: s.stack }
  | none => s.afterCleanup next

def performShutdown (s : State) : State :=
  if s.context.isNone && s.activeContinuations.isEmpty then { s with teardowns := s.teardowns + 1 }
  else
    { s with teardownStarted := true, isRunning := false, sources := s.sources.cancelSources
      }.cleanupRpcExports .performShutdown

/-- `shutdownWithError`; the error is the `ENOTCONN` of `handleIOEvent`, its only caller. -/
def shutdownWithError (s : State) : State :=
  { s with
    teardownStarted := true
    isRunning := false
    sources := s.sources.cancelSources.cancelTimeoutTimer }.destroyContext .shutdownWithError

/-! ## Timeouts -/

/-- `cbData.startTime < DispatchTime.now() - timeout`. -/
def expired (s : State) (cb : CallbackData) : Bool := (cb.startTime : Int) < s.clock - s.timeout

/-- One timed-out operation: it leaves the registry, counts as a failed completion and its caller is
resumed. Nothing is said to libnfs, and the pending queue is left alone. -/
def expire (s : State) (cb : CallbackData) : State :=
  ((s.removeActive cb.continuationID).recordCompletion cb.operationCategory false).resume cb
    (.failure .ETIMEDOUT)

def scanForTimeouts (s : State) : State :=
  if s.timeout ≤ 0 then s
  else
    let s := (s.activeContinuations.filter s.expired).foldl expire s
    match s.exports.rpcExportsContID with
    | some id =>
      if s.activeContinuations.all (·.continuationID ≠ id) then s.cleanupRpcExports .done else s
    | none => s

end State

end NFSKit
