import NFSKit.EventLoop.Teardown

/-!
# The operations of the loop

The queue blocks of `submit`, `mount`, `getexports`, the operations on open handles, the two-block
functions `openFile` and `contentsOfDirectory`, the settings and the source handlers, and what each
does when its libnfs call returns.
-/

namespace NFSKit

/-- `maxPendingOperations`. -/
def maxPendingOperations : Nat := 4096

namespace State

/-! ## Submitted operations -/

/-- A new continuation for a call of one of the loop's functions. -/
def newCaller (s : State) : State := { s with nextCaller := s.nextCaller + 1 }

/-- `CallbackData.init` with the next continuation id, and its entry in the registry. -/
def register (s : State) (cb : CallbackData) : State :=
  { s with
    nextContinuationID := s.nextContinuationID + 1
    created := cb :: s.created
    activeContinuations := s.activeContinuations ++ [cb] }

/-- `issueOperation`, up to `execute(ctx, retainedPtr)`. -/
def issueOperation (s : State) (cb : CallbackData) : State :=
  (s.passRetained cb).handOver .issueOperation cb

/-- `submit`, for an operation of the given type and data handler. -/
def submit (s : State) (type : OperationType) (handler : DataHandler) : State :=
  let caller := s.nextCaller
  let s := s.newCaller
  match s.context with
  | none => s.resumeContinuation caller (.failure .ENOTCONN)
  | some _ =>
    let cb : CallbackData :=
      { continuationID := s.nextContinuationID
        operationCategory := type.category
        startTime := s.clock
        dataHandler := handler
        cleanup := false
        entry := .submit type
        caller
        handle := none
        destBuffer := none }
    let s := s.register cb
    if s.hasCapacity type.category then s.issueOperation cb
    else if s.pendingOperations.length ≥ maxPendingOperations then
      (s.removeActive cb.continuationID).resumeContinuation caller (.failure .ENOBUFS)
    else
      let s := s.passRetained cb
      { s with pendingOperations := s.pendingOperations ++ [⟨cb.continuationID, type, cb⟩] }

/-- `submitWithStatus` differs from `submit` only in what it passes to the data handler. -/
def submitWithStatus (s : State) (type : OperationType) (handler : DataHandler) : State :=
  s.submit type handler

/-! ## Mount and exports -/

def mount (s : State) : State :=
  let caller := s.nextCaller
  let s := s.newCaller
  match s.context with
  | none => s.resumeContinuation caller (.failure .ENOTCONN)
  | some _ =>
    let cb : CallbackData :=
      { continuationID := s.nextContinuationID
        operationCategory := .metadata
        startTime := s.clock
        dataHandler := .void
        cleanup := false
        entry := .mount
        caller
        handle := none
        destBuffer := none }
    ((s.register cb).passRetained cb).handOver .mount cb

/-- `getexports`; `available` tells whether `rpc_init_context` returns a context. -/
def getexports (s : State) (available : Bool) : State :=
  let caller := s.nextCaller
  let s := s.newCaller
  match s.context with
  | none => s.resumeContinuation caller (.failure .ENOTCONN)
  | some _ =>
    if s.exports.rpcExportsCtx.isSome then s.resumeContinuation caller (.failure .EBUSY)
    else if !available then s.resumeContinuation caller (.failure .ENOMEM)
    else
      let n := s.nextRpc
      let cb : CallbackData :=
        { continuationID := s.nextContinuationID
          operationCategory := .metadata
          startTime := s.clock
          dataHandler := .exports
          cleanup := false
          entry := .getexports
          caller
          handle := none
          destBuffer := none }
      let s := { s.register cb with nextRpc := n + 1 }
      let s :=
        { s with
          exports :=
            { s.exports with
              rpcExportsCtx := some n
              rpcExportsContID := some cb.continuationID
              rpcExportsDone := false } }
      (s.passRetained cb).handOver (.getexports n) cb

/-! ## Operations on open handles -/

/-- What distinguishes the operations on an open handle. -/
structure HandleOperation where
  entry : EntryPoint
  operationCategory : OperationCategory
  dataHandler : DataHandler
  /-- Whether the operation allocates a heap buffer that its `cleanup` closure frees. -/
  cleanup : Bool := false
  /-- Whether the handle leaves the registry before the call. -/
  closes : Bool := false
  destBuffer : Option Nat := none
deriving DecidableEq, Repr

/-- The common body of the operations on an open handle. -/
def handleOperation (s : State) (op : HandleOperation) (handleID : Nat) : State :=
  let caller := s.nextCaller
  let s := s.newCaller
  match s.handleRegistry.lookup handleID with
  | none => s.resumeContinuation caller (.failure .EBADF)
  | some fh =>
    match s.context with
    | none => s.resumeContinuation caller (.failure .ENOTCONN)
    | some _ =>
      let cb : CallbackData :=
        { continuationID := s.nextContinuationID
          operationCategory := op.operationCategory
          startTime := s.clock
          dataHandler := op.dataHandler
          cleanup := op.cleanup
          entry := op.entry
          caller
          handle := some fh
          destBuffer := op.destBuffer }
      let s := s.register cb
      let s :=
        if op.closes then
          { s with
            handleRegistry := s.handleRegistry.filter (·.1 ≠ handleID)
            closedHandles := fh :: s.closedHandles }
        else s
      (s.passRetained cb).handOver .handleOperation cb

def closeFile (s : State) (handleID : Nat) : State :=
  s.handleOperation
    { entry := .closeFile, operationCategory := .metadata, dataHandler := .void, closes := true }
    handleID

def readFile (s : State) (handleID : Nat) : State :=
  s.handleOperation
    { entry := .readFile, operationCategory := .bulk, dataHandler := .takeBuffer, cleanup := true }
    handleID

def writeFile (s : State) (handleID : Nat) : State :=
  s.handleOperation
    { entry := .writeFile, operationCategory := .bulk, dataHandler := .byteCount, cleanup := true }
    handleID

def preadFile (s : State) (handleID : Nat) : State :=
  s.handleOperation
    { entry := .preadFile, operationCategory := .bulk, dataHandler := .takeBuffer, cleanup := true }
    handleID

def preadIntoBuffer (s : State) (handleID buffer : Nat) : State :=
  s.handleOperation
    { entry := .preadIntoBuffer
      operationCategory := .bulk
      dataHandler := .clampedCount
      destBuffer := some buffer }
    handleID

def pwriteFile (s : State) (handleID : Nat) : State :=
  s.handleOperation
    { entry := .pwriteFile, operationCategory := .bulk, dataHandler := .byteCount, cleanup := true }
    handleID

def fsync (s : State) (handleID : Nat) : State :=
  s.handleOperation
    { entry := .fsync, operationCategory := .metadata, dataHandler := .void } handleID

def fstat (s : State) (handleID : Nat) : State :=
  s.handleOperation
    { entry := .fstat, operationCategory := .metadata, dataHandler := .unwrap } handleID

def ftruncate (s : State) (handleID : Nat) : State :=
  s.handleOperation
    { entry := .ftruncate, operationCategory := .metadata, dataHandler := .void } handleID

def lseek (s : State) (handleID : Nat) : State :=
  s.handleOperation
    { entry := .lseek, operationCategory := .metadata, dataHandler := .offset } handleID

/-! ## Second queue blocks, and the close from `deinit` -/

/-- The object that the operation of the given type has delivered to `caller`. -/
def delivered (s : State) (type : OperationType) (caller : Nat) : Option Nat :=
  if s.created.any (fun cb => cb.caller = caller ∧ cb.entry = .submit type) then
    match s.outcomes caller with
    | [.success (.pointer p)] => some p
    | _ => none
  else none

/-- The second block of `openFile`: the `nfsfh` delivered to `opener` gets the next handle id. -/
def registerHandle (s : State) (opener fh : Nat) : State :=
  let caller := s.nextCaller
  let s := s.newCaller
  let handleID := s.nextHandleID
  { s with
    followed := opener :: s.followed
    nextHandleID := handleID + 1
    handleRegistry := (handleID, fh) :: s.handleRegistry
    registrations := (handleID, fh) :: s.registrations
    }.resumeContinuation caller (.success (.int handleID))

/-- `readdirAll` on the `nfsdir` delivered to `opener`; it reads and closes the directory. -/
def readdirAll (s : State) (opener dir : Nat) : State :=
  let caller := s.nextCaller
  let s := { s.newCaller with followed := opener :: s.followed }
  match s.context with
  | none => s.resumeContinuation caller (.failure .ENOTCONN)
  | some _ =>
    { s with closedDirs := dir :: s.closedDirs }.resumeContinuation caller (.success .void)

/-- `closeFileFireAndForget`, up to the synchronous `nfs_close`. -/
def closeFileFireAndForget (s : State) (handleID : Nat) : State :=
  match s.handleRegistry.lookup handleID with
  | none => s
  | some fh =>
    let s := { s with handleRegistry := s.handleRegistry.filter (·.1 ≠ handleID) }
    match s.context with
    | none => s
    | some _ => { s with closedHandles := fh :: s.closedHandles, stack := .close fh :: s.stack }

/-! ## Settings -/

/-- A setter: `context.unwrap()` throws `ENODATA` without a context, and `setSecurity` also refuses
while libnfs has a descriptor. -/
def configure (s : State) (x : Setting) : Except POSIXErrorCode State :=
  match s.context with
  | none => .error .ENODATA
  | some _ =>
    match x with
    | .security _ =>
      if s.lib.fd < 0 then .ok { s with settings := x :: s.settings } else .error .EISCONN
    | _ => .ok { s with settings := x :: s.settings }

/-- `setLogHandler`. -/
def setLogHandler (s : State) (handler : Bool) : State :=
  match s.context with
  | none => { s with logHandler := false }
  | some _ => { s with logHandler := handler }

/-! ## Source handlers -/

def handleIOEvent (s : State) : State :=
  match s.context with
  | none => s
  | some _ => { s with stack := .service :: s.stack }

def handleRpcExportsEvent (s : State) : State :=
  match s.exports.rpcExportsCtx with
  | none => s
  | some n => { s with stack := .rpcService n :: s.stack }

/-! ## Returns from libnfs -/

/-- The issuing call returned a negative code `rc`. -/
def rejected (s : State) (site : Site) (cb : CallbackData) (rc : Int) : State :=
  let s := s.setFate cb.caller .rejected
  let error : Outcome := .failure (.ofCode (-rc))
  match site with
  | .issueOperation =>
    ((s.release cb).removeActive cb.continuationID).resume cb error
  | .handleOperation =>
    (((s.runCleanup cb).release cb).removeActive cb.continuationID).resumeContinuation cb.caller error
  | .mount =>
    ((s.release cb).removeActive cb.continuationID).resumeContinuation cb.caller error
  | .getexports _ =>
    ((s.release cb).removeActive cb.continuationID).cleanupRpcExports (.getexports cb)
  | .pending i op =>
    -- the slot taken before the call is given back, then `failureCleanup` runs
    let s := s.addInFlight op.category (-1)
    let s := ((s.release cb).removeActive op.id).resume cb error
    s.updateWriteSource.drainFrom i

/-- The issuing call accepted the operation. -/
def accepted (s : State) (site : Site) (cb : CallbackData) : State :=
  match site with
  | .issueOperation | .handleOperation => (s.addInFlight cb.operationCategory 1).updateWriteSource
  | .mount =>
    if s.lib.fd ≥ 0 then
      { s with
        sources := s.sources.setupSources s.timeout s.lib
        isRunning := true }.updateWriteSource
    else { s with sources := s.sources.startTimeoutTimer s.timeout }
  | .getexports _ =>
    if s.rpcLib.fd ≥ 0 then
      { s with
        exports := s.exports.setupRpcExportsSources s.rpcLib.fd
        sources := s.sources.startTimeoutTimer s.timeout }
    else { s with sources := s.sources.startTimeoutTimer s.timeout }
  | .pending i _ => s.updateWriteSource.drainFrom i

/-- `handleIOEvent` after `nfs_service`. -/
def serviced (s : State) (rc : Int) : State :=
  if rc < 0 then s.shutdownWithError
  else
    let s :=
      if s.lib.fd ≥ 0 ∧ (s.lib.fd ≠ s.sources.currentFd ∨ s.sources.currentSocketIno = 0 ∨
          s.lib.socketIno ≠ s.sources.currentSocketIno) then
        { s with sources := s.sources.setupSources s.timeout s.lib }
      else s
    s.updateWriteSource.issuePendingOperations

/-- `handleRpcExportsEvent` after `rpc_service`. -/
def rpcServiced (s : State) (rc : Int) : State :=
  -- the callback may have run, in which case a negative result is expected
  if s.exports.rpcExportsDone then s.cleanupRpcExports .done
  else if rc < 0 then s.cleanupRpcExports .done
  else
    let exports :=
      if s.rpcLib.fd ≥ 0 then s.exports.setupRpcExportsSources s.rpcLib.fd else s.exports
    { s with exports := exports.updateRpcExportsWriteSource s.rpcLib.pollout }

/-- The requests libnfs still holds on a context it has destroyed are gone. -/
def dropRequests (s : State) (ctx : Ctx) : State :=
  { s with outstanding := s.outstanding.filter (·.ctx ≠ ctx) }

/-- libnfs accepts the request of the call, unless its callback has run inside the call. -/
def enqueueRequest (s : State) (ctx : Ctx) (cb : CallbackData) (ran : List Nat) : State :=
  if cb.caller ∈ ran then s else { s with outstanding := s.outstanding ++ [⟨ctx, cb⟩] }

end State

end NFSKit
