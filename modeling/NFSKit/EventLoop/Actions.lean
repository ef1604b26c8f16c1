import NFSKit.EventLoop.Step

/-!
# The actions of a step

A step runs Swift code up to the next libnfs call, so it can do many things: a timeout scan expires
any number of operations, a callback completes one operation and may hand over another. `Act` lists
the things a step is made of, each with what is known when it happens. A step is a sequence of
actions (`step_path`), and an invariant of the loop is proved by checking the actions one by one.

Between two actions of a step the loop may be inside the `while` loop of `issuePendingOperations`,
about to return from a completion hook, or inside a teardown: the `Mode` of a configuration tells.
-/

namespace NFSKit

/-- What the running code does next. -/
inductive Mode where
  /-- Anything: no drain and no hook to finish. -/
  | idle
  /-- The `while` loop of `issuePendingOperations`, at index `i`. -/
  | draining (i : Nat)
  /-- The completion hook that is running, if any, returns. -/
  | finishing
  /-- `performShutdown` or `shutdownWithError` goes on. -/
  | tearingDown (kind : Teardown)
deriving DecidableEq, Repr

/-- A state inside a step. -/
structure Config where
  state : State
  mode : Mode

/-- The configuration at the start and the end of a step. -/
def State.config (s : State) : Config := ⟨s, .idle⟩

/-- Whether an operation accepted at this site is counted when the call has returned. -/
def Site.countsLate : Site → Bool
  | .issueOperation | .handleOperation => true
  | _ => false

/-- What the code does after the call at this site. -/
def Site.next : Site → Mode
  | .pending i _ => .draining i
  | _ => .idle

/-- A call of `handleIOEvent`, `handleRpcExportsEvent` or `closeFileFireAndForget`. -/
def Frame.isEvent : Frame → Bool
  | .service | .rpcService _ | .close _ => true
  | _ => false

/-- What the caller of `cleanupRpcExports` is in the middle of. -/
def AfterCleanup.mode : AfterCleanup → Mode
  | .performShutdown => .tearingDown .performShutdown
  | _ => .idle

/-- Whether the raw continuation of `getexports` is resumed after `cleanupRpcExports`. -/
def AfterCleanup.isGetexports : AfterCleanup → Bool
  | .getexports _ => true
  | _ => false

/-- What becomes of the heap buffer of an operation that allocates one: the `Data` of a read takes it
over, and a write has only the count. -/
def EntryPoint.bufferHandler : EntryPoint → Option DataHandler
  | .readFile | .preadFile => some .takeBuffer
  | .writeFile | .pwriteFile => some .byteCount
  | _ => none

/-- Whether the function is one of the operations on an open handle. -/
def EntryPoint.onHandle : EntryPoint → Bool
  | .submit _ | .mount | .getexports => false
  | _ => true

/-- A `CallbackData` as the functions of the loop make it. -/
structure CallbackData.WellMade (cb : CallbackData) : Prop where
  cleanup : cb.cleanup = cb.entry.bufferHandler.isSome
  handler : ∀ h, cb.entry.bufferHandler = some h → cb.dataHandler = h
  dest : cb.destBuffer.isSome ↔ cb.entry = .preadIntoBuffer
  handle : cb.handle.isSome = cb.entry.onHandle

/-- The category of the operation that a block hands to libnfs without looking at the in-flight
count. -/
def Block.directCategory : Block → Option OperationCategory
  | .mount | .getexports _ => some .metadata
  | .readFile _ | .writeFile _ | .preadFile _ | .preadIntoBuffer _ _ | .pwriteFile _ => some .bulk
  | .closeFile _ | .fsync _ | .fstat _ | .ftruncate _ | .lseek _ => some .metadata
  | _ => none

/-- Whether the block gets as far as its libnfs call. -/
def Block.reachesCall (s : State) : Block → Bool
  | .getexports available => s.context.isSome && available && s.exports.rpcExportsCtx.isNone
  | .closeFile h | .readFile h | .writeFile h | .preadFile h | .preadIntoBuffer h _ | .pwriteFile h
  | .fsync h | .fstat h | .ftruncate h | .lseek h =>
    s.context.isSome && (s.handleRegistry.lookup h).isSome
  | _ => s.context.isSome

/-- The type and the handler of the operation that a block submits. -/
def Event.submits : Event → Option (OperationType × DataHandler)
  | .block (.submit type handler) | .block (.submitWithStatus type handler) => some (type, handler)
  | _ => none

/-- Whether the event is the return of a libnfs call. -/
def Event.returns : Event → Bool
  | .ret _ _ => true
  | _ => false

/-- Whether libnfs runs a callback. -/
def Event.callsBack : Event → Bool
  | .callback _ _ _ => true
  | _ => false

/-- Whether the event starts a queue block. -/
def Event.starts : Event → Bool
  | .block _ | .deinit _ => true
  | _ => false

/-- Whether the event calls `performShutdown`. -/
def Event.shutsDown : Event → Bool
  | .block .shutdown | .deinit _ => true
  | _ => false

namespace State

/-- What `nfsCallback` and `rpcCallback` make of a reply: the result, whether the completion hook is
told of a success, and the state with the operation's heap buffer disposed of. -/
def settle (s : State) (cb : CallbackData) (status : Int) (data : Option Value) :
    Outcome × Bool × State :=
  let (result, handled) := s.dataHandler cb status data
  if cb.entry = .getexports then
    if status ≠ 0 then (.failure (.ofCode status), false, s) else (result, result.isSuccess, handled)
  else if status < 0 then (.failure (.ofCode (-status)), false, s.runCleanup cb)
  else (result, result.isSuccess, handled)

/-- The callback of `cb` has made its result of the reply and is inside the completion hook. -/
def enterHook (s : State) (cb : CallbackData) (status : Int) (data : Option Value) : State :=
  let r := ((s.setFate cb.caller (.called status)).release cb).settle cb status data
  { r.2.2 with stack := .completionHook cb r.1 :: r.2.2.stack }

/-- Whether the completion hook of `cb` is told of a success. -/
def replySucceeds (s : State) (cb : CallbackData) (status : Int) (data : Option Value) : Bool :=
  (s.settle cb status data).2.1

/-- The innermost call is over. -/
def leaveTo (s : State) (rest : List Frame) : State := { s with stack := rest }

/-- libnfs has refused `cb`: the call is over, the operation registered under `id` leaves the registry
and its reference is given back. -/
def refuse (s : State) (rest : List Frame) (id : Nat) (cb : CallbackData) : State :=
  { s with
    stack := rest
    activeContinuations := s.activeContinuations.filter (·.continuationID ≠ id)
    fates := Function.update s.fates cb.caller (some .rejected)
    retained := Function.update s.retained cb.caller (s.retained cb.caller - 1) }

/-- The heap buffers are now `b`. -/
def withBuffers (s : State) (b : Nat → HeapBuffer) : State := { s with buffers := b }

/-- The snapshot of a teardown is taken, and the registries are emptied. -/
def clearRegistries (s : State) (kind : Teardown) : State :=
  let s := { s with activeContinuations := [], pendingOperations := [] }
  match kind with
  | .performShutdown => { s with handleRegistry := [] }
  | .shutdownWithError => s

end State

/-- What is known when `cb` is handed to libnfs at a site that registers it. -/
structure Issued (s : State) (site : Site) (cb : CallbackData) : Prop where
  capacity : site = .issueOperation → s.hasCapacity cb.operationCategory
  exports : cb.entry = .getexports ↔ ∃ n, site = .getexports n
  mount : cb.entry = .mount ↔ site = .mount
  category : ¬ site.countsLate → cb.operationCategory = .metadata
  buffered : cb.cleanup → site = .handleOperation
  dest : ∀ b, cb.destBuffer = some b → site = .handleOperation ∧ b ∉ s.releasedBuffers ∧
    ∃ h fh, s.handleRegistry.lookup h = some fh ∧ cb.handle = some fh

inductive Action where
  /-- Nothing that `Core` records. -/
  | silent
  | releaseBuffer (buffer : Nat)
  | deinit
  | startTeardown (kind : Teardown)
  /-- A call of one of the loop's functions is answered at once. -/
  | immediate (result : Outcome)
  /-- An operation is registered and handed to libnfs. -/
  | start (site : Site) (cb : CallbackData)
  /-- An operation is registered and refused with `ENOBUFS`. -/
  | overflow (cb : CallbackData)
  /-- An operation is registered and queued. -/
  | enqueue (type : OperationType) (cb : CallbackData)
  /-- A handle leaves the registry to be closed by `closeFile`. -/
  | closing (handleID fh : Nat)
  /-- A handle leaves the registry of a loop without a context. -/
  | dropHandle (handleID fh : Nat)
  /-- A handle leaves the registry and `nfs_close` begins. -/
  | enterClose (handleID fh : Nat)
  | registerHandle (opener fh : Nat)
  /-- An `nfsdir` is read and closed. -/
  | readdirAll (opener dir : Nat)
  /-- The `nfsdir` of a loop without a context is dropped. -/
  | dropDir (opener dir : Nat)
  /-- `nfs_service` or `rpc_service` begins. -/
  | enter (f : Frame)
  /-- `nfs_service`, `rpc_service` or `nfs_close` is over. -/
  | leave (f : Frame)
  | expire (cb : CallbackData)
  /-- libnfs runs the callback of `cb` inside the call `f`. -/
  | callback (f : Frame) (cb : CallbackData) (status : Int) (data : Option Value)
  /-- An entry of the pending queue is left where it is. -/
  | skip (i : Nat)
  /-- An entry of the pending queue is handed to libnfs. -/
  | execute (i : Nat) (op : PendingOperation)
  | drained
  | finishHook
  | accept (site : Site) (cb : CallbackData) (ran : List Nat)
  | reject (site : Site) (cb : CallbackData) (ran : List Nat)
  | enterRpcDestroy (rpc : Nat) (next : AfterCleanup)
  | leaveRpcDestroy (rpc : Nat) (next : AfterCleanup)
  /-- `nfs_destroy_context` begins. -/
  | enterDestroy (kind : Teardown)
  | leaveDestroy (kind : Teardown) (continuations : List CallbackData)
  /-- A teardown of a loop that has no context any more. -/
  | teardown
deriving DecidableEq, Repr

/-- The actions, each with what is known when it happens. -/
inductive Act : Config → Action → Config → Prop where
  | silent {s s' : State} {m : Mode} (hcore : s'.toCore = s.toCore) (halive : s'.alive = s.alive)
      (hqueue : s'.onQueue = s.onQueue) (hpre : s'.preconditionFailed = s.preconditionFailed) :
      Act ⟨s, m⟩ .silent ⟨s', m⟩
  | releaseBuffer {s : State} {b : Nat} (h : s.allResumed fun cb => cb.destBuffer == some b) :
      Act ⟨s, .idle⟩ (.releaseBuffer b) ⟨{ s with releasedBuffers := b :: s.releasedBuffers }, .idle⟩
  | deinit {s : State} {q : Bool} (hstack : s.stack = []) (h : s.nobodyWaits) :
      Act ⟨s, .idle⟩ .deinit
        ⟨{ s with alive := false, onQueue := q }, .tearingDown .performShutdown⟩
  | startTeardown {s : State} {m : Mode} {kind : Teardown} (hstack : s.stack = [])
      (hm : m = .idle ∨ m = .tearingDown kind) :
      Act ⟨s, m⟩ (.startTeardown kind) ⟨{ s with teardownStarted := true }, .tearingDown kind⟩
  | immediate {s : State} {r : Outcome} :
      Act ⟨s, .idle⟩ (.immediate r) ⟨s.newCaller.resumeContinuation s.nextCaller r, .idle⟩
  | start {s : State} {site : Site} {cb : CallbackData} (hstack : s.stack = [])
      (hctx : s.context.isSome) (hsite : site.isPending = false)
      (hid : cb.continuationID = s.nextContinuationID) (hcaller : cb.caller = s.nextCaller)
      (hmade : cb.WellMade) (hissued : Issued s site cb) :
      Act ⟨s, .idle⟩ (.start site cb)
        ⟨((s.newCaller.register cb).passRetained cb).handOver site cb, .idle⟩
  | overflow {s : State} {cb : CallbackData} {r : Outcome} (hctx : s.context.isSome)
      (hid : cb.continuationID = s.nextContinuationID) (hcaller : cb.caller = s.nextCaller)
      (hmade : cb.WellMade) (hentry : ∃ type, cb.entry = .submit type)
      (hfailed : r.isSuccess = false) :
      Act ⟨s, .idle⟩ (.overflow cb)
        ⟨((s.newCaller.register cb).removeActive cb.continuationID).resumeContinuation cb.caller r,
          .idle⟩
  | enqueue {s : State} {type : OperationType} {cb : CallbackData} (hctx : s.context.isSome)
      (hid : cb.continuationID = s.nextContinuationID) (hcaller : cb.caller = s.nextCaller)
      (hcategory : cb.operationCategory = type.category) (hentry : cb.entry = .submit type)
      (hcap : s.hasCapacity type.category = false)
      (hroom : s.pendingOperations.length < maxPendingOperations)
      (hmade : cb.WellMade) (hcleanup : cb.cleanup = false) (hstack : s.stack = []) :
      Act ⟨s, .idle⟩ (.enqueue type cb)
        ⟨{ (s.newCaller.register cb).passRetained cb with
            pendingOperations := s.pendingOperations ++ [⟨cb.continuationID, type, cb⟩] }, .idle⟩
  | closing {s : State} {h fh : Nat} (hlookup : s.handleRegistry.lookup h = some fh)
      (hctx : s.context.isSome) :
      Act ⟨s, .idle⟩ (.closing h fh)
        ⟨{ s with
            handleRegistry := s.handleRegistry.filter (·.1 ≠ h)
            closedHandles := fh :: s.closedHandles }, .idle⟩
  | dropHandle {s : State} {h fh : Nat} (hlookup : s.handleRegistry.lookup h = some fh)
      (hctx : s.context = none) :
      Act ⟨s, .idle⟩ (.dropHandle h fh)
        ⟨{ s with handleRegistry := s.handleRegistry.filter (·.1 ≠ h) }, .idle⟩
  | enterClose {s : State} {h fh : Nat} (hstack : s.stack = []) (hctx : s.context.isSome)
      (hlookup : s.handleRegistry.lookup h = some fh)
      (hdone : s.allResumed fun cb => cb.handle.isSome && cb.handle == s.registrations.lookup h) :
      Act ⟨s, .idle⟩ (.enterClose h fh)
        ⟨{ s with
            handleRegistry := s.handleRegistry.filter (·.1 ≠ h)
            closedHandles := fh :: s.closedHandles
            stack := .close fh :: s.stack }, .idle⟩
  | registerHandle {s : State} {opener fh : Nat} (hopener : opener ∉ s.followed)
      (hdelivered : s.delivered .open opener = some fh) :
      Act ⟨s, .idle⟩ (.registerHandle opener fh)
        ⟨{ s with
            followed := opener :: s.followed
            nextHandleID := s.nextHandleID + 1
            handleRegistry := (s.nextHandleID, fh) :: s.handleRegistry
            registrations := (s.nextHandleID, fh) :: s.registrations }, .idle⟩
  | readdirAll {s : State} {opener dir : Nat} (hopener : opener ∉ s.followed)
      (hdelivered : s.delivered .opendir opener = some dir) (hctx : s.context.isSome) :
      Act ⟨s, .idle⟩ (.readdirAll opener dir)
        ⟨{ s with followed := opener :: s.followed, closedDirs := dir :: s.closedDirs }, .idle⟩
  | dropDir {s : State} {opener dir : Nat} (hopener : opener ∉ s.followed)
      (hdelivered : s.delivered .opendir opener = some dir) (hctx : s.context = none) :
      Act ⟨s, .idle⟩ (.dropDir opener dir)
        ⟨{ s with followed := opener :: s.followed }, .idle⟩
  | enter {s : State} {f : Frame} (hstack : s.stack = []) (hf : f = .service ∨ ∃ n, f = .rpcService n) :
      Act ⟨s, .idle⟩ (.enter f) ⟨{ s with stack := f :: s.stack }, .idle⟩
  | leave {s : State} {f : Frame} {rest : List Frame} {m : Mode} (hstack : s.stack = f :: rest)
      (hf : f.isEvent) (hm : m = .idle ∨ m = .draining 0) :
      Act ⟨s, .idle⟩ (.leave f) ⟨s.leaveTo rest, m⟩
  | expire {s : State} {cb : CallbackData} (hstack : s.stack = [])
      (hmem : cb ∈ s.activeContinuations) :
      Act ⟨s, .idle⟩ (.expire cb) ⟨s.expire cb, .idle⟩
  | callback {s s₁ s₂ : State} {f : Frame} {rest : List Frame} {cb : CallbackData} {status : Int}
      {data : Option Value} (halive : s.alive) (hstack : s.stack = f :: rest)
      (htake : s.takeRequest f rest cb.continuationID = some (cb, s₁))
      (hnote : s₁.noteDelivery cb status data = some s₂) :
      Act ⟨s, .idle⟩ (.callback f cb status data)
        ⟨((s₂.enterHook cb status data).removeActive cb.continuationID).recordCompletion
          cb.operationCategory (s₂.replySucceeds cb status data), .draining 0⟩
  /-- After `deinit` the completion hook does nothing. -/
  | callbackDead {s s₁ s₂ : State} {f : Frame} {rest : List Frame} {cb : CallbackData} {status : Int}
      {data : Option Value} (halive : s.alive = false) (hstack : s.stack = f :: rest)
      (htake : s.takeRequest f rest cb.continuationID = some (cb, s₁))
      (hnote : s₁.noteDelivery cb status data = some s₂) :
      Act ⟨s, .idle⟩ (.callback f cb status data) ⟨s₂.enterHook cb status data, .finishing⟩
  | skip {s : State} {i : Nat} {op : PendingOperation} (hop : s.pendingOperations[i]? = some op)
      (hcap : s.hasCapacity op.category = false) :
      Act ⟨s, .draining i⟩ (.skip i) ⟨s, .draining (i + 1)⟩
  | execute {s : State} {i : Nat} {op : PendingOperation} (hctx : s.context.isSome)
      (hop : s.pendingOperations[i]? = some op) (hcap : s.hasCapacity op.category) :
      Act ⟨s, .draining i⟩ (.execute i op) ⟨s.executePending i op, .idle⟩
  | drained {s : State} {i : Nat} (h : s.context = none ∨ s.pendingOperations[i]? = none) :
      Act ⟨s, .draining i⟩ .drained ⟨s, .finishing⟩
  | finishHook {s : State} : Act ⟨s, .finishing⟩ .finishHook ⟨s.finishHook, .idle⟩
  | accept {s : State} {site : Site} {cb : CallbackData} {ran : List Nat} {rest : List Frame}
      (hstack : s.stack = .handOver site cb ran :: rest) :
      Act ⟨s, .idle⟩ (.accept site cb ran)
        ⟨if site.countsLate then
            ((s.leaveTo rest).enqueueRequest site.ctx cb ran).addInFlight cb.operationCategory 1
          else (s.leaveTo rest).enqueueRequest site.ctx cb ran, site.next⟩
  /-- `issueOperation` was refused. -/
  | reject {s : State} {cb : CallbackData} {ran : List Nat} {rest : List Frame} {r : Outcome}
      (hstack : s.stack = .handOver .issueOperation cb ran :: rest) (hran : cb.caller ∉ ran)
      (hfailed : r.isSuccess = false) :
      Act ⟨s, .idle⟩ (.reject .issueOperation cb ran)
        ⟨(s.refuse rest cb.continuationID cb).resume cb r, .idle⟩
  /-- A deferred operation was refused: its slot is given back and `failureCleanup` runs. -/
  | rejectPending {s : State} {i : Nat} {op : PendingOperation} {cb : CallbackData} {ran : List Nat}
      {rest : List Frame} {r : Outcome} (hstack : s.stack = .handOver (.pending i op) cb ran :: rest)
      (hran : cb.caller ∉ ran) (hfailed : r.isSuccess = false) :
      Act ⟨s, .idle⟩ (.reject (.pending i op) cb ran)
        ⟨((s.refuse rest op.id cb).addInFlight op.category (-1)).resume cb r, .draining i⟩
  /-- A call that resumes its raw continuation on failure was refused. -/
  | rejectRaw {s : State} {site : Site} {cb : CallbackData} {ran : List Nat} {rest : List Frame}
      {r : Outcome} (hstack : s.stack = .handOver site cb ran :: rest) (hran : cb.caller ∉ ran)
      (hsite : site = .mount ∨ ∃ n, site = .getexports n) (hfailed : r.isSuccess = false) :
      Act ⟨s, .idle⟩ (.reject site cb ran)
        ⟨(s.refuse rest cb.continuationID cb).resumeContinuation cb.caller r, .idle⟩
  /-- An operation on an open handle was refused. -/
  | rejectHandle {s : State} {cb : CallbackData} {ran : List Nat} {rest : List Frame} {r : Outcome}
      (hstack : s.stack = .handOver .handleOperation cb ran :: rest) (hran : cb.caller ∉ ran)
      (hfailed : r.isSuccess = false) :
      Act ⟨s, .idle⟩ (.reject .handleOperation cb ran)
        ⟨((s.refuse rest cb.continuationID cb).withBuffers
          (s.runCleanup cb).buffers).resumeContinuation cb.caller r, .idle⟩
  /-- `getexports` was refused: the export context is destroyed before the continuation is
  resumed. -/
  | rejectExports {s : State} {n k : Nat} {cb : CallbackData} {ran : List Nat} {rest : List Frame}
      (hstack : s.stack = .handOver (.getexports n) cb ran :: rest) (hran : cb.caller ∉ ran)
      (hrest : rest = []) :
      Act ⟨s, .idle⟩ (.reject (.getexports n) cb ran)
        ⟨s.refuse (.rpcDestroy k (.getexports cb) :: rest) cb.continuationID cb, .idle⟩
  | enterRpcDestroy {s : State} {n : Nat} {next : AfterCleanup} (hstack : s.stack = [])
      (hnext : next.isGetexports = false) :
      Act ⟨s, next.mode⟩ (.enterRpcDestroy n next)
        ⟨{ s with stack := .rpcDestroy n next :: s.stack }, .idle⟩
  | leaveRpcDestroy {s : State} {n : Nat} {next : AfterCleanup} {rest : List Frame}
      (hstack : s.stack = .rpcDestroy n next :: rest) (hnext : next.isGetexports = false) :
      Act ⟨s, .idle⟩ (.leaveRpcDestroy n next) ⟨(s.leaveTo rest).dropRequests (.rpc n), next.mode⟩
  /-- The failed `getexports` resumes its raw continuation. -/
  | exportsFailed {s : State} {n : Nat} {cb : CallbackData} {rest : List Frame} {r : Outcome}
      (hstack : s.stack = .rpcDestroy n (.getexports cb) :: rest) (hfailed : r.isSuccess = false) :
      Act ⟨s, .idle⟩ (.leaveRpcDestroy n (.getexports cb))
        ⟨((s.leaveTo rest).dropRequests (.rpc n)).resumeContinuation cb.caller r, .idle⟩
  | enterDestroy {s : State} {kind : Teardown} (hctx : s.context.isSome) (hstack : s.stack = []) :
      Act ⟨s, .tearingDown kind⟩ (.enterDestroy kind)
        ⟨{ s.clearRegistries kind with
            context := none, stack := .destroy kind s.activeContinuations :: s.stack }, .idle⟩
  | leaveDestroy {s : State} {kind : Teardown} {conts : List CallbackData} {rest : List Frame}
      (hstack : s.stack = .destroy kind conts :: rest) (hrest : rest = []) :
      Act ⟨s, .idle⟩ (.leaveDestroy kind conts)
        ⟨((s.leaveTo rest).dropRequests .nfs).endTeardown kind conts, .idle⟩
  /-- Without a context there is nothing to destroy. -/
  | teardownNow {s : State} {kind : Teardown} (hctx : s.context = none) (hstack : s.stack = []) :
      Act ⟨s, .tearingDown kind⟩ .teardown
        ⟨(s.clearRegistries kind).endTeardown kind s.activeContinuations, .idle⟩
  /-- `performShutdown` of a loop that is down already. -/
  | alreadyDown {s : State} {m : Mode} (hctx : s.context = none)
      (hactive : s.activeContinuations = [])
      (hm : m = .idle ∨ m = .tearingDown .performShutdown) :
      Act ⟨s, m⟩ .teardown ⟨{ s with teardowns := s.teardowns + 1 }, .idle⟩

/-- Whether the step goes on to destroy the `nfs_context`, if there is one: it empties the registry and
the queue before. -/
def State.tearsDown (s : State) : Event → Bool
  | .block .shutdown | .deinit _ => s.exports.rpcExportsCtx.isNone
  | .ret rc _ =>
    match s.stack with
    | .service :: _ => rc < 0
    | .rpcDestroy _ .performShutdown :: _ => true
    | _ => false
  | _ => false

/-- What the in-flight counts and the queue depend on is the same. -/
structure Core.SamePipeline (s t : Core) : Prop where
  context : s.context = t.context
  pending : s.pendingOperations = t.pendingOperations
  outstanding : s.outstanding = t.outstanding
  counts : s.inFlightCount = t.inFlightCount
  bulk : s.bulkController = t.bulkController
  metadata : s.metadataController = t.metadataController

theorem Core.SamePipeline.refl (s : Core) : s.SamePipeline s := ⟨rfl, rfl, rfl, rfl, rfl, rfl⟩

/-- How the actions of the step from `s` with the event `e` come out of `s` and `e`; `k` is the
configuration in which the action is taken. -/
def Allowed (s : State) (e : Event) (k : Config) : Action → Prop
  | .deinit => ∃ onQueue, e = .deinit onQueue
  | .startTeardown kind => kind = .performShutdown → e.shutsDown
  | .enterRpcDestroy _ next => next = .performShutdown → e.shutsDown
  | .enterDestroy _ =>
    s.tearsDown e ∧ k.state.pendingOperations = s.pendingOperations ∧
      ∀ r ∈ k.state.outstanding, r ∈ s.outstanding
  | .enter f => k.state = s ∧ (f = .service → s.context.isSome)
  | .leaveRpcDestroy _ _ | .leaveDestroy _ _ => k.state = s ∧ ∃ rc view, e = .ret rc view
  | .start site cb =>
    (∀ type, cb.entry = .submit type → e.submits = some (type, cb.dataHandler)) ∧
      (∀ fh, cb.handle = some fh → ∃ h, s.handleRegistry.lookup h = some fh) ∧
      (site = .issueOperation ∧ (∃ x ∈ e.submits, cb.operationCategory = x.1.category) ∨
        ∃ b, e = .block b ∧ b.directCategory = some cb.operationCategory ∧ b.reachesCall s) ∧
      k.state.SamePipeline s.toCore
  | .overflow cb => ∀ type, cb.entry = .submit type → e.submits = some (type, cb.dataHandler)
  | .enqueue _ cb =>
    (∀ type, cb.entry = .submit type → e.submits = some (type, cb.dataHandler)) ∧
      k.state.SamePipeline s.toCore
  | .expire cb =>
    e = .block .scanForTimeouts ∧ cb ∈ s.activeContinuations ∧ s.expired cb ∧ 0 < s.timeout ∧
      k.state.pendingOperations = s.pendingOperations ∧ k.state.outstanding = s.outstanding
  | .callback _ cb status data => k.state = s ∧ e = .callback cb.continuationID status data
  | .accept _ _ _ => k.state.toCore = s.toCore ∧ ∃ rc view, e = .ret rc view ∧ 0 ≤ rc
  | .reject _ _ _ => k.state.toCore = s.toCore ∧ ∃ rc view, e = .ret rc view ∧ rc < 0
  | _ => True

end NFSKit
