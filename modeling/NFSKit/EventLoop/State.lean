import NFSKit.Pipeline
import NFSKit.POSIXError
import Mathlib.Logic.Function.Basic

/-!
# The state of the event loop

The stored properties of `NFSEventLoop`, the `CallbackData` objects it hands to libnfs, the state of
libnfs that is visible through its interface (which requests it holds, the descriptor it uses), and
the control stack of the queue block that is running.

A queue block runs until it calls libnfs; inside that call libnfs may invoke callbacks, which run
Swift code and may call libnfs again. The control stack records the calls in progress, innermost
first, each with what the Swift code does when it returns. An empty stack means that no queue block
is running.

The last fields of `Core` are observations: what the callers of the loop have received, what became of
the heap buffers, and which operations were handed to libnfs. No function of the loop reads them.
-/

namespace NFSKit

/-- The libnfs contexts: the loop's `nfs_context`, and the `rpc_context`s made for export queries. -/
inductive Ctx where
  | nfs
  | rpc (n : Nat)
deriving DecidableEq, Repr

/-- What a result, or the memory behind a callback's data pointer, can hold. -/
inductive Value where
  | void
  | int (n : Int)
  /-- An object of libnfs (`nfsfh`, `nfsdir`) or a struct it fills in (a stat, a path). -/
  | pointer (p : Nat)
  /-- A `Data` of this many bytes. -/
  | data (count : Int)
  /-- The `exportnode` list of a mount reply; a node may have no directory. -/
  | exportNodes (dirs : List (Option String))
  | strings (list : List String)
deriving DecidableEq, Repr

/-- Swift's `Result<Any, Error>`. -/
inductive Outcome where
  | success (value : Value)
  | failure (error : POSIXErrorCode)
deriving DecidableEq, Repr

def Outcome.isSuccess : Outcome → Bool
  | .success _ => true
  | .failure _ => false

/-- The functions of the loop that hand a request to libnfs. -/
inductive EntryPoint where
  /-- `submit` and `submitWithStatus`, for an operation of the given type. -/
  | submit (type : OperationType)
  | mount | getexports
  | closeFile | readFile | writeFile | preadFile | preadIntoBuffer | pwriteFile
  | fsync | fstat | ftruncate | lseek
deriving DecidableEq, Repr

/-- The `dataHandler` closures of the loop. -/
inductive DataHandler where
  /-- `.success(())`. -/
  | void
  /-- `try ptr.unwrap()`, and the `guard let ptr` of `fstat`: no pointer is `ENODATA`. -/
  | unwrap
  /-- `lseek`: no pointer is offset 0. -/
  | offset
  /-- `getexports`: collects the directories of the reply; no pointer is no exports. -/
  | exports
  /-- `readFile`, `preadFile`: a positive status is the byte count of the heap buffer, which the
  returned `Data` takes over; otherwise the buffer is freed. -/
  | takeBuffer
  /-- `writeFile`, `pwriteFile`: `.success(Int(status))`. -/
  | byteCount
  /-- `preadIntoBuffer`: `.success(Int(max(0, status)))`. -/
  | clampedCount
deriving DecidableEq, Repr

/-- A `CallbackData` object, less its mutable `hasResumed` flag. -/
structure CallbackData where
  continuationID : Nat
  operationCategory : OperationCategory
  startTime : Nat
  dataHandler : DataHandler
  /-- Whether a `cleanup` closure that frees the operation's heap buffer is set. -/
  cleanup : Bool
  /-- The function that made the object; `getexports` sets its own `completionHook`. -/
  entry : EntryPoint
  /-- The Swift continuation captured by `_resume`: one for each call of the loop's functions. -/
  caller : Nat
  /-- The `nfsfh` the request is issued on. -/
  handle : Option Nat
  /-- The caller-owned buffer of `preadIntoBuffer`. -/
  destBuffer : Option Nat
deriving DecidableEq, Repr

/-- An operation waiting to be issued; its two closures capture the `CallbackData`. -/
structure PendingOperation where
  id : Nat
  type : OperationType
  cbData : CallbackData
deriving DecidableEq, Repr

/-- A request libnfs has accepted on a context and whose callback has not run. -/
structure Request where
  ctx : Ctx
  cb : CallbackData
deriving DecidableEq, Repr

/-- Where an operation is handed to libnfs. -/
inductive Site where
  /-- `issueOperation`, called by `submit`. -/
  | issueOperation
  /-- One of the ten operations on an open handle. -/
  | handleOperation
  | mount
  | getexports (rpc : Nat)
  /-- `op.execute(ctx)` in the loop of `issuePendingOperations`, at index `i`. -/
  | pending (i : Nat) (op : PendingOperation)
deriving DecidableEq, Repr

/-- What runs after `cleanupRpcExports`. -/
inductive AfterCleanup where
  /-- Nothing: the end of a timeout scan or of an export event. -/
  | done
  /-- The rest of `performShutdown`. -/
  | performShutdown
  /-- The failed `getexports` resumes its raw continuation. -/
  | getexports (cb : CallbackData)
deriving DecidableEq, Repr

/-- Which function tears the context down. -/
inductive Teardown where
  | performShutdown
  | shutdownWithError
deriving DecidableEq, Repr

/-- A call in progress. -/
inductive Frame where
  /-- An operation is being handed to libnfs; `ran` lists the callers whose callbacks libnfs has run
  inside the call so far. -/
  | handOver (site : Site) (cb : CallbackData) (ran : List Nat)
  /-- `nfsCallback` or `rpcCallback`, inside the completion hook; `resume(result)` comes next. -/
  | completionHook (cb : CallbackData) (result : Outcome)
  /-- `nfs_service`. -/
  | service
  /-- `rpc_service`. -/
  | rpcService (rpc : Nat)
  /-- The synchronous `nfs_close`. -/
  | close (fh : Nat)
  /-- `rpc_destroy_context` in `cleanupRpcExports`. -/
  | rpcDestroy (rpc : Nat) (next : AfterCleanup)
  /-- `nfs_destroy_context`, with the snapshot of the continuations to resume afterwards. -/
  | destroy (kind : Teardown) (continuations : List CallbackData)
deriving DecidableEq, Repr

/-- What became of a request handed to libnfs. -/
inductive Fate where
  /-- The issuing call returned a negative code. -/
  | rejected
  /-- Its callback ran with this status. -/
  | called (status : Int)
deriving DecidableEq, Repr

/-- What became of the heap buffer of a read or write. -/
structure HeapBuffer where
  deallocations : Nat := 0
  /-- How often a returned `Data` took the buffer over. -/
  handovers : Nat := 0
deriving DecidableEq, Repr

/-- The moment an operation is handed to libnfs. -/
structure HandOver where
  cb : CallbackData
  /-- Whether it comes out of the pending queue. -/
  deferred : Bool
  /-- Whether its caller had been resumed already. -/
  resumed : Bool
  /-- How many operations of its category libnfs held just before. -/
  outstanding : Nat
  /-- The effective depth of its category. -/
  depth : Int
  /-- Whether a teardown of the loop had started. -/
  tornDown : Bool
deriving DecidableEq, Repr

/-- The event loop without its sources and settings, with libnfs's requests, the control stack and the
observations. -/
structure Core where
  /-- `context`: present until a teardown. -/
  context : Option Ctx := some .nfs
  bulkController : PipelineController := {}
  metadataController : PipelineController := {}
  pendingOperations : List PendingOperation := []
  /-- `_inFlightCount`. -/
  inFlightCount : OperationCategory → Int := fun _ => 0
  /-- `handleRegistry`: handle ids and their `nfsfh`. -/
  handleRegistry : List (Nat × Nat) := []
  nextHandleID : Nat := 1
  /-- `activeContinuations`; the key of an entry is its `continuationID`. -/
  activeContinuations : List CallbackData := []
  nextContinuationID : Nat := 1
  /-- The mutable `hasResumed` flag of the `CallbackData` of each caller. -/
  hasResumed : Nat → Bool := fun _ => false
  /-- The references taken by `Unmanaged.passRetained` and not yet released, by caller. -/
  retained : Nat → Int := fun _ => 0
  /-- The requests libnfs has accepted and not called back. -/
  outstanding : List Request := []
  /-- Calls in progress, innermost first. -/
  stack : List Frame := []
  /-- The continuation of the next call of one of the loop's functions. -/
  nextCaller : Nat := 0
  /-- Every `CallbackData` made so far. -/
  created : List CallbackData := []
  /-- What each caller's continuation has been resumed with. -/
  outcomes : Nat → List Outcome := fun _ => []
  /-- The heap buffer of each caller's operation. -/
  buffers : Nat → HeapBuffer := fun _ => {}
  fates : Nat → Option Fate := fun _ => none
  /-- The operations handed to libnfs, latest first. -/
  handOvers : List HandOver := []
  /-- Whether the clamp of `recordCompletion` ever changed a count. -/
  clamped : OperationCategory → Bool := fun _ => false
  /-- The caller-owned read buffers that were freed or handed out. -/
  releasedBuffers : List Nat := []
  /-- The `nfsfh` objects delivered by open callbacks. -/
  nfsfhs : List Nat := []
  /-- The `nfsdir` objects delivered by opendir callbacks. -/
  nfsdirs : List Nat := []
  /-- The `nfsfh` objects passed to `nfs_close` or `nfs_close_async`. -/
  closedHandles : List Nat := []
  /-- The `nfsdir` objects passed to `nfs_closedir`. -/
  closedDirs : List Nat := []
  /-- The handle ids registered so far, with their `nfsfh`. -/
  registrations : List (Nat × Nat) := []
  /-- The callers of `openFile` and `contentsOfDirectory` whose second queue block has run. -/
  followed : List Nat := []
  teardownStarted : Bool := false
  /-- How many calls of `performShutdown` and `shutdownWithError` have finished. -/
  teardowns : Nat := 0

/-- A Dispatch source on a descriptor. -/
structure DispatchSource where
  /-- Which source it is: how many have been made before it. -/
  serial : Nat
  fd : Int
  /-- The inode of the socket it was made for. -/
  socketIno : Nat
  /-- That socket itself: closing it ends the source, whatever `fd` denotes afterwards. -/
  socket : Nat := 0
  /-- How often it has to be resumed to be active; a fresh source is suspended once. -/
  suspensions : Nat := 1
  cancelled : Bool := false
  /-- Whether it has been resumed while it was not suspended, on which Dispatch traps. -/
  overResumed : Bool := false
deriving DecidableEq, Repr

/-- The event sources of the main connection and the timeout timer. -/
structure Sources where
  readSource : Option DispatchSource := none
  writeSource : Option DispatchSource := none
  currentFd : Int := -1
  currentSocketIno : Nat := 0
  timeoutTimer : Bool := false
  writeSourceSuspended : Bool := true
  /-- How many sources have been made. -/
  made : Nat := 0
  /-- The sources whose reference has been given up, latest first, as they were then. -/
  dropped : List DispatchSource := []
deriving DecidableEq, Repr

/-- The separate RPC context of `getexports` and its sources. -/
structure RpcExports where
  rpcExportsCtx : Option Nat := none
  rpcExportsReadSource : Option DispatchSource := none
  rpcExportsWriteSource : Option DispatchSource := none
  rpcExportsWriteSuspended : Bool := true
  rpcExportsDone : Bool := false
  rpcExportsContID : Option Nat := none
  /-- As `Sources.made`. -/
  made : Nat := 0
  /-- As `Sources.dropped`. -/
  dropped : List DispatchSource := []
deriving DecidableEq, Repr

/-- What libnfs answers about a context: `nfs_get_fd`, the inode of that socket, and whether
`nfs_which_events` includes `POLLOUT`. -/
structure LibView where
  fd : Int := -1
  /-- What `fstat` tells of the inode, 0 where it tells nothing. -/
  socketIno : Nat := 0
  /-- The socket `fd` denotes, which the loop cannot see. -/
  socket : Nat := 0
  pollout : Bool := false
deriving DecidableEq, Repr

/-- `NFSSecurity`. -/
inductive NFSSecurity where
  | system | kerberos5 | kerberos5i | kerberos5p
deriving DecidableEq, Repr

/-- The setters of the loop, with what they pass to `nfs_set_*`. -/
inductive Setting where
  | readMax (bytes : Int)
  | writeMax (bytes : Int)
  | autoReconnect (retries : Int)
  | retransmissions (count : Int)
  | timeout (milliseconds : Int)
  | version (version : Int)
  | debugLevel (level : Int)
  | uid (uid : Int)
  | gid (gid : Int)
  | security (security : NFSSecurity)
deriving DecidableEq, Repr

/-- The whole state: `Core`, the sources, the settings and libnfs's answers. -/
structure State extends Core where
  /-- The loop's own operation timeout in nanoseconds, fixed by `init`. -/
  timeout : Int := 60000000000
  isRunning : Bool := false
  sources : Sources := {}
  exports : RpcExports := {}
  /-- Whether a `LogHandlerBox` is registered. -/
  logHandler : Bool := false
  /-- The calls of `nfs_set_*` on the context, latest first. What libnfs stores for each is its own
  affair: the loop never reads it, and the client only asks for the read size. -/
  settings : List Setting := []
  lib : LibView := {}
  rpcLib : LibView := {}
  /-- The next `rpc_context` made by `rpc_init_context`. -/
  nextRpc : Nat := 0
  /-- The monotonic clock, in nanoseconds. -/
  clock : Nat := 0
  /-- Whether the `NFSEventLoop` object is alive, so that `weak self` is not nil. -/
  alive : Bool := true
  /-- Whether the running code is on the loop's queue. -/
  onQueue : Bool := true
  /-- Whether the `dispatchPrecondition` of `CallbackData.resume` has failed. -/
  preconditionFailed : Bool := false

/-- A fresh event loop with the given operation timeout. -/
def State.init (timeout : Int) : State := { timeout }

end NFSKit
