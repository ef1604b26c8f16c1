import NFSKit.EventLoop.Step

/-!
# The outskirts of the state

The sources, the export query, the log handler and the settings. Completing an operation, draining the
queue and resuming callers leave them alone; only the code of a few queue blocks touches them.
-/

namespace NFSKit

/-- A call in progress on the `rpc_context` of an export query, and whether it destroys the context. -/
def Frame.rpcCall : Frame → Option (Nat × Bool)
  | .handOver (.getexports n) _ _ | .rpcService n => some (n, false)
  | .rpcDestroy n _ => some (n, true)
  | _ => none

/-- The calls that are made only while the loop has its context. -/
def Frame.needsContext : Frame → Bool
  | .handOver _ _ _ | .service | .close _ => true
  | _ => false

/-- The calls after which the sources of the main connection are made. -/
def Frame.setsUp : Frame → Bool
  | .handOver .mount _ _ | .service => true
  | _ => false

/-- The fields that no completion touches. -/
structure Outskirts where
  sources : Sources
  /-- The export query, without the flag that its completion hook sets. -/
  exports : RpcExports
  logHandler : Bool
  settings : List Setting
  lib : LibView
  nextRpc : Nat
  /-- The calls in progress on export contexts. -/
  rpcCalls : List (Nat × Bool)

def State.outskirts (s : State) : Outskirts where
  sources := s.sources
  exports := { s.exports with rpcExportsDone := false }
  logHandler := s.logHandler
  settings := s.settings
  lib := s.lib
  nextRpc := s.nextRpc
  rpcCalls := s.stack.filterMap Frame.rpcCall

/-- The sources of the main connection, without the timeout timer. -/
def Sources.timerless (x : Sources) : Sources := { x with timeoutTimer := false }

/-- The sources and what they are meant to follow. -/
def State.watch (s : State) : Sources × LibView := (s.sources.timerless, s.lib)

/-- Whether the code after a call that returns `rc` and leaves `view` looks neither at the descriptor nor
at the wanted events: a synchronous close, an operation refused outside the drain, and a `mount` that
has no descriptor yet. -/
def Frame.overlooks (rc : Int) (view : LibView) : Frame → Bool
  | .close _ => true
  | .handOver (.getexports _) _ _ => false
  | .handOver .mount _ _ => rc < 0 || view.fd < 0
  | .handOver site _ _ => rc < 0 && !site.isPending
  | _ => false

/-- Whether the call destroys a context. -/
def Frame.destroys : Frame → Bool
  | .rpcDestroy _ _ | .destroy _ _ => true
  | _ => false

/-- Whether the call is the one that `performShutdown` makes before it gives up its own context. -/
def Frame.isShutdownCleanup : Frame → Bool
  | .rpcDestroy _ .performShutdown => true
  | _ => false

/-- Whether the call that destroys the context has begun: the loop does not refer to it any more. -/
def State.Destroyed (s : State) : Ctx → Prop
  | .nfs => s.context = none
  | .rpc n => n < s.nextRpc ∧ s.exports.rpcExportsCtx ≠ some n

/-- What becomes of the context `c`, destroyed in `s`, in a later state `t`. -/
structure State.Retires (s t : State) (c : Ctx) : Prop where
  destroyed : t.Destroyed c
  /-- The only call on it can be the one that destroys it. -/
  calls : ∀ f ∈ t.stack, f.ctx = some c → f.destroys
  once : t.stack.countP (fun f => f.ctx = some c) ≤ 1
  /-- When that call has returned, no other one is made. -/
  returned : (∀ f ∈ s.stack, f.ctx ≠ some c) → ∀ f ∈ t.stack, f.ctx ≠ some c
  /-- What is asked of an `nfs_context` by any call. -/
  uses : c = .nfs → t.handOvers = s.handOvers ∧ t.closedHandles = s.closedHandles ∧
    t.closedDirs = s.closedDirs ∧ t.settings = s.settings

/-- Whether the loop has no context any more, or is about to destroy it in `performShutdown`. -/
def State.IsLeaving (s : State) : Prop :=
  s.context = none ∨ ∃ n, .rpcDestroy n .performShutdown ∈ s.stack

/-- What `shutdownWithError` leaves alone is as in a fresh loop. -/
structure State.Unused (s : State) : Prop where
  handleRegistry : s.handleRegistry = []
  logHandler : s.logHandler = false
  exports : s.exports.rpcExportsCtx = none ∧ s.exports.Off ∧ s.exports.rpcExportsContID = none
  inFlightCount : ∀ c, s.inFlightCount c = 0
  controllers : s.bulkController = {} ∧ s.metadataController = {}

/-- Nothing is left of the loop's context, its operations and its sources. -/
structure State.Terminal (s : State) : Prop extends s.Unused where
  context : s.context = none
  activeContinuations : s.activeContinuations = []
  pendingOperations : s.pendingOperations = []
  sources : s.sources.Off
  timeoutTimer : s.sources.timeoutTimer = false

/-- Whether the block touches nothing outside `Core`. -/
def Block.isPlain : Block → Bool
  | .getexports _ | .scanForTimeouts | .handleRpcExportsEvent | .shutdown | .configure _
  | .setLogHandler _ => false
  | _ => true

end NFSKit
