import NFSKit.EventLoop.Step

/-!
# The client

The calls of `NFSClient` that connect, disconnect, configure and report. A call of the event loop is one
queue block, or several with other blocks in between.
-/

namespace NFSKit

/-- The arguments of `configurePerformance`. -/
structure PerformanceSettings where
  readMax : Option Int := none
  writeMax : Option Int := none
  autoReconnect : Option Int := none
  retransmissions : Option Int := none
  timeout : Option Int := none
deriving DecidableEq, Repr

/-- The setters of the event loop that `configurePerformance` calls, in order. -/
def PerformanceSettings.setters (p : PerformanceSettings) : List Setting :=
  (p.readMax.map Setting.readMax).toList ++ (p.writeMax.map Setting.writeMax).toList ++
    (p.autoReconnect.map Setting.autoReconnect).toList ++
      (p.retransmissions.map Setting.retransmissions).toList ++
        (p.timeout.map Setting.timeout).toList

namespace State

/-- A sequence of setters with no other block in between; the first one that throws ends it. -/
def applySetters (s : State) : List Setting → State × Option POSIXErrorCode
  | [] => (s, none)
  | x :: xs =>
    match s.configure x with
    | .ok s => s.applySetters xs
    | .error e => (s, some e)

def configurePerformance (s : State) (p : PerformanceSettings) : State × Option POSIXErrorCode :=
  s.applySetters p.setters

/-- `stats()` and `serverAddress()`, where `read` is what libnfs answers about a context. -/
def report {α : Type} (s : State) (read : Ctx → α) : Except POSIXErrorCode α :=
  match s.context with
  | none => .error .ENODATA
  | some ctx => .ok (read ctx)

end State

/-- `getReadMax()`, where `nfs_get_readmax` is what libnfs answers in a state of the loop. -/
def State.getReadMax (nfs_get_readmax : State → Int) (s : State) : Except POSIXErrorCode Int :=
  s.report fun _ => nfs_get_readmax s

/-- `disconnect()`. -/
def Block.disconnect : Block := .unmount

/-- Whether `disconnect()` has returned without error. -/
def State.Disconnected (s : State) : Prop :=
  ∃ cb ∈ s.created, cb.entry = .submit .umount ∧ .success .void ∈ s.outcomes cb.caller

instance (s : State) : Decidable s.Disconnected := by
  unfold State.Disconnected
  infer_instance

/-- Whether the block is an operation of the client: it is answered through a continuation of its
own. -/
def Block.isOperation : Block → Bool
  | .submit _ _ | .submitWithStatus _ _ | .mount | .getexports _ | .closeFile _ | .readFile _
  | .writeFile _ | .preadFile _ | .preadIntoBuffer _ _ | .pwriteFile _ | .fsync _ | .fstat _
  | .ftruncate _ | .lseek _ => true
  | _ => false

/-- The loop has stopped: nothing is left of what was outstanding, and whatever the client calls from
now on throws and hands nothing to libnfs. -/
structure State.Stopped (s : State) : Prop where
  resumed : ∀ i < s.nextCaller, s.outcomes i ≠ []
  queue : s.pendingOperations = []
  sources : s.sources.Off ∧ s.exports.Off
  handOvers : ∀ t, Machine.Reachable step s t → t.handOvers = s.handOvers
  operations : ∀ t, Machine.Reachable step s t → ∀ b u, b.isOperation →
    step t (.block b) = some u → ∃ e, u.outcomes t.nextCaller = [.failure e]
  settings : ∀ t, Machine.Reachable step s t → ∀ x, ∃ e, t.configure x = .error e
  reports : ∀ t, Machine.Reachable step s t → ∀ (α : Type) (read : Ctx → α),
    ∃ e, t.report read = .error e

/-- Whether `connect(export:)` has to come after the setting: the security mode, the transfer sizes, and
what governs retries and timeouts. -/
def Setting.precedesConnect : Setting → Bool
  | .security _ | .readMax _ | .writeMax _ | .autoReconnect _ | .retransmissions _
  | .timeout _ => true
  | _ => false

def Setting.isSecurity : Setting → Bool
  | .security _ => true
  | _ => false

/-- The setter that an event runs. -/
def Event.setting : Event → Option Setting
  | .block (.configure x) => some x
  | _ => none

/-! ## The transfer sizes of libnfs

The vendored library keeps the read and the write size between 8 KiB and 4 MiB, in whole pages. The loop
does not rely on it, and no definition above refers to it. -/

/-- What `nfs_set_readmax` and `nfs_set_writemax` store for a size, which they take as a `size_t`. -/
def transferSize (bytes : Int) : Int :=
  max (min (bytes % 18446744073709551616) 4194304) 8192 / 4096 * 4096

/-- The read size after the given calls of `nfs_set_*`, latest first, with a server that takes it. -/
def storedReadMax : List Setting → Int
  | [] => 1048576
  | .readMax bytes :: _ => transferSize bytes
  | _ :: settings => storedReadMax settings

end NFSKit
