import NFSKit.EventLoop.State

/-!
# Dispatch sources and the timeout timer

`setupSources`, `cancelSources`, `updateWriteSource`, their counterparts for the export query, and
the timeout timer. A source stays in the state when its field is assigned to: it is then one of the
sources that have been dropped, and what the loop has done to it by then can be read off it.
-/

namespace NFSKit

namespace DispatchSource

/-- `cancel()`. -/
def cancel (src : DispatchSource) : DispatchSource := { src with cancelled := true }

/-- Whether the source delivers no events; then it may be resumed, else Dispatch traps. -/
def suspended (src : DispatchSource) : Bool := src.suspensions ≠ 0

/-- `resume()`. -/
def resume (src : DispatchSource) : DispatchSource :=
  { src with
    suspensions := src.suspensions - 1
    overResumed := src.overResumed || !src.suspended }

/-- `suspend()`. -/
def suspend (src : DispatchSource) : DispatchSource := { src with suspensions := src.suspensions + 1 }

/-- Every source made so far is held or has been dropped, just one of the two; none has been resumed while
it was not suspended, and the dropped ones were active and cancelled when they were. -/
structure SourcesAccounted (held dropped : List DispatchSource) (made : Nat) : Prop where
  every : ((held ++ dropped).map serial).Perm (List.range made)
  resumed : ∀ src ∈ held ++ dropped, src.overResumed = false
  dropped : ∀ src ∈ dropped, src.suspended = false ∧ src.cancelled = true

end DispatchSource

namespace Sources

/-- `readSource = source`. -/
def setReadSource (s : Sources) (source : Option DispatchSource) : Sources :=
  { s with readSource := source, dropped := s.readSource.toList ++ s.dropped }

/-- `writeSource = source`. -/
def setWriteSource (s : Sources) (source : Option DispatchSource) : Sources :=
  { s with writeSource := source, dropped := s.writeSource.toList ++ s.dropped }

def cancelSources (s : Sources) : Sources :=
  let s :=
    match s.readSource with
    | some rs => { s with readSource := some rs.cancel }.setReadSource none
    | none => s
  let s :=
    match s.writeSource with
    | some ws =>
      let s :=
        if s.writeSourceSuspended then
          { s with writeSource := some ws.resume, writeSourceSuspended := false }
        else s
      { s with writeSource := s.writeSource.map DispatchSource.cancel }.setWriteSource none
    | none => s
  { s with currentFd := -1, currentSocketIno := 0 }

/-- `startTimeoutTimer`, for a loop with the given operation timeout. -/
def startTimeoutTimer (s : Sources) (timeout : Int) : Sources :=
  if s.timeoutTimer || timeout ≤ 0 then s else { s with timeoutTimer := true }

def cancelTimeoutTimer (s : Sources) : Sources := { s with timeoutTimer := false }

/-- `setupSources(fd:)` with the descriptor of `view`, whose inode is `socketIno(fd)`; Dispatch attaches
the two sources to the socket behind it. -/
def setupSources (s : Sources) (timeout : Int) (view : LibView) : Sources :=
  let s := s.cancelSources
  let s := { s with currentFd := view.fd, currentSocketIno := view.socketIno }
  let s := s.startTimeoutTimer timeout
  let source (serial : Nat) : DispatchSource :=
    { serial, fd := view.fd, socketIno := view.socketIno, socket := view.socket }
  let rs := source s.made
  let s := { s with made := s.made + 1 }.setReadSource (some rs.resume)
  -- the write source stays suspended until libnfs wants to send
  let ws := source s.made
  { s with made := s.made + 1, writeSourceSuspended := true }.setWriteSource (some ws)

/-- `updateWriteSource`, where `pollout` tells whether `nfs_which_events` includes `POLLOUT`. -/
def updateWriteSource (s : Sources) (pollout : Bool) : Sources :=
  match s.writeSource with
  | none => s
  | some ws =>
    if pollout then
      if s.writeSourceSuspended then
        { s with writeSource := some ws.resume, writeSourceSuspended := false }
      else s
    else
      if s.writeSourceSuspended then s
      else { s with writeSource := some ws.suspend, writeSourceSuspended := true }

/-- The sources the loop refers to. -/
def held (s : Sources) : List DispatchSource := s.readSource.toList ++ s.writeSource.toList

/-- Both sources have been cancelled. -/
def Off (s : Sources) : Prop := s.readSource = none ∧ s.writeSource = none

/-- The calls that change the sources of the main connection; `updateWriteSource` does nothing without a
context. -/
inductive Call where
  | setupSources (timeout : Int) (view : LibView)
  | cancelSources
  | updateWriteSource (pollout : Bool)
deriving DecidableEq, Repr

def apply (s : Sources) : Call → Sources
  | .setupSources timeout view => s.setupSources timeout view
  | .cancelSources => s.cancelSources
  | .updateWriteSource pollout => s.updateWriteSource pollout

/-- The sources after a sequence of calls. -/
def run (s : Sources) (calls : List Call) : Sources := calls.foldl apply s

/-- The flag says whether the current write source is suspended, which is so once at most; both sources
are in use, and the dropped ones have been treated as Dispatch demands. -/
structure FlagRight (s : Sources) : Prop where
  write : ∀ ws, s.writeSource = some ws →
    ws.suspensions = (if s.writeSourceSuspended then 1 else 0) ∧ ws.cancelled = false
  read : ∀ rs, s.readSource = some rs → rs.suspensions = 0 ∧ rs.cancelled = false
  accounted : DispatchSource.SourcesAccounted s.held s.dropped s.made

end Sources

namespace RpcExports

/-- `rpcExportsReadSource = source`. -/
def setReadSource (s : RpcExports) (source : Option DispatchSource) : RpcExports :=
  { s with rpcExportsReadSource := source, dropped := s.rpcExportsReadSource.toList ++ s.dropped }

/-- `rpcExportsWriteSource = source`. -/
def setWriteSource (s : RpcExports) (source : Option DispatchSource) : RpcExports :=
  { s with rpcExportsWriteSource := source, dropped := s.rpcExportsWriteSource.toList ++ s.dropped }

def cancelRpcExportsSources (s : RpcExports) : RpcExports :=
  let s :=
    { s with
      rpcExportsReadSource := s.rpcExportsReadSource.map DispatchSource.cancel }.setReadSource none
  let s :=
    match s.rpcExportsWriteSource with
    | some ws =>
      let s :=
        if s.rpcExportsWriteSuspended then { s with rpcExportsWriteSource := some ws.resume } else s
      { s with rpcExportsWriteSource := s.rpcExportsWriteSource.map DispatchSource.cancel }
    | none => s
  { s.setWriteSource none with rpcExportsWriteSuspended := true }

/-- `setupRpcExportsSources(fd:)`; both sources start active. -/
def setupRpcExportsSources (s : RpcExports) (fd : Int) : RpcExports :=
  let s := s.cancelRpcExportsSources
  let rs : DispatchSource := { serial := s.made, fd, socketIno := 0 }
  let s := { s with made := s.made + 1 }.setReadSource (some rs.resume)
  let ws : DispatchSource := { serial := s.made, fd, socketIno := 0 }
  { s with made := s.made + 1, rpcExportsWriteSuspended := false }.setWriteSource (some ws.resume)

/-- `updateRpcExportsWriteSource`, where `pollout` is libnfs's answer for the export context. -/
def updateRpcExportsWriteSource (s : RpcExports) (pollout : Bool) : RpcExports :=
  match s.rpcExportsCtx, s.rpcExportsWriteSource with
  | some _, some ws =>
    if pollout then
      if s.rpcExportsWriteSuspended then
        { s with rpcExportsWriteSource := some ws.resume, rpcExportsWriteSuspended := false }
      else s
    else
      if s.rpcExportsWriteSuspended then s
      else
        { s with rpcExportsWriteSource := some ws.suspend, rpcExportsWriteSuspended := true }
  | _, _ => s

/-- The sources of the query the loop refers to. -/
def held (s : RpcExports) : List DispatchSource :=
  s.rpcExportsReadSource.toList ++ s.rpcExportsWriteSource.toList

/-- Both sources have been cancelled. -/
def Off (s : RpcExports) : Prop := s.rpcExportsReadSource = none ∧ s.rpcExportsWriteSource = none

instance (s : RpcExports) : Decidable s.Off := by
  unfold Off
  infer_instance

/-- The calls that change the sources of the export query; its context comes and goes in between. -/
inductive Call where
  | setupRpcExportsSources (fd : Int)
  | cancelRpcExportsSources
  | updateRpcExportsWriteSource (ctx : Option Nat) (pollout : Bool)
deriving DecidableEq, Repr

def apply (s : RpcExports) : Call → RpcExports
  | .setupRpcExportsSources fd => s.setupRpcExportsSources fd
  | .cancelRpcExportsSources => s.cancelRpcExportsSources
  | .updateRpcExportsWriteSource ctx pollout =>
    { s with rpcExportsCtx := ctx }.updateRpcExportsWriteSource pollout

/-- The sources after a sequence of calls. -/
def run (s : RpcExports) (calls : List Call) : RpcExports := calls.foldl apply s

/-- As `Sources.FlagRight`. -/
structure FlagRight (s : RpcExports) : Prop where
  write : ∀ ws, s.rpcExportsWriteSource = some ws →
    ws.suspensions = (if s.rpcExportsWriteSuspended then 1 else 0) ∧ ws.cancelled = false
  read : ∀ rs, s.rpcExportsReadSource = some rs → rs.suspensions = 0 ∧ rs.cancelled = false
  accounted : DispatchSource.SourcesAccounted s.held s.dropped s.made

end RpcExports

end NFSKit
