import NFSKit.EventLoop.Operations
import NFSKit.Foundations.Machine

/-!
# The event loop as a machine

An event is the start of a queue block, a move of libnfs inside a call in progress (it runs the
callback of a request, or the call returns), the passing of time, the release of a read buffer by the
task group that owned it, or the release of the last reference to the loop.

`step` fixes what libnfs may do, as its header states it:
* the callback of a request runs at most once, inside the issuing call or inside a later call on the
  same context, at the latest the one that destroys it;
* a call that returns a negative code never runs the callback of its own request;
* every successful open or opendir callback delivers a fresh object.

The calls that only read or set a field (`nfs_get_fd`, `nfs_which_events`, `nfs_get_error`, the
setters) run no callbacks and are not frames.
-/

namespace NFSKit

/-- The queue blocks of the loop. -/
inductive Block where
  | submit (type : OperationType) (handler : DataHandler)
  | submitWithStatus (type : OperationType) (handler : DataHandler)
  | mount
  /-- `getexports`, where `rpc_init_context` succeeds or fails. -/
  | getexports (available : Bool)
  | closeFile (handleID : Nat)
  | readFile (handleID : Nat)
  | writeFile (handleID : Nat)
  | preadFile (handleID : Nat)
  | preadIntoBuffer (handleID buffer : Nat)
  | pwriteFile (handleID : Nat)
  | fsync (handleID : Nat)
  | fstat (handleID : Nat)
  | ftruncate (handleID : Nat)
  | lseek (handleID : Nat)
  /-- The second block of `openFile`, for the caller that received the `nfsfh`. -/
  | registerHandle (opener : Nat)
  /-- The second block of `contentsOfDirectory`. -/
  | readdirAll (opener : Nat)
  /-- `NFSFileHandle.deinit`. -/
  | closeFileFireAndForget (handleID : Nat)
  | scanForTimeouts
  | handleIOEvent
  | handleRpcExportsEvent
  | shutdown
  | configure (setting : Setting)
  | setLogHandler (handler : Bool)
deriving DecidableEq, Repr

inductive Event where
  /-- A queue block starts. -/
  | block (b : Block)
  /-- libnfs runs the callback of the request with this continuation id. -/
  | callback (id : Nat) (status : Int) (data : Option Value)
  /-- The innermost call returns `rc`; from then on libnfs answers `view` for its context. -/
  | ret (rc : Int) (view : LibView)
  /-- Time passes. -/
  | tick (duration : Nat)
  /-- The task group of `contentsUsingPreallocatedBuffer` is done with its read buffer. -/
  | releaseBuffer (buffer : Nat)
  /-- The last reference to the loop is dropped, on its queue or on another thread. -/
  | deinit (onQueue : Bool)
deriving DecidableEq, Repr

/-! ## The operations built on `submit` -/

namespace Block

def unmount : Block := .submit .umount .void
def stat : Block := .submit .stat .unwrap
-- `statvfs` is submitted under the type `.stat`
def statvfs : Block := .submit .stat .unwrap
def readlink : Block := .submit .readlink .unwrap
def mkdir : Block := .submit .mkdir .void
def rmdir : Block := .submit .rmdir .void
def opendir : Block := .submit .opendir .unwrap
def unlink : Block := .submit .unlink .void
def rename : Block := .submit .rename .void
def truncate : Block := .submit .truncate .void
def openFile : Block := .submit .open .unwrap

end Block

namespace State

/-- Whether every operation on the handle or the buffer selected by `p` has been resumed. -/
def allResumed (s : State) (p : CallbackData → Bool) : Bool :=
  s.created.all fun cb => !p cb || !(s.outcomes cb.caller).isEmpty

/-- One queue block, up to its first libnfs call; `none` where the caller cannot start it. -/
def runBlock (s : State) : Block → Option State
  | .submit type handler => some (s.submit type handler)
  | .submitWithStatus type handler => some (s.submitWithStatus type handler)
  | .mount => some s.mount
  | .getexports available => some (s.getexports available)
  | .closeFile h => some (s.closeFile h)
  | .readFile h => some (s.readFile h)
  | .writeFile h => some (s.writeFile h)
  | .preadFile h => some (s.preadFile h)
  | .preadIntoBuffer h b =>
    -- the group that owns the buffer starts its reads before it releases it
    if b ∈ s.releasedBuffers then none else some (s.preadIntoBuffer h b)
  | .pwriteFile h => some (s.pwriteFile h)
  | .fsync h => some (s.fsync h)
  | .fstat h => some (s.fstat h)
  | .ftruncate h => some (s.ftruncate h)
  | .lseek h => some (s.lseek h)
  | .registerHandle opener =>
    if opener ∈ s.followed then none
    else (s.delivered .open opener).map fun fh => s.registerHandle opener fh
  | .readdirAll opener =>
    if opener ∈ s.followed then none
    else (s.delivered .opendir opener).map fun dir => s.readdirAll opener dir
  | .closeFileFireAndForget h =>
    -- a suspended operation keeps its `NFSFileHandle` alive
    if s.allResumed fun cb => cb.handle.isSome && cb.handle == s.registrations.lookup h then
      some (s.closeFileFireAndForget h)
    else none
  | .scanForTimeouts => some s.scanForTimeouts
  | .handleIOEvent => some s.handleIOEvent
  | .handleRpcExportsEvent => some s.handleRpcExportsEvent
  | .shutdown => some s.performShutdown
  | .configure x =>
    -- a refused setting throws and changes nothing
    match s.configure x with
    | .ok s => some s
    | .error _ => some s
  | .setLogHandler handler => some (s.setLogHandler handler)

/-- The object a successful open or opendir callback delivers must be fresh; it is recorded. -/
def noteDelivery (s : State) (cb : CallbackData) (status : Int) (data : Option Value) :
    Option State :=
  if status < 0 then some s
  else
    match cb.entry, data with
    | .submit .open, some (.pointer p) =>
      if p ∈ s.nfsfhs then none else some { s with nfsfhs := p :: s.nfsfhs }
    | .submit .opendir, some (.pointer p) =>
      if p ∈ s.nfsdirs then none else some { s with nfsdirs := p :: s.nfsdirs }
    | _, _ => some s

/-- libnfs takes the request with continuation id `id` to call it back from inside the frame `f`: it
is the request `f` hands over, or one accepted on the same context. -/
def takeRequest (s : State) (f : Frame) (rest : List Frame) (id : Nat) :
    Option (CallbackData × State) :=
  match f.inCall.filter (·.continuationID = id) with
  | some cb => some (cb, { s with stack := f.noteCallback cb.caller :: rest })
  | none =>
    (s.outstanding.find? fun r => some r.ctx = f.ctx ∧ r.cb.continuationID = id).map fun r =>
      (r.cb,
        { s with
          outstanding := s.outstanding.erase r
          stack := f.noteCallback r.cb.caller :: rest })

/-- libnfs runs a callback inside the innermost call. -/
def fireCallback (s : State) (id : Nat) (status : Int) (data : Option Value) : Option State :=
  match s.stack with
  | [] => none
  | f :: rest =>
    (s.takeRequest f rest id).bind fun (cb, s) =>
      (s.noteDelivery cb status data).map fun s => s.runCallback cb status data

/-- libnfs's answers after a call on the given context. -/
def setView (s : State) (ctx : Ctx) (view : LibView) : State :=
  match ctx with
  | .nfs => { s with lib := view }
  | .rpc _ => { s with rpcLib := view }

/-- The innermost call returns. -/
def returnFromCall (s : State) (rc : Int) (view : LibView) : Option State :=
  match s.stack with
  | [] => none
  | .completionHook _ _ :: _ => none
  | .handOver site cb ran :: rest =>
    let s := { s with stack := rest }.setView site.ctx view
    if rc < 0 then
      if cb.caller ∈ ran then none else some (s.rejected site cb rc)
    else some ((s.enqueueRequest site.ctx cb ran).accepted site cb)
  | .service :: rest => some (({ s with stack := rest }.setView .nfs view).serviced rc)
  | .rpcService n :: rest => some (({ s with stack := rest }.setView (.rpc n) view).rpcServiced rc)
  | .close _ :: rest => some ({ s with stack := rest }.setView .nfs view)
  | .rpcDestroy n next :: rest =>
    some (({ s with stack := rest }.dropRequests (.rpc n)).afterCleanup next)
  | .destroy kind continuations :: rest =>
    some (({ s with stack := rest }.dropRequests .nfs).endTeardown kind continuations)

/-- Whether every call of the loop's functions has resumed its continuation: nobody is suspended in a
call that keeps the loop alive. -/
def nobodyWaits (s : State) : Bool := (List.range s.nextCaller).all fun i => !(s.outcomes i).isEmpty

end State

/-- One step of the event loop and its surroundings. -/
def step (s : State) : Event → Option State
  | .block b => if s.stack.isEmpty && s.alive then s.runBlock b else none
  | .callback id status data => s.fireCallback id status data
  | .ret rc view => s.returnFromCall rc view
  | .tick d => some { s with clock := s.clock + d }
  | .releaseBuffer b =>
    -- the group has awaited all its reads
    if s.allResumed fun cb => cb.destBuffer == some b then
      some { s with releasedBuffers := b :: s.releasedBuffers }
    else none
  | .deinit onQueue =>
    if s.stack.isEmpty && s.alive && s.nobodyWaits then
      some { s with alive := false, onQueue }.performShutdown
    else none

/-! ## How a run starts -/

/-- What libnfs answers while it is connected. -/
def LibView.connected : LibView := { fd := 5, socketIno := 1, socket := 1 }

/-- A mount, the first operation of a loop, is accepted and succeeds. -/
def mountEvents : List Event :=
  [.block .mount, .ret 0 .connected, .block .handleIOEvent, .callback 1 0 none, .ret 0 .connected]

/-- After the mount a file is opened; the handle on `fh` is registered under 1. -/
def openEvents (fh : Nat) : List Event :=
  mountEvents ++
    [.block Block.openFile, .ret 0 .connected, .block .handleIOEvent,
      .callback 2 0 (some (.pointer fh)), .ret 0 .connected, .block (.registerHandle 1)]

end NFSKit
