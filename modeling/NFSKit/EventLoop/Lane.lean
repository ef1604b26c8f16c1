import NFSKit.EventLoop.Conditions

/-!
# One pipeline by itself

What the loop is if only the operations of one category are looked at: a count, a controller, a queue and
the calls in progress that hand such an operation over. A lane moves with the events of its category and
knows of no others; its operations are numbered in the order in which they come in.
-/

namespace NFSKit

structure LaneOperation where
  number : Nat
  entry : EntryPoint
  dataHandler : DataHandler
deriving DecidableEq, Repr

/-- A call that hands an operation over, by what is done when it returns. -/
inductive LaneCall where
  /-- An accepted operation is counted. -/
  | counted
  /-- `mount` and `getexports`, which are not. -/
  | uncounted
  /-- The operation has been counted before, and the queue is looked at again. -/
  | deferred
deriving DecidableEq, Repr

structure Lane where
  /-- `_inFlightCount[c]`. -/
  inFlightCount : Int := 0
  controller : PipelineController := {}
  queued : List LaneOperation := []
  /-- Innermost first. -/
  calls : List LaneCall := []
  /-- The operations handed to libnfs, latest first. -/
  handedOver : List LaneOperation := []
  /-- How many operations have come in. -/
  created : Nat := 0
deriving DecidableEq

/-- The events of a category. -/
inductive LaneEvent where
  | submitted (type : OperationType) (handler : DataHandler)
  /-- An operation is issued without a look at the count. -/
  | issued (call : LaneCall) (entry : EntryPoint) (handler : DataHandler)
  /-- The innermost call returns. -/
  | returned (accepted : Bool)
  | completed (success : Bool)
deriving DecidableEq, Repr

namespace Lane

/-- `currentInFlight < controller.effectiveDepth`. -/
def hasCapacity (l : Lane) : Bool := l.inFlightCount < l.controller.effectiveDepth

/-- An operation is handed over. -/
def handOver (l : Lane) (call : LaneCall) (op : LaneOperation) : Lane :=
  { l with calls := call :: l.calls, handedOver := op :: l.handedOver }

/-- The queue is looked at, up to the next operation that is handed over. -/
def drain (l : Lane) : Lane :=
  match l.queued with
  | [] => l
  | op :: rest =>
    if l.hasCapacity then
      { l with queued := rest, inFlightCount := l.inFlightCount + 1 }.handOver .deferred op
    else l

/-- The operation that comes in. -/
def incoming (l : Lane) (entry : EntryPoint) (handler : DataHandler) : LaneOperation :=
  ⟨l.created, entry, handler⟩

def next (l : Lane) : LaneEvent → Lane
  | .submitted type handler =>
    let op := l.incoming (.submit type) handler
    let l := { l with created := l.created + 1 }
    if l.hasCapacity then l.handOver .counted op else { l with queued := l.queued ++ [op] }
  | .issued call entry handler =>
    { l with created := l.created + 1 }.handOver call (l.incoming entry handler)
  | .returned accepted =>
    match l.calls with
    | [] => l
    | .counted :: rest =>
      { l with calls := rest, inFlightCount := if accepted then l.inFlightCount + 1 else l.inFlightCount }
    | .uncounted :: rest => { l with calls := rest }
    | .deferred :: rest =>
      { l with
        calls := rest
        inFlightCount := if accepted then l.inFlightCount else l.inFlightCount - 1 }.drain
  | .completed success =>
    { l with
      inFlightCount := max 0 (l.inFlightCount - 1)
      controller := l.controller.record success }.drain

end Lane

/-! ## The lane of a category -/

/-- What is done when a call at the site returns. -/
def Site.laneCall : Site → LaneCall
  | .issueOperation | .handleOperation => .counted
  | .mount | .getexports _ => .uncounted
  | .pending _ _ => .deferred

def Frame.laneCall (c : OperationCategory) : Frame → Option LaneCall
  | .handOver site cb _ => if cb.operationCategory = c then some site.laneCall else none
  | _ => none

namespace Core

/-- The operation among those of category `c`. -/
def laneOperation (s : Core) (c : OperationCategory) (cb : CallbackData) : LaneOperation where
  number := s.created.countP fun x => x.operationCategory = c ∧ x.continuationID < cb.continuationID
  entry := cb.entry
  dataHandler := cb.dataHandler

/-- What the state is to category `c`. -/
def lane (s : Core) (c : OperationCategory) : Lane where
  inFlightCount := s.inFlightCount c
  controller := s.controller c
  queued := (s.pendingOperations.filter (·.category = c)).map (s.laneOperation c ·.cbData)
  calls := s.stack.filterMap (Frame.laneCall c)
  handedOver := (s.handOvers.filter (·.cb.operationCategory = c)).map (s.laneOperation c ·.cb)
  created := s.created.countP fun x => x.operationCategory = c

end Core

/-- The operation that the block hands to libnfs without a look at the in-flight count. -/
def Block.issues : Block → Option LaneEvent
  | .mount => some (.issued .uncounted .mount .void)
  | .getexports _ => some (.issued .uncounted .getexports .exports)
  | .closeFile _ => some (.issued .counted .closeFile .void)
  | .readFile _ => some (.issued .counted .readFile .takeBuffer)
  | .writeFile _ => some (.issued .counted .writeFile .byteCount)
  | .preadFile _ => some (.issued .counted .preadFile .takeBuffer)
  | .preadIntoBuffer _ _ => some (.issued .counted .preadIntoBuffer .clampedCount)
  | .pwriteFile _ => some (.issued .counted .pwriteFile .byteCount)
  | .fsync _ => some (.issued .counted .fsync .void)
  | .fstat _ => some (.issued .counted .fstat .unwrap)
  | .ftruncate _ => some (.issued .counted .ftruncate .void)
  | .lseek _ => some (.issued .counted .lseek .offset)
  | _ => none

/-- What the event is to category `c`, if it is one of its events: an operation of the category is
submitted or issued, the call that hands one over returns, or one is called back. -/
def laneEvent (c : OperationCategory) (s : State) (e : Event) : Option LaneEvent :=
  match e with
  | .block b =>
    match e.submits with
    | some (type, handler) =>
      if s.context.isSome ∧ type.category = c then some (.submitted type handler) else none
    | none => if directs s e = some c then b.issues else none
  | .ret rc _ =>
    match s.stack with
    | .handOver _ cb _ :: _ => if cb.operationCategory = c then some (.returned (0 ≤ rc)) else none
    | _ => none
  | .callback _ status data =>
    ((calledBack s e).find? (·.operationCategory = c)).map fun cb =>
      .completed (s.replySucceeds cb status data)
  | _ => none

end NFSKit
