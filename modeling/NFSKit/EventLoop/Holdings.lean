import NFSKit.EventLoop.Outskirts
import NFSKit.EventLoop.Step
import NFSKit.Foundations.Monitor
import NFSKit.Foundations.Slot

/-!
# What the loop acquires from C

The contexts of the export queries and the boxes of the log handlers are made by hand and have to be given
back by hand. The state tells which one is in use; a monitor writes down which ones have been given back.
-/

namespace NFSKit

open Machine

/-! ## Export contexts -/

/-- The export context whose `rpc_destroy_context` is in progress. -/
def State.leavingRpc (s : State) : Option Nat :=
  ((s.stack.filterMap Frame.rpcCall).find? Prod.snd).map Prod.fst

/-- A destroyed context is written down when the call that destroys it is over. -/
def noteDestroyed (s : State) (_ : Event) (t : State) (destroyed : List Nat) : List Nat :=
  match s.leavingRpc with
  | some n => if t.leavingRpc = some n then destroyed else n :: destroyed
  | none => destroyed

/-- The contexts made by `rpc_init_context`: the one in `rpcExportsCtx`, the one being destroyed, and the
destroyed ones. -/
def exportSlot (w : Monitored State (List Nat)) : Slot where
  acquired := w.state.nextRpc
  current := w.state.exports.rpcExportsCtx
  leaving := w.state.leavingRpc
  released := w.notes

/-! ## Log handlers -/

/-- The boxes of the log handlers. -/
structure LogBoxes where
  /-- How many have been retained. -/
  made : Nat := 0
  /-- `logHandlerBoxPtr`. -/
  box : Option Nat := none
  released : List Nat := []
  /-- The private data that the context has been given with its log callback. -/
  registered : Option Nat := none
deriving DecidableEq, Repr

namespace LogBoxes

/-- The box that is kept, if any, is released. -/
def release (b : LogBoxes) : LogBoxes := { b with box := none, released := b.box.toList ++ b.released }

/-- `setLogHandler`, on a loop with a context or without. -/
def setLogHandler (b : LogBoxes) (live handler : Bool) : LogBoxes :=
  let b := b.release
  if live then
    if handler then { b with made := b.made + 1, box := some b.made, registered := some b.made }
    else { b with registered := none }
  else b

/-- The boxes after a step. The only other place where a handler is removed is `performShutdown`. -/
def note (s : State) (e : Event) (t : State) (b : LogBoxes) : LogBoxes :=
  match e with
  | .block (.setLogHandler handler) => b.setLogHandler s.context.isSome handler
  | _ => if s.logHandler && !t.logHandler then { b.release with registered := none } else b

def slot (b : LogBoxes) : Slot where
  acquired := b.made
  current := b.box
  released := b.released

end LogBoxes

end NFSKit
