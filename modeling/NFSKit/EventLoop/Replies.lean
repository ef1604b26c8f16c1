import NFSKit.EventLoop.Step
import NFSKit.Foundations.Monitor

/-!
# Replies

libnfs answers an operation by running its callback with a status and a data pointer. A monitor writes down
every reply, and whether the caller of the operation was still waiting for it. What a caller is told depends
on the reply to its own operation alone.
-/

namespace NFSKit

open Machine

/-- A callback that libnfs has run. -/
structure Reply where
  /-- The continuation id of the operation. -/
  id : Nat
  status : Int
  data : Option Value
  /-- Whether the caller of the operation was waiting. -/
  awaited : Bool
deriving DecidableEq, Repr

/-- The loop, and the replies so far, latest first. -/
abbrev Replied := Monitored State (List Reply)

/-- Whether somebody waits for the operation with this continuation id. -/
def State.waitsFor (s : State) (id : Nat) : Bool :=
  s.created.any fun cb => cb.continuationID = id && (s.outcomes cb.caller).isEmpty

def noteReply (s : State) (e : Event) (_ : State) (replies : List Reply) : List Reply :=
  match e with
  | .callback id status data => { id, status, data, awaited := s.waitsFor id } :: replies
  | _ => replies

/-- What a data handler makes of a reply. -/
def DataHandler.result (handler : DataHandler) (status : Int) (data : Option Value) : Outcome :=
  match handler, data with
  | .void, _ => .success .void
  | .unwrap, some v => .success v
  | .unwrap, none => .failure .ENODATA
  | .offset, data => .success (data.getD (.int 0))
  | .exports, some (.exportNodes dirs) => .success (.strings (dirs.filterMap id))
  | .exports, _ => .success (.strings [])
  | .takeBuffer, _ => .success (.data (max 0 status))
  | .byteCount, _ => .success (.int status)
  | .clampedCount, _ => .success (.int (max 0 status))

/-- What the caller of `cb` is told of a reply to it. -/
def CallbackData.told (cb : CallbackData) (q : Reply) : Outcome :=
  if cb.entry = .getexports then
    if q.status ≠ 0 then .failure (.ofCode q.status) else cb.dataHandler.result q.status q.data
  else if q.status < 0 then .failure (.ofCode (-q.status))
  else cb.dataHandler.result q.status q.data

/-- What a caller may have been told before the reply to its operation comes. -/
def State.GaveUp (s : State) (r : Outcome) : Prop :=
  r = .failure .ETIMEDOUT ∨ r = .failure .ENOTCONN ∧ s.context = none

end NFSKit
