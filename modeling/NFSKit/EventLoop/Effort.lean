import NFSKit.EventLoop.Actions
import Mathlib.Data.List.Chain

/-!
# How much a queue block can still do

A queue block is over when the control stack is empty. The effort of a state bounds the moves that libnfs
can make until then: the callbacks it can run, and the calls in progress, which return.
-/

namespace NFSKit

/-- Whether libnfs makes the step: it runs a callback, or its call returns. -/
def Event.isMove (e : Event) : Bool := e.callsBack || e.returns

/-- Whether an export context is destroyed when the call is refused. -/
def Site.effort : Site → Nat
  | .getexports _ => 1
  | _ => 0

/-- Whether the `nfs_context` is destroyed next. -/
def AfterCleanup.effort : AfterCleanup → Nat
  | .performShutdown => 1
  | _ => 0

/-- The moves that a call in progress stands for: its return, the callback of the operation it hands over,
and the return of a call that is made when it is over. -/
def Frame.effort : Frame → Nat
  | .handOver site cb ran => (if cb.caller ∈ ran then 1 else 2) + site.effort
  | .service | .rpcService _ => 2
  | .rpcDestroy _ next => 1 + next.effort
  | .completionHook _ _ | .close _ | .destroy _ _ => 1

/-- A queued operation is handed over in a call of its own, is called back and ends a completion hook. -/
def Core.effort (s : Core) : Nat :=
  (s.stack.map Frame.effort).sum + s.outstanding.length + 3 * s.pendingOperations.length

def Frame.isHook : Frame → Bool
  | .completionHook _ _ => true
  | _ => false

/-- Every completion hook runs inside a libnfs call; and unless the drain is about to look at the next
operation or the hook to return, the innermost frame is a libnfs call. -/
structure HooksInside (k : Config) : Prop where
  apart : k.state.stack.IsChain fun f g => ¬ (f.isHook ∧ g.isHook)
  call : k.mode = .idle ∨ (∃ kind, k.mode = .tearingDown kind) → ∀ f ∈ k.state.stack.head?, ¬ f.isHook

end NFSKit
