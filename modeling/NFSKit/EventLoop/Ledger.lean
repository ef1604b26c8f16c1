import NFSKit.EventLoop.WellFormed

/-!
# The in-flight ledger

What the in-flight count of a category counts: the operations libnfs has accepted, and the deferred
operations that are being handed to it. A deferred operation is counted before the call that issues it,
every other one after it.
-/

namespace NFSKit

/-- The deferred operation that a call in progress hands over, unless its callback has run. -/
def Frame.deferredCall : Frame → Option CallbackData
  | .handOver site cb ran => if site.isPending ∧ cb.caller ∉ ran then some cb else none
  | _ => none

/-- The operation that a call in progress hands over in its own queue block, unless its callback has
run. -/
def Frame.directCall : Frame → Option CallbackData
  | .handOver site cb ran => if site.isPending ∨ cb.caller ∈ ran then none else some cb
  | _ => none

/-- The operation that a call in progress hands over in its own queue block and that is counted when the
call returns, unless its callback has run. -/
def Frame.lateCall : Frame → Option CallbackData
  | .handOver site cb ran => if site.countsLate ∧ cb.caller ∉ ran then some cb else none
  | _ => none

/-- The same, if its callback has run: it has been uncounted, and will be counted. -/
def Frame.answeredCall : Frame → Option CallbackData
  | .handOver site cb ran => if site.countsLate ∧ cb.caller ∈ ran then some cb else none
  | _ => none

/-- How many operations with the property `p` libnfs has accepted or is being handed out of the
queue. -/
def Core.booked (s : Core) (p : CallbackData → Bool) : Nat :=
  s.outstanding.countP (fun r => p r.cb) + (s.stack.filterMap Frame.deferredCall).countP p

/-- Whether an operation is of category `c`. -/
def OperationCategory.is (c : OperationCategory) (cb : CallbackData) : Bool :=
  cb.operationCategory = c

/-- Whether the loop ever counts the operation: `mount` and `getexports` it does not. -/
def CallbackData.isCounted (cb : CallbackData) : Bool :=
  cb.entry ≠ .mount ∧ cb.entry ≠ .getexports

/-- Whether the loop counts an operation, and in category `c`. -/
def OperationCategory.counts (c : OperationCategory) (cb : CallbackData) : Bool :=
  c.is cb && cb.isCounted

/-- How many operations of category `c` will be counted although their callbacks have run. -/
def Core.answered (s : Core) (c : OperationCategory) : Nat :=
  (s.stack.filterMap Frame.answeredCall).countP c.is

/-- Frames of a call that hands an operation over or serves libnfs's events. -/
def Frame.isWork : Frame → Bool
  | .handOver _ _ _ | .service | .rpcService _ | .close _ => true
  | _ => false

/-- A loop whose last reference is gone, but whose context is not destroyed yet, does no work. -/
def Quiet (k : Config) : Prop :=
  k.state.alive = false → k.state.context.isSome →
    (∀ i, k.mode ≠ .draining i) ∧ ∀ f ∈ k.state.stack, f.isWork = false

end NFSKit
