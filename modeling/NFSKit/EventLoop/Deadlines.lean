import NFSKit.EventLoop.Step

/-!
# The timeout timer in time

While the timeout timer is set, Dispatch calls `scanForTimeouts` at a fixed interval, one second in
`startTimeoutTimer`. Here the loop is watched together with the two moments that matter for it: when the
timer was set, and when the operations were last looked at.
-/

namespace NFSKit

/-- The loop, with readings of its clock. -/
structure Watched where
  state : State
  /-- When the timeout timer was last set. -/
  since : Nat := 0
  /-- When the timer was last set or the operations were last scanned. -/
  last : Nat := 0

namespace Watched

def init (timeout : Int) : Watched := { state := State.init timeout }

/-- Whether the step to `t` sets the timer. -/
def sets (w : Watched) (t : State) : Bool := t.sources.timeoutTimer && !w.state.sources.timeoutTimer

def step (w : Watched) (e : Event) : Option Watched :=
  (NFSKit.step w.state e).map fun t =>
    { state := t
      since := if w.sets t then t.clock else w.since
      last := if w.sets t || e = .block .scanForTimeouts then t.clock else w.last }

/-- Whether Dispatch is in time: while the timer is set, no more than `interval` passes until the next
scan. -/
def punctual (interval : Nat) (w : Watched) : Event → Bool
  | .tick d => !w.state.sources.timeoutTimer || w.state.clock + d ≤ w.last + interval
  | _ => true

/-- While the timer is set, the last scan is at most an interval ago, and it left nobody waiting who was due:
nobody had waited longer than the timeout since the timer was set. -/
structure OnTime (interval : Nat) (w : Watched) : Prop where
  past : w.since ≤ w.last ∧ w.last ≤ w.state.clock
  scanned : w.state.sources.timeoutTimer → w.state.clock ≤ w.last + interval
  due : w.state.sources.timeoutTimer → ∀ cb ∈ w.state.created, w.state.outcomes cb.caller = [] →
    (w.last : Int) ≤ max (cb.startTime + w.state.timeout) w.since

/-- The export query, if there is one, was started by an operation that was not due when the operations were
last looked at. -/
def QueryOnTime (w : Watched) : Prop :=
  ∀ n, w.state.exports.rpcExportsCtx = some n → ∃ cb ∈ w.state.created, cb.entry = .getexports ∧
    w.state.exports.rpcExportsContID = some cb.continuationID ∧
      (w.state.sources.timeoutTimer → (w.last : Int) ≤ max (cb.startTime + w.state.timeout) w.since)

end Watched

end NFSKit
