import NFSKit.EventLoop.WellFormed
import Mathlib.Logic.Relation

/-!
# What the loop is for

The loop makes a server's operations available as calls. Seen from its callers and from libnfs, it is a log
of calls: each call asks at most one thing of libnfs, libnfs settles what it has been asked, and the caller
gets one answer. The queue, the pipelines, the timers and the references do not occur here.
-/

namespace NFSKit

/-- Calls are numbered as they are made. -/
structure CallLog where
  calls : Nat := 0
  /-- The calls that are about a request, latest first; the others are answered by the loop itself. -/
  remote : List Nat := []
  /-- The calls whose requests have been given to libnfs, latest first. -/
  sent : List Nat := []
  /-- How libnfs settled a request. -/
  fates : Nat → Option Fate := fun _ => none
  answers : Nat → List Outcome := fun _ => []
  connected : Bool := true

namespace CallLog

/-- What may be told to the caller of `i`: a success only if libnfs has reported one; and once libnfs has
the request, a failure only if libnfs has reported it, in time, while there is a connection. -/
def Allows (l : CallLog) (i : Nat) : Outcome → Prop
  | .success _ => i ∈ l.remote → ∃ status, l.fates i = some (.called status) ∧ 0 ≤ status
  | .failure e =>
    i ∈ l.sent → l.fates i ≠ none ∨ e = .ETIMEDOUT ∨ (e = .ENOTCONN ∧ l.connected = false)

inductive Step : CallLog → CallLog → Prop where
  | call (l : CallLog) : Step l { l with calls := l.calls + 1 }
  | request (l : CallLog) : Step l { l with calls := l.calls + 1, remote := l.calls :: l.remote }
  /-- A request is given to libnfs, while its caller waits or after it has given up. -/
  | send (l : CallLog) {i : Nat} (hremote : i ∈ l.remote) (hsent : i ∉ l.sent) (hup : l.connected)
      (hanswers : ∀ r ∈ l.answers i, r = .failure .ETIMEDOUT) : Step l { l with sent := i :: l.sent }
  | settle (l : CallLog) {i : Nat} (f : Fate) (hsent : i ∈ l.sent) (hfate : l.fates i = none) :
      Step l { l with fates := Function.update l.fates i (some f) }
  | answer (l : CallLog) {i : Nat} (r : Outcome) (hcall : i < l.calls) (hanswers : l.answers i = [])
      (hallows : l.Allows i r) : Step l { l with answers := Function.update l.answers i [r] }
  | disconnect (l : CallLog) : Step l { l with connected := false }

/-- Any number of steps. -/
abbrev Grows : CallLog → CallLog → Prop := Relation.ReflTransGen Step

/-- What a log of calls guarantees. -/
structure Genuine (l : CallLog) : Prop where
  remote : ∀ i ∈ l.remote, i < l.calls
  sent : ∀ i ∈ l.sent, i ∈ l.remote
  /-- No request is made twice. -/
  once : l.sent.Nodup
  fates : ∀ i, l.fates i ≠ none → i ∈ l.sent
  answered : ∀ i, l.answers i ≠ [] → i < l.calls
  one : ∀ i, (l.answers i).length ≤ 1
  success : ∀ i v, .success v ∈ l.answers i → i ∈ l.remote →
    ∃ status, l.fates i = some (.called status) ∧ 0 ≤ status
  failure : ∀ i e, .failure e ∈ l.answers i → i ∈ l.sent →
    l.fates i ≠ none ∨ e = .ETIMEDOUT ∨ (e = .ENOTCONN ∧ l.connected = false)

end CallLog

/-- The loop as a log of calls. -/
def Core.callLog (s : Core) : CallLog where
  calls := s.nextCaller
  remote := s.created.map CallbackData.caller
  sent := s.handOvers.map fun x => x.cb.caller
  fates := s.fates
  answers := s.outcomes
  connected := s.context.isSome

/-- What ties the requests to what has been handed over and settled. -/
structure Accountable (s : State) : Prop where
  handed : ∀ x ∈ s.handOvers, x.cb ∈ s.created
  /-- What is queued has not been handed over. -/
  queued : ∀ op ∈ s.pendingOperations, ∀ x ∈ s.handOvers, x.cb ≠ op.cbData
  /-- The caller of what is queued waits or has timed out. -/
  patient : ∀ op ∈ s.pendingOperations, ∀ r ∈ s.outcomes op.cbData.caller, r = .failure .ETIMEDOUT
  calls : ∀ site cb ran, Frame.handOver site cb ran ∈ s.stack → ∃ x ∈ s.handOvers, x.cb = cb
  outstanding : ∀ q ∈ s.outstanding, ∃ x ∈ s.handOvers, x.cb = q.cb
  /-- A completion hook brings what libnfs has reported. -/
  hooks : ∀ cb r, Frame.completionHook cb r ∈ s.stack → ∃ status,
    s.fates cb.caller = some (.called status) ∧ (r.isSuccess → 0 ≤ status)
  refused : ∀ n cb, Frame.rpcDestroy n (.getexports cb) ∈ s.stack → s.fates cb.caller = some .rejected

end NFSKit
