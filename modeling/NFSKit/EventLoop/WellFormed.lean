import NFSKit.EventLoop.Actions
import Mathlib.Data.List.Nodup

/-!
# Well-formed states

What ties the registry, the pending queue, libnfs's requests and the control stack together: each
`CallbackData` is made once, with its own id and continuation, and at any time at most one of them is
responsible for it.
-/

namespace NFSKit

/-- The operations a frame is responsible for: the one it hands over and whose callback has not run,
the one whose completion hook is running, or the one whose raw continuation it resumes. -/
def Frame.holds : Frame → List CallbackData
  | .handOver _ cb ran => if cb.caller ∈ ran then [] else [cb]
  | .completionHook cb _ => [cb]
  | .rpcDestroy _ (.getexports cb) => [cb]
  | _ => []

/-- The continuations a teardown resumes when its context is destroyed. -/
def Frame.snapshot : Frame → List CallbackData
  | .destroy _ conts => conts
  | _ => []

/-- Whether a frame is only pushed while the completion of an operation is processed. -/
def Frame.nested : Frame → Bool
  | .handOver site _ _ => site.isPending
  | .completionHook _ _ => true
  | _ => false

/-- Only the outermost call can be the first call of a queue block. -/
def NestedAbove : List Frame → Prop
  | [] => True
  | f :: rest => (f.nested ∨ rest = []) ∧ NestedAbove rest

/-- How many requests of the queue, of libnfs and of the control stack are the operation `cb`. -/
def Core.tokens (s : Core) (cb : CallbackData) : Nat :=
  s.pendingOperations.countP (fun op => op.cbData = cb) + s.outstanding.countP (fun r => r.cb = cb) +
    (s.stack.flatMap Frame.holds).count cb

/-- How many requests of the queue and of libnfs, accepted or being handed over, are the operation
`cb`: those that can still have an effect on the server. -/
def Core.requests (s : Core) (cb : CallbackData) : Nat :=
  s.pendingOperations.countP (fun op => op.cbData = cb) + s.outstanding.countP (fun r => r.cb = cb) +
    (s.stack.filterMap Frame.inCall).count cb

/-- Whether libnfs holds the request of `cb`: it has accepted it, or the call that hands it over has not
returned, and its callback has not run. -/
def Core.Holds (s : Core) (cb : CallbackData) : Prop :=
  (∃ r ∈ s.outstanding, r.cb = cb) ∨ ∃ f ∈ s.stack, f.inCall = some cb

instance (s : Core) (cb : CallbackData) : Decidable (s.Holds cb) := by
  unfold Core.Holds
  infer_instance

/-- A queue entry agrees with the `CallbackData` its closures capture. -/
structure PendingOperation.Consistent (op : PendingOperation) : Prop where
  id_eq : op.id = op.cbData.continuationID
  category_eq : op.category = op.cbData.operationCategory
  cleanup_eq : op.cbData.cleanup = false

/-- The bookkeeping invariant of the loop. -/
structure WellFormed (s : State) : Prop where
  caller_lt : ∀ cb ∈ s.created, cb.caller < s.nextCaller
  id_lt : ∀ cb ∈ s.created, cb.continuationID < s.nextContinuationID
  id_inj : ∀ a ∈ s.created, ∀ b ∈ s.created, a.continuationID = b.continuationID → a = b
  caller_inj : ∀ a ∈ s.created, ∀ b ∈ s.created, a.caller = b.caller → a = b
  active_nodup : s.activeContinuations.Nodup
  active_created : ∀ cb ∈ s.activeContinuations, cb ∈ s.created
  tokens_created : ∀ cb, 0 < s.tokens cb → cb ∈ s.created
  tokens_le : ∀ cb, s.tokens cb ≤ 1
  snapshot_created : ∀ f ∈ s.stack, ∀ cb ∈ f.snapshot, cb ∈ s.created
  pending_op : ∀ op ∈ s.pendingOperations, op.Consistent
  frame_op : ∀ i op cb ran, Frame.handOver (.pending i op) cb ran ∈ s.stack →
    op.cbData = cb ∧ op.Consistent
  nested : NestedAbove s.stack
  retired : s.context = none →
    s.activeContinuations = [] ∧ s.pendingOperations = []

/-- What is known of a loop that has been torn down, or is being torn down. -/
structure Ending (k : Config) : Prop where
  destroyed : ∀ kind conts, Frame.destroy kind conts ∈ k.state.stack → k.state.context = none
  torn : 0 < k.state.teardowns → k.state.context = none
  /-- The last reference is dropped only to shut the loop down. -/
  dead : k.state.alive = false → k.state.context = none ∨ k.mode = .tearingDown .performShutdown ∨
    ∃ n, k.state.stack.getLast? = some (.rpcDestroy n .performShutdown)

namespace NestedAbove

/-- A call that starts a queue block has nothing below it. -/
theorem rest_eq_nil {f : Frame} {rest : List Frame} (h : NestedAbove (f :: rest))
    (hf : f.nested = false) : rest = [] := by
  obtain ⟨h | h, -⟩ := h
  · rw [hf] at h
    exact absurd h (by decide)
  · exact h

theorem tail {f : Frame} {rest : List Frame} (h : NestedAbove (f :: rest)) : NestedAbove rest := h.2

theorem cons {f : Frame} {rest : List Frame} (h : NestedAbove rest) (hf : f.nested) :
    NestedAbove (f :: rest) := ⟨.inl hf, h⟩

theorem singleton (f : Frame) : NestedAbove [f] := ⟨.inr rfl, trivial⟩

end NestedAbove

end NFSKit
