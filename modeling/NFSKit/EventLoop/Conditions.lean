import NFSKit.EventLoop.Ledger
import NFSKit.EventLoop.Objects
import NFSKit.EventLoop.Outskirts
import NFSKit.Client
import Mathlib.Data.Fintype.Basic

/-!
# Conditions on a step

The conditions under which the loop keeps its promises, as predicates of the state before the step and
the event. All of them can be evaluated.
-/

namespace NFSKit

/-- The operations that the timeout scan of this step expires. -/
def scanExpires (s : State) (e : Event) : List CallbackData :=
  if e = .block .scanForTimeouts ∧ 0 < s.timeout then s.activeContinuations.filter s.expired else []

/-- No timeout scan expires an operation that is still queued. -/
def ScanSparesQueue (s : State) (e : Event) : Prop :=
  ∀ cb ∈ scanExpires s e, ∀ op ∈ s.pendingOperations, op.id ≠ cb.continuationID

instance (s : State) (e : Event) : Decidable (ScanSparesQueue s e) := by
  unfold ScanSparesQueue
  infer_instance

/-- No timeout scan expires a read into a caller's buffer that libnfs still holds. -/
def ScanSparesReads (s : State) (e : Event) : Prop :=
  ∀ cb ∈ scanExpires s e, cb.entry = .preadIntoBuffer → ¬ s.Holds cb

instance (s : State) (e : Event) : Decidable (ScanSparesReads s e) := by
  unfold ScanSparesReads
  infer_instance

/-- The operation whose callback libnfs runs inside the very call that hands it over in its own queue
block. -/
def ownCallback (s : State) : Event → Option CallbackData
  | .callback id _ _ => (s.stack.head?.bind Frame.directCall).filter (·.continuationID = id)
  | _ => none

/-- The `mount` or `getexports` that libnfs accepts: the loop does not count it. -/
def uncountedAccept (s : State) : Event → Option CallbackData
  | .ret rc _ =>
    match s.stack with
    | .handOver site cb _ :: _ =>
      if 0 ≤ rc ∧ ¬ site.isPending ∧ ¬ site.countsLate then some cb else none
    | _ => none
  | _ => none

/-- The step counts the operations of category `c` exactly: it expires none, runs no callback of one
inside its own issuing call, and is no `mount` or `getexports` being accepted. -/
def CountsExactly (c : OperationCategory) (s : State) (e : Event) : Prop :=
  (∀ cb ∈ scanExpires s e, cb.operationCategory ≠ c) ∧
    (∀ cb ∈ ownCallback s e, cb.operationCategory ≠ c) ∧
    ∀ cb ∈ uncountedAccept s e, cb.operationCategory ≠ c

instance (c : OperationCategory) (s : State) (e : Event) : Decidable (CountsExactly c s e) := by
  unfold CountsExactly
  infer_instance

/-- The last reference to the loop is not dropped off its queue while libnfs holds requests that the
destruction of a context would call back. -/
def DropsIdle (s : State) (e : Event) : Prop :=
  e = .deinit false → s.context = none ∨ s.outstanding = []

instance (s : State) (e : Event) : Decidable (DropsIdle s e) := by
  unfold DropsIdle
  infer_instance

/-- The category of the accepted operation that the callback of this step completes, and whether its
completion hook is told of a success. -/
def completions (s : State) : Event → List (OperationCategory × Bool)
  | .callback id status data =>
    (s.outstanding.filter (·.cb.continuationID = id)).map fun r =>
      (r.cb.operationCategory, s.replySucceeds r.cb status data)
  | _ => []

/-- When the destruction of the export context in `performShutdown` completes the export query, no
queued operation has capacity afterwards. -/
def ShutsDownFull (s : State) (e : Event) : Prop :=
  s.alive → s.stack.head?.any Frame.isShutdownCleanup → ∀ x ∈ completions s e,
    ∀ op ∈ s.pendingOperations, (s.recordCompletion x.1 x.2).hasCapacity op.category = false

instance (s : State) (e : Event) : Decidable (ShutsDownFull s e) := by
  unfold ShutsDownFull
  infer_instance

/-- When libnfs returns from the destruction of a context, it has called back every request it had
accepted on it. -/
def AnswersAll (s : State) (e : Event) : Prop :=
  e.returns → ∀ f ∈ s.stack.head?, f.destroys → ∀ r ∈ s.outstanding, f.ctx ≠ some r.ctx

instance (s : State) (e : Event) : Decidable (AnswersAll s e) := by
  unfold AnswersAll
  infer_instance

/-- The context is destroyed only when nothing is queued; and when `nfs_service` has failed, no export
query is outstanding either. -/
def TearsDownEmpty (s : State) (e : Event) : Prop :=
  s.tearsDown e → s.pendingOperations = [] ∧
    (s.stack.head? = some .service → ∀ r ∈ s.outstanding, r.ctx = .nfs)

instance (s : State) (e : Event) : Decidable (TearsDownEmpty s e) := by
  unfold TearsDownEmpty
  infer_instance

/-- Whether the event is a reply that delivers an object to the caller of `cb`. -/
def Event.bringsTo (cb : CallbackData) : Event → Bool
  | .callback id status (some (.pointer _)) =>
    cb.continuationID = id ∧ 0 ≤ status ∧
      (cb.entry = .submit .open ∨ cb.entry = .submit .opendir)
  | _ => false

/-- No reply delivers an object to a caller that has been resumed already, or while the context is
being destroyed. -/
def DeliversInTime (s : State) (e : Event) : Prop :=
  ∀ cb ∈ s.created, e.bringsTo cb → s.outcomes cb.caller = [] ∧ s.context.isSome

instance (s : State) (e : Event) : Decidable (DeliversInTime s e) := by
  unfold DeliversInTime
  infer_instance

/-- The operation that libnfs refuses. -/
def refusedCall (s : State) : Event → Option CallbackData
  | .ret rc _ =>
    match s.stack with
    | .handOver _ cb _ :: _ => if rc < 0 then some cb else none
    | _ => none
  | _ => none

/-- No `nfs_close_async` of `closeFile` is refused. -/
def AcceptsCloses (s : State) (e : Event) : Prop :=
  ∀ cb ∈ refusedCall s e, cb.entry ≠ .closeFile

instance (s : State) (e : Event) : Decidable (AcceptsCloses s e) := by
  unfold AcceptsCloses
  infer_instance

/-- An open or opendir is submitted as `openFile` and `opendir` do it: the handler unwraps the pointer
to the object. -/
def UnwrapsObjects (e : Event) : Prop :=
  ∀ x ∈ e.submits, x.1.delivers → x.2 = .unwrap

instance (e : Event) : Decidable (UnwrapsObjects e) := by
  unfold UnwrapsObjects
  infer_instance

/-- The context is not destroyed before the second blocks of all opens and opendirs have run. -/
def DestroysClaimed (s : State) (e : Event) : Prop :=
  s.tearsDown e → s.context.isSome → s.unclaimed = []

instance (s : State) (e : Event) : Decidable (DestroysClaimed s e) := by
  unfold DestroysClaimed
  infer_instance

/-- The step loses no object of libnfs. -/
def KeepsObjects (s : State) (e : Event) : Prop :=
  UnwrapsObjects e ∧ DeliversInTime s e ∧ AcceptsCloses s e ∧ DestroysClaimed s e

instance (s : State) (e : Event) : Decidable (KeepsObjects s e) := by
  unfold KeepsObjects
  infer_instance

/-- No setting that has to precede `connect(export:)` is set, except that `setSecurity` may be called
while libnfs has a descriptor. -/
def SparesSettings (s : State) (e : Event) : Prop :=
  ∀ x ∈ e.setting, x.precedesConnect → s.context.isSome → x.isSecurity ∧ 0 ≤ s.lib.fd

instance (s : State) (e : Event) : Decidable (SparesSettings s e) := by
  unfold SparesSettings
  infer_instance

/-! ## What keeps the queue in order -/

/-- Whether a queued operation counts: all do, or only those whose callers still wait. -/
def Core.regards (s : Core) (all : Bool) (op : PendingOperation) : Bool :=
  all || (s.outcomes op.cbData.caller).isEmpty

/-- The timeout scan leaves no capacity for a queued operation. -/
def ScanLeavesFull (all : Bool) (s : State) (e : Event) : Prop :=
  scanExpires s e ≠ [] → ∀ op ∈ s.pendingOperations,
    ((scanExpires s e).foldl State.expire s).regards all op →
      ((scanExpires s e).foldl State.expire s).hasCapacity op.category = false

instance (all : Bool) (s : State) (e : Event) : Decidable (ScanLeavesFull all s e) := by
  unfold ScanLeavesFull
  infer_instance

/-- The deferred operation that libnfs refuses, and the index of the loop. -/
def refusedPending (s : State) : Event → Option (Nat × PendingOperation)
  | .ret rc _ =>
    match s.stack with
    | .handOver (.pending i op) _ _ :: _ => if rc < 0 then some (i, op) else none
    | _ => none
  | _ => none

/-- The slot that a refused operation gives back is of no use to an operation that the loop has
passed. -/
def RefusesInOrder (all : Bool) (s : State) (e : Event) : Prop :=
  ∀ x ∈ refusedPending s e, ∀ op ∈ s.pendingOperations.take x.1, s.regards all op →
    (s.addInFlight x.2.category (-1)).hasCapacity op.category = false

instance (all : Bool) (s : State) (e : Event) : Decidable (RefusesInOrder all s e) := by
  unfold RefusesInOrder
  infer_instance

/-- No step makes room for a queued operation without looking at the queue again. -/
def LooksAgain (all : Bool) (s : State) (e : Event) : Prop :=
  ScanLeavesFull all s e ∧ RefusesInOrder all s e

instance (all : Bool) (s : State) (e : Event) : Decidable (LooksAgain all s e) := by
  unfold LooksAgain
  infer_instance

/-- The operation whose callback libnfs runs. -/
def calledBack (s : State) : Event → List CallbackData
  | .callback id _ _ =>
    ((s.stack.head?.bind Frame.inCall).toList ++ s.outstanding.map Request.cb).filter
      (·.continuationID = id)
  | _ => []

/-- Whether the call counts an operation when it returns that has been called back before, and that is
`cb` or of its category. -/
def Frame.countsAfter (cb : CallbackData) (f : Frame) : Prop :=
  f.lateCall = some cb ∨ ∃ x ∈ f.answeredCall, x.operationCategory = cb.operationCategory

instance (cb : CallbackData) (f : Frame) : Decidable (f.countsAfter cb) := by
  unfold Frame.countsAfter
  infer_instance

/-- No completion inside such a call is lost because it finds the in-flight count at zero. -/
def KeepsCompletions (s : State) (e : Event) : Prop :=
  ∀ cb ∈ calledBack s e, (∃ f ∈ s.stack, f.countsAfter cb) → 0 < s.inFlightCount cb.operationCategory

instance (s : State) (e : Event) : Decidable (KeepsCompletions s e) := by
  unfold KeepsCompletions
  infer_instance

/-- The step leaves no queued operation without a completion that will look at the queue. -/
def KeepsDraining (s : State) (e : Event) : Prop := LooksAgain true s e ∧ KeepsCompletions s e

instance (s : State) (e : Event) : Decidable (KeepsDraining s e) := by
  unfold KeepsDraining
  infer_instance

/-! ## What keeps the depth -/

/-- The category of the operation that the event hands to libnfs without a look at the in-flight count. -/
def directs (s : State) : Event → Option OperationCategory
  | .block b => if b.reachesCall s then b.directCategory else none
  | _ => none

/-- The category of the operation that the event submits or hands over. -/
def comesIn (s : State) (e : Event) : Option OperationCategory :=
  match e.submits with
  | some x => some x.1.category
  | none => directs s e

/-- The step keeps the in-flight count of category `c` level with what libnfs holds, and hands nothing of
the category over without a free slot: no timeout scan expires an operation of the category; an operation
on an open handle, a `mount` and a `getexports` find a free slot; while libnfs holds a `mount` or
`getexports`, no operation of its category comes in, nor does one pass a queued operation; and the reply
to a `mount` or `getexports` finds no slot to take back. -/
def KeepsSlots (c : OperationCategory) (s : State) (e : Event) : Prop :=
  (∀ cb ∈ scanExpires s e, cb.operationCategory ≠ c) ∧
    (directs s e = some c → s.hasCapacity c) ∧
    (comesIn s e = some c → s.context.isSome →
      (∀ r ∈ s.outstanding, r.cb.operationCategory = c → r.cb.isCounted) ∧
        (s.hasCapacity c → ∀ op ∈ s.pendingOperations, op.category ≠ c)) ∧
    ∀ cb ∈ calledBack s e, cb.operationCategory = c → cb.isCounted = false → s.inFlightCount c ≤ 0

instance (c : OperationCategory) (s : State) (e : Event) : Decidable (KeepsSlots c s e) := by
  unfold KeepsSlots
  infer_instance

/-! ## What keeps the pipelines apart -/

/-- The step expires no operation, starts no teardown and finds room in the queue. -/
def Undisturbed (s : State) (e : Event) : Prop :=
  scanExpires s e = [] ∧ e.shutsDown = false ∧ s.tearsDown e = false ∧
    s.pendingOperations.length < maxPendingOperations

instance (s : State) (e : Event) : Decidable (Undisturbed s e) := by
  unfold Undisturbed
  infer_instance

/-- The category of the deferred operation that the call hands over. -/
def Frame.drains : Frame → Option OperationCategory
  | .handOver (.pending _ op) _ _ => some op.category
  | _ => none

/-- A callback that runs inside the call that hands over a deferred operation of the other category finds
that category at capacity, or none of its operations queued. -/
def CallsBackApart (s : State) (e : Event) : Prop :=
  ∀ cb ∈ calledBack s e, ∀ c ∈ s.stack.head?.bind Frame.drains, c ≠ cb.operationCategory →
    ∀ op ∈ s.pendingOperations, op.category = c → s.hasCapacity c = false

instance (s : State) (e : Event) : Decidable (CallsBackApart s e) := by
  unfold CallsBackApart
  infer_instance

/-- No step lets a drain of one category do the work of the other, or pass over its own. -/
def DrainsApart (s : State) (e : Event) : Prop := RefusesInOrder true s e ∧ CallsBackApart s e

instance (s : State) (e : Event) : Decidable (DrainsApart s e) := by
  unfold DrainsApart
  infer_instance

/-! ## What the sources follow -/

/-- What libnfs answers from then on. -/
def Event.answers : Event → Option LibView
  | .ret _ view => some view
  | _ => none

/-- Whether the event returns a negative code. -/
def Event.refuses : Event → Bool
  | .ret rc _ => rc < 0
  | _ => false

/-- Whether the call hands an operation to the `nfs_context`. -/
def Frame.handsOver : Frame → Bool
  | .handOver site _ _ => site.ctx = .nfs
  | _ => false

def Frame.isMount : Frame → Bool
  | .handOver .mount _ _ => true
  | _ => false

/-- Whether the call is the synchronous `nfs_close`. -/
def Frame.isClose : Frame → Bool
  | .close _ => true
  | _ => false

/-- The inode that `fstat` tells of a socket `x` is `ino x`. -/
def InodesTell (ino : Nat → Nat) (e : Event) : Prop :=
  ∀ view ∈ e.answers, 0 ≤ view.fd → view.socketIno = ino view.socket

instance (ino : Nat → Nat) (e : Event) : Decidable (InodesTell ino e) := by
  unfold InodesTell
  infer_instance

/-- libnfs changes its socket only in `nfs_service`, in the synchronous `nfs_close` and in a `mount` that
it accepts. -/
def SocketStays (s : State) (e : Event) : Prop :=
  ∀ view ∈ e.answers, ∀ f ∈ s.stack.head?, f.handsOver → (f.isMount → e.refuses) →
    .service ∉ s.stack → (∀ g ∈ s.stack, g.isClose = false) →
      view.fd = s.lib.fd ∧ view.socket = s.lib.socket

instance (s : State) (e : Event) : Decidable (SocketStays s e) := by
  unfold SocketStays
  infer_instance

/-- A synchronous `nfs_close` changes neither the socket nor, when it returns, the wanted events. -/
def ClosesQuietly (s : State) (e : Event) : Prop :=
  ∀ view ∈ e.answers, (∃ g ∈ s.stack, g.isClose) →
    view.fd = s.lib.fd ∧ view.socket = s.lib.socket ∧
      (s.stack.head?.any Frame.isClose → view.pollout = s.lib.pollout)

instance (s : State) (e : Event) : Decidable (ClosesQuietly s e) := by
  unfold ClosesQuietly
  infer_instance

/-- A call that refuses the operation of its own queue block leaves the wanted events as they were. -/
def RefusesQuietly (s : State) (e : Event) : Prop :=
  ∀ view ∈ e.answers, e.refuses → ∀ f ∈ s.stack.head?, f.handsOver → f.nested = false →
    view.pollout = s.lib.pollout

instance (s : State) (e : Event) : Decidable (RefusesQuietly s e) := by
  unfold RefusesQuietly
  infer_instance

/-! ## What happens when a client disconnects -/

/-- Whether the event is a reply with a status that the loop takes for a success of `cb`. -/
def Event.succeeds (cb : CallbackData) : Event → Bool
  | .callback id status _ => cb.continuationID = id ∧ 0 ≤ status
  | _ => false

/-- What the call that ends has returned. -/
def Event.returned : Event → Option Int
  | .ret rc _ => some rc
  | _ => none

/-- libnfs disconnects for an umount: it answers one with success only inside `nfs_service`, and the
`nfs_service` in which it has done so fails. -/
def UnmountsInService (s : State) (e : Event) : Prop :=
  (∀ cb ∈ s.created, cb.entry = .submit .umount → e.succeeds cb → s.stack.head? = some .service) ∧
    ∀ rc ∈ e.returned, s.stack.head? = some .service → s.Disconnected → rc < 0

instance (s : State) (e : Event) : Decidable (UnmountsInService s e) := by
  unfold UnmountsInService
  infer_instance

/-- Dispatch runs the handler of the export query only while a source of the query is there. -/
def FiresFromSources (s : State) (e : Event) : Prop :=
  e = .block .handleRpcExportsEvent → ¬ s.exports.Off

instance (s : State) (e : Event) : Decidable (FiresFromSources s e) := by
  unfold FiresFromSources
  infer_instance

/-- When `nfs_service` returns after an umount has succeeded, no sources of an export query are left. -/
def LeavesNoQuery (s : State) (e : Event) : Prop :=
  e.returns → s.stack.head? = some .service → s.Disconnected → s.exports.Off

instance (s : State) (e : Event) : Decidable (LeavesNoQuery s e) := by
  unfold LeavesNoQuery
  infer_instance

end NFSKit
