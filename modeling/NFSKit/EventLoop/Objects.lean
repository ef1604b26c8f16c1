import NFSKit.EventLoop.WellFormed

/-!
# The objects of libnfs

An `nfsfh` or `nfsdir` travels from the callback that delivers it, through the result of an open or
opendir operation and the continuation of its caller, to a second queue block: the one of `openFile`
registers the `nfsfh` under a handle id, the one of `contentsOfDirectory` reads and closes the `nfsdir`.
-/

namespace NFSKit

/-- The operations whose callbacks deliver an object that has to be closed. -/
def OperationType.delivers : OperationType → Bool
  | .open | .opendir => true
  | _ => false

/-- The objects that the operations of a type have delivered. -/
def Core.objects (s : Core) : OperationType → List Nat
  | .open => s.nfsfhs
  | .opendir => s.nfsdirs
  | _ => []

/-- The result of `cb` is the object `p`: its caller has received it, or its completion hook is
running. -/
structure Core.Delivers (s : Core) (type : OperationType) (cb : CallbackData) (p : Nat) : Prop where
  delivers : type.delivers
  created : cb ∈ s.created
  entry : cb.entry = .submit type
  result : .success (.pointer p) ∈ s.outcomes cb.caller ∨
    .completionHook cb (.success (.pointer p)) ∈ s.stack

/-- The `nfsfh` that a call in progress is made with. -/
def Frame.handle : Frame → Option Nat
  | .handOver _ cb _ => cb.handle
  | .close fh => some fh
  | _ => none

/-- The handle id that an operation of the client is made on. -/
def Block.handleID : Block → Option Nat
  | .closeFile h | .readFile h | .writeFile h | .preadFile h | .preadIntoBuffer h _
  | .pwriteFile h | .fsync h | .fstat h | .ftruncate h | .lseek h => some h
  | _ => none

/-- The object that a caller receives. -/
def Outcome.object : Outcome → Option Nat
  | .success (.pointer p) => some p
  | _ => none

/-- Whether the operation is an open or an opendir. -/
def CallbackData.delivers (cb : CallbackData) : Bool :=
  match cb.entry with
  | .submit type => type.delivers
  | _ => false

/-- The opens and opendirs whose callers have received an object, and whose second blocks have not
run. -/
def Core.unclaimed (s : Core) : List CallbackData :=
  s.created.filter fun cb =>
    cb.delivers ∧ cb.caller ∉ s.followed ∧ (s.outcomes cb.caller).any (·.object.isSome)

/-- No queue block, caller or request is outstanding. -/
structure State.Quiescent (s : State) : Prop where
  stack : s.stack = []
  queue : s.pendingOperations = []
  outstanding : s.outstanding = []
  callers : s.nobodyWaits
  blocks : s.unclaimed = []

instance (s : State) : Decidable s.Quiescent :=
  decidable_of_iff (s.stack = [] ∧ s.pendingOperations = [] ∧ s.outstanding = [] ∧
      s.nobodyWaits ∧ s.unclaimed = [])
    ⟨fun ⟨h₁, h₂, h₃, h₄, h₅⟩ => ⟨h₁, h₂, h₃, h₄, h₅⟩, fun ⟨h₁, h₂, h₃, h₄, h₅⟩ => ⟨h₁, h₂, h₃, h₄, h₅⟩⟩

/-- The `nfsfh` has been passed to a close call that libnfs has not refused. -/
def Core.IsReleased (s : Core) (fh : Nat) : Prop :=
  fh ∈ s.closedHandles ∧
    ∀ cb ∈ s.created, cb.entry = .closeFile → cb.handle = some fh →
      s.fates cb.caller ≠ some .rejected

/-- Every object that libnfs has delivered is closed, or in the registry under exactly one id. -/
structure Core.Accounted (s : Core) : Prop where
  handles : ∀ fh ∈ s.nfsfhs, s.IsReleased fh ∨ ∃! id, s.handleRegistry.lookup id = some fh
  dirs : ∀ dir ∈ s.nfsdirs, dir ∈ s.closedDirs

/-- An id that `openFile` has returned and that is not in the registry any more. -/
def Core.IsClosed (s : Core) (id : Nat) : Prop :=
  id ∈ s.registrations.map Prod.fst ∧ s.handleRegistry.lookup id = none

/-- What holds of the handles in every reachable state. -/
structure Core.HandlesSafe (s : Core) : Prop where
  /-- No id was returned twice. -/
  ids : (s.registrations.map Prod.fst).Nodup
  /-- No `nfsfh` was registered twice. -/
  fhs : (s.registrations.map Prod.snd).Nodup
  /-- No `nfsfh` was closed twice. -/
  closed : s.closedHandles.Nodup
  registry : ∀ p ∈ s.handleRegistry, p ∈ s.registrations ∧ p.2 ∉ s.closedHandles
  delivered : ∀ fh ∈ s.closedHandles, fh ∈ s.registrations.map Prod.snd

/-- What a step from `s` to `t` does with ids and `nfsfh`s. -/
structure Core.UsesHandles (s t : Core) : Prop where
  /-- The ids it returns were never returned before. -/
  ids : ∃ new, t.registrations = new ++ s.registrations ∧
    ∀ p ∈ new, p.1 ∉ s.registrations.map Prod.fst
  /-- The operations it hands over are on handles that are not closed, and libnfs has its context. -/
  handOvers : ∃ new, t.handOvers = new ++ s.handOvers ∧
    ∀ h ∈ new, ∀ fh, h.cb.handle = some fh → fh ∉ s.closedHandles ∧ s.context.isSome
  /-- So it is with the `nfs_close` it begins. -/
  closes : ∀ fh, Frame.close fh ∈ t.stack →
    Frame.close fh ∈ s.stack ∨ fh ∉ s.closedHandles ∧ s.context.isSome

end NFSKit
