import NFSKit.EventLoop.WellFormed

/-!
# Resuming the callers

Which operations can still resume their caller, and the two halves of resuming every caller exactly
once: nobody is resumed twice (`Resumption`), and whoever has not been resumed is still waited for
(`Waiting`).
-/

namespace NFSKit

/-- The operations whose raw continuation the frame resumes if libnfs refuses them. -/
def Frame.raw : Frame → List CallbackData
  | .handOver site cb ran => if site.isPending ∨ cb.caller ∈ ran then [] else [cb]
  | .rpcDestroy _ (.getexports cb) => [cb]
  | _ => []

/-- The refused operation whose raw continuation the frame resumes. -/
def Frame.refused : Frame → List CallbackData
  | .rpcDestroy _ (.getexports cb) => [cb]
  | _ => []

/-- The operations whose callers the frame resumes when its call returns, whatever it returns. -/
def Frame.awaits : Frame → List CallbackData
  | .completionHook cb _ => [cb]
  | .rpcDestroy _ (.getexports cb) => [cb]
  | .destroy _ conts => conts
  | _ => []

/-- Whether something can still resume the caller of `cb`: the registry, a request, or a teardown. -/
def State.Live (s : State) (cb : CallbackData) : Prop :=
  cb ∈ s.activeContinuations ∨ 0 < s.tokens cb ∨ ∃ f ∈ s.stack, cb ∈ f.snapshot

/-- Nobody is resumed twice. -/
structure Resumption (s : State) : Prop where
  once : ∀ i, (s.outcomes i).length ≤ 1
  fresh : ∀ i, s.nextCaller ≤ i → s.outcomes i = [] ∧ s.hasResumed i = false
  marked : ∀ i, s.hasResumed i = true → s.outcomes i ≠ []
  unresumed : ∀ cb, s.Live cb → s.hasResumed cb.caller = false → s.outcomes cb.caller = []
  raw : ∀ f ∈ s.stack, ∀ cb ∈ f.raw, s.hasResumed cb.caller = false
  refused : ∀ f ∈ s.stack, ∀ cb ∈ f.refused, cb ∉ s.activeContinuations

/-- Whether `cb` is registered, or a call in progress is going to resume its caller. -/
def State.Covers (s : State) (cb : CallbackData) : Prop :=
  cb ∈ s.activeContinuations ∨ ∃ f ∈ s.stack, cb ∈ f.awaits

/-- Nobody is forgotten. -/
def Waiting (s : State) : Prop :=
  ∀ i < s.nextCaller, s.outcomes i ≠ [] ∨ ∃ cb, cb.caller = i ∧ s.Covers cb

end NFSKit
