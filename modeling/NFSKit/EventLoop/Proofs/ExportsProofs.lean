import NFSKit.EventLoop.Proofs.OutskirtsProofs
import NFSKit.EventLoop.Proofs.LedgerProofs

/-!
# The contexts of the export queries

Each query has a context of its own. It is made when the query starts and gone from `rpcExportsCtx`
before it is destroyed, so a call in progress on it is either the one that destroys it or made on the
context of the moment.
-/

namespace NFSKit

open Machine

variable {s t u v : State} {k k' : Config} {a : Action} {e : Event}

/-- The calls in progress on export contexts. -/
def State.rpcCalls (s : State) : List (Nat × Bool) := s.stack.filterMap Frame.rpcCall

/-- The export contexts are left alone, or the context of the query is given up. -/
inductive ExportsClosed (s t : State) : Prop where
  | kept (hctx : t.exports.rpcExportsCtx = s.exports.rpcExportsCtx) (hnext : t.nextRpc = s.nextRpc)
      (hcalls : t.rpcCalls = s.rpcCalls) : ExportsClosed s t
  /-- The context leaves `rpcExportsCtx`, and `rpc_destroy_context` begins. -/
  | closed (n : Nat) (hctx : s.exports.rpcExportsCtx = some n)
      (hctx' : t.exports.rpcExportsCtx = none) (hnext : t.nextRpc = s.nextRpc)
      (hcalls : s.rpcCalls = []) (hcalls' : t.rpcCalls = [(n, true)]) : ExportsClosed s t

namespace ExportsClosed

theorem of_outskirts (h : t.outskirts = s.outskirts) : ExportsClosed s t :=
  .kept (congrArg (fun o => o.exports.rpcExportsCtx) h) (congrArg Outskirts.nextRpc h)
    (congrArg Outskirts.rpcCalls h)

/-- What is done, seen from a state with the same export contexts. -/
theorem congr (h : ExportsClosed s t) (hctx : s.exports.rpcExportsCtx = u.exports.rpcExportsCtx)
    (hnext : s.nextRpc = u.nextRpc) (hcalls : s.rpcCalls = u.rpcCalls) : ExportsClosed u t := by
  cases h with
  | kept h₁ h₂ h₃ => exact .kept (h₁.trans hctx) (h₂.trans hnext) (h₃.trans hcalls)
  | closed n h₁ h₂ h₃ h₄ h₅ =>
    exact .closed n (hctx.symm.trans h₁) h₂ (h₃.trans hnext) (hcalls.symm.trans h₄) h₅

/-- Whatever follows leaves the export contexts alone. -/
theorem trans_same (h : ExportsClosed s t)
    (hctx : u.exports.rpcExportsCtx = t.exports.rpcExportsCtx) (hnext : u.nextRpc = t.nextRpc)
    (hcalls : u.rpcCalls = t.rpcCalls) : ExportsClosed s u := by
  cases h with
  | kept h₁ h₂ h₃ => exact .kept (hctx.trans h₁) (hnext.trans h₂) (hcalls.trans h₃)
  | closed n h₁ h₂ h₃ h₄ h₅ =>
    exact .closed n h₁ (hctx.trans h₂) (hnext.trans h₃) h₄ (hcalls.trans h₅)

theorem trans_outskirts (h : ExportsClosed s t) (ho : u.outskirts = t.outskirts) :
    ExportsClosed s u :=
  h.trans_same (congrArg (fun o => o.exports.rpcExportsCtx) ho) (congrArg Outskirts.nextRpc ho)
    (congrArg Outskirts.rpcCalls ho)

end ExportsClosed

/-- What a step does to the export contexts. -/
inductive ExportsStep (s t : State) : Prop where
  | kept (hctx : t.exports.rpcExportsCtx = s.exports.rpcExportsCtx) (hnext : t.nextRpc = s.nextRpc)
      (hcalls : t.rpcCalls = s.rpcCalls) : ExportsStep s t
  /-- `rpc_service` begins. -/
  | entered (n : Nat) (hctx : s.exports.rpcExportsCtx = some n)
      (hctx' : t.exports.rpcExportsCtx = some n) (hnext : t.nextRpc = s.nextRpc)
      (hcalls : s.rpcCalls = []) (hcalls' : t.rpcCalls = [(n, false)]) : ExportsStep s t
  /-- A query starts on a new context. -/
  | opened (hctx : s.exports.rpcExportsCtx = none)
      (hctx' : t.exports.rpcExportsCtx = some s.nextRpc) (hnext : t.nextRpc = s.nextRpc + 1)
      (hcalls : s.rpcCalls = []) (hcalls' : t.rpcCalls = [(s.nextRpc, false)]) : ExportsStep s t
  /-- A call on an export context returns; a destroyed context has no requests any more. -/
  | left (c : Nat × Bool) (hctx : t.exports.rpcExportsCtx = s.exports.rpcExportsCtx)
      (hnext : t.nextRpc = s.nextRpc) (hcalls : s.rpcCalls = [c]) (hcalls' : t.rpcCalls = [])
      (hdrop : c.2 → ∀ r ∈ t.outstanding, r.ctx ≠ .rpc c.1) : ExportsStep s t
  /-- The context leaves `rpcExportsCtx`, and `rpc_destroy_context` begins. -/
  | closed (n : Nat) (hctx : s.exports.rpcExportsCtx = some n)
      (hctx' : t.exports.rpcExportsCtx = none) (hnext : t.nextRpc = s.nextRpc)
      (hcalls : s.rpcCalls = [] ∨ ∃ c, s.rpcCalls = [c] ∧
        (c.2 → ∀ r ∈ t.outstanding, r.ctx ≠ .rpc c.1))
      (hcalls' : t.rpcCalls = [(n, true)]) : ExportsStep s t

theorem ExportsClosed.step (h : ExportsClosed s t) : ExportsStep s t := by
  cases h with
  | kept h₁ h₂ h₃ => exact .kept h₁ h₂ h₃
  | closed n h₁ h₂ h₃ h₄ h₅ => exact .closed n h₁ h₂ h₃ (.inl h₄) h₅

/-- What the step does after the only call on an export context has returned. -/
theorem ExportsClosed.pop {c : Nat × Bool} (h : ExportsClosed u t)
    (hctx : u.exports.rpcExportsCtx = s.exports.rpcExportsCtx) (hnext : u.nextRpc = s.nextRpc)
    (hcalls : u.rpcCalls = []) (hcall : s.rpcCalls = [c])
    (hdrop : c.2 → ∀ r ∈ t.outstanding, r.ctx ≠ .rpc c.1) : ExportsStep s t := by
  cases h with
  | kept h₁ h₂ h₃ => exact .left c (h₁.trans hctx) (h₂.trans hnext) hcall (h₃.trans hcalls) hdrop
  | closed n h₁ h₂ h₃ h₄ h₅ =>
    exact .closed n (hctx.symm.trans h₁) h₂ (h₃.trans hnext) (.inr ⟨c, hcall, hdrop⟩) h₅

/-! ## Teardown -/

theorem rpcCalls_of_nil (hstack : s.stack = []) : s.rpcCalls = [] := by
  simp [State.rpcCalls, hstack]

theorem destroyContext_exports (s : State) (kind : Teardown) :
    ExportsClosed s (s.destroyContext kind) := by
  unfold State.destroyContext
  cases kind <;> dsimp only <;> split <;>
    first
      | exact .kept rfl rfl rfl
      | exact .trans_outskirts (.kept rfl rfl rfl) (State.endTeardown_outskirts _ _ _)

theorem afterCleanup_exports (s : State) (next : AfterCleanup) :
    ExportsClosed s (s.afterCleanup next) := by
  cases next with
  | done | getexports => exact .kept rfl rfl rfl
  | performShutdown =>
    unfold State.afterCleanup State.performShutdownRest
    exact (destroyContext_exports _ _).congr rfl rfl rfl

/-- `cleanupRpcExports`, called when no other call is in progress. -/
theorem cleanupRpcExports_exports (hstack : s.stack = []) (next : AfterCleanup) :
    ExportsClosed s (s.cleanupRpcExports next) := by
  obtain ⟨dropped, heq⟩ := s.exports.cancelRpcExportsSources_eq
  unfold State.cleanupRpcExports
  rw [heq]
  dsimp only
  split
  · rename_i n hn
    refine .closed n hn rfl rfl (rpcCalls_of_nil hstack) ?_
    simp [State.rpcCalls, hstack, Frame.rpcCall]
  · exact (afterCleanup_exports _ _).congr rfl rfl rfl

theorem performShutdown_exports (hstack : s.stack = []) : ExportsClosed s s.performShutdown := by
  unfold State.performShutdown
  split
  · exact .kept rfl rfl rfl
  · refine (cleanupRpcExports_exports ?_ _).congr rfl rfl rfl
    exact hstack

/-! ## Queue blocks -/

theorem scanForTimeouts_exports (hstack : s.stack = []) : ExportsClosed s s.scanForTimeouts := by
  have hscan := State.foldl_expire_outskirts (s.activeContinuations.filter s.expired) s
  have hkept : ExportsClosed s ((s.activeContinuations.filter s.expired).foldl State.expire s) :=
    .of_outskirts hscan
  unfold State.scanForTimeouts
  split
  · exact .kept rfl rfl rfl
  · dsimp only
    split
    · split
      · refine (cleanupRpcExports_exports ?_ _).congr ?_ ?_ ?_
        · rw [State.foldl_expire_stack, hstack]
        · exact congrArg (fun o => o.exports.rpcExportsCtx) hscan
        · exact congrArg Outskirts.nextRpc hscan
        · exact congrArg Outskirts.rpcCalls hscan
      · exact hkept
    · exact hkept

theorem getexports_exports (hstack : s.stack = []) (available : Bool) :
    ExportsStep s (s.getexports available) := by
  unfold State.getexports
  extract_lets caller s' n cb t u
  split
  · exact .kept rfl rfl rfl
  · split
    · exact .kept rfl rfl rfl
    · rename_i hnone
      split
      · exact .kept rfl rfl rfl
      · refine .opened ?_ rfl rfl (rpcCalls_of_nil hstack) ?_
        · exact Option.not_isSome_iff_eq_none.mp hnone
        · show (Frame.handOver (.getexports n) cb [] :: s.stack).filterMap Frame.rpcCall = _
          rw [hstack]
          rfl

theorem handleRpcExportsEvent_exports (hstack : s.stack = []) :
    ExportsStep s s.handleRpcExportsEvent := by
  unfold State.handleRpcExportsEvent
  split
  · exact .kept rfl rfl rfl
  · rename_i n hn
    refine .entered n hn hn rfl (rpcCalls_of_nil hstack) ?_
    simp [State.rpcCalls, hstack, Frame.rpcCall]

theorem runBlock_exports {b : Block} (hstack : s.stack = []) (h : s.runBlock b = some t) :
    ExportsStep s t := by
  cases hb : b.isPlain with
  | true => exact (ExportsClosed.of_outskirts (State.runBlock_outskirts hb h)).step
  | false =>
    cases b with
    | getexports available => exact Option.some.inj h ▸ getexports_exports hstack available
    | scanForTimeouts => exact Option.some.inj h ▸ (scanForTimeouts_exports hstack).step
    | handleRpcExportsEvent => exact Option.some.inj h ▸ handleRpcExportsEvent_exports hstack
    | shutdown => exact Option.some.inj h ▸ (performShutdown_exports hstack).step
    | configure x =>
      simp only [State.runBlock] at h
      split at h
      · rename_i u hu
        obtain rfl := Option.some.inj h
        unfold State.configure at hu
        split at hu
        · cases hu
        · split at hu
          · split at hu
            · cases hu
              exact .kept rfl rfl rfl
            · cases hu
          · cases hu
            exact .kept rfl rfl rfl
      · exact Option.some.inj h ▸ .kept rfl rfl rfl
    | setLogHandler handler =>
      refine Option.some.inj h ▸ ?_
      unfold State.setLogHandler
      split <;> exact .kept rfl rfl rfl
    | _ => cases hb

/-! ## Returns from libnfs -/

theorem setView_exports (s : State) (ctx : Ctx) (view : LibView) :
    (s.setView ctx view).exports = s.exports ∧ (s.setView ctx view).nextRpc = s.nextRpc := by
  cases ctx <;> exact ⟨rfl, rfl⟩

theorem updateWriteSource_exports (h : ExportsClosed s t) : ExportsClosed s t.updateWriteSource := by
  unfold State.updateWriteSource
  cases t.context with
  | none => exact h
  | some c => exact h.trans_same rfl rfl rfl

/-- A refused operation: only `getexports` destroys its context. -/
theorem rejected_exports (s : State) {site : Site} (cb : CallbackData) (rc : Int)
    (hstack : (∃ n, site = .getexports n) → s.stack = []) :
    ExportsClosed s (s.rejected site cb rc) := by
  unfold State.rejected
  cases site with
  | issueOperation => exact .of_outskirts (State.resume_outskirts _ _ _)
  | handleOperation =>
    dsimp only
    rw [State.runCleanup_eq]
    dsimp only [State.resumeContinuation, State.removeActive, State.release, State.setFate]
    exact .kept rfl rfl rfl
  | mount =>
    dsimp only [State.resumeContinuation, State.removeActive, State.release, State.setFate]
    exact .kept rfl rfl rfl
  | getexports n =>
    refine (cleanupRpcExports_exports ?_ _).congr rfl rfl rfl
    exact hstack ⟨n, rfl⟩
  | pending i op =>
    refine .trans_outskirts (updateWriteSource_exports ?_) (State.drainFrom_outskirts _ _)
    refine .trans_outskirts ?_ (State.resume_outskirts _ _ _)
    dsimp only [State.removeActive, State.release, State.setFate, State.addInFlight]
    exact .kept rfl rfl rfl

theorem setupRpcExportsSources_ctx (x : RpcExports) (fd : Int) :
    (x.setupRpcExportsSources fd).rpcExportsCtx = x.rpcExportsCtx := by
  obtain ⟨dropped, heq⟩ := x.cancelRpcExportsSources_eq
  unfold RpcExports.setupRpcExportsSources
  rw [heq]
  rfl

theorem updateRpcExportsWriteSource_ctx (x : RpcExports) (pollout : Bool) :
    (x.updateRpcExportsWriteSource pollout).rpcExportsCtx = x.rpcExportsCtx := by
  unfold RpcExports.updateRpcExportsWriteSource
  split
  · split
    · split <;> rfl
    · split <;> rfl
  · rfl

theorem accepted_exports (s : State) (site : Site) (cb : CallbackData) :
    ExportsClosed s (s.accepted site cb) := by
  unfold State.accepted
  cases site with
  | issueOperation | handleOperation => exact updateWriteSource_exports (.kept rfl rfl rfl)
  | mount =>
    dsimp only
    split
    · exact updateWriteSource_exports (.kept rfl rfl rfl)
    · exact .kept rfl rfl rfl
  | getexports n =>
    dsimp only
    split
    · exact .kept (setupRpcExportsSources_ctx _ _) rfl rfl
    · exact .kept rfl rfl rfl
  | pending i op =>
    exact .trans_outskirts (updateWriteSource_exports (.kept rfl rfl rfl))
      (State.drainFrom_outskirts _ _)

theorem serviced_exports (s : State) (rc : Int) : ExportsClosed s (s.serviced rc) := by
  unfold State.serviced
  split
  · exact (destroyContext_exports _ _).congr rfl rfl rfl
  · extract_lets t
    have ht : ExportsClosed s t := by
      simp only [t]
      split <;> exact .kept rfl rfl rfl
    exact (updateWriteSource_exports ht).trans_outskirts (State.issuePendingOperations_outskirts _)

theorem rpcServiced_exports (hstack : s.stack = []) (rc : Int) :
    ExportsClosed s (s.rpcServiced rc) := by
  unfold State.rpcServiced
  split
  · exact cleanupRpcExports_exports hstack _
  · split
    · exact cleanupRpcExports_exports hstack _
    · refine .kept ((updateRpcExportsWriteSource_ctx _ _).trans ?_) rfl rfl
      split
      · exact setupRpcExportsSources_ctx _ _
      · rfl

/-- The calls on export contexts, with the innermost call set apart. -/
theorem rpcCalls_cons {f : Frame} {rest : List Frame} (hstack : s.stack = f :: rest) :
    s.rpcCalls = f.rpcCall.toList ++ rest.filterMap Frame.rpcCall := by
  unfold State.rpcCalls
  rw [hstack]
  cases hf : f.rpcCall with
  | none =>
    rw [List.filterMap_cons_none hf]
    rfl
  | some c =>
    rw [List.filterMap_cons_some hf]
    rfl

/-- The innermost call is over, and it was not made on an export context. -/
theorem ExportsClosed.of_leave {f : Frame} {rest : List Frame} (h : ExportsClosed u t)
    (hstack : s.stack = f :: rest) (hf : f.rpcCall = none) (hu : u.stack = rest)
    (hctx : u.exports.rpcExportsCtx = s.exports.rpcExportsCtx) (hnext : u.nextRpc = s.nextRpc) :
    ExportsStep s t := by
  refine (h.congr hctx hnext ?_).step
  rw [rpcCalls_cons hstack, hf, State.rpcCalls, hu]
  rfl

/-- The only call is over, and it was made on an export context. -/
theorem ExportsClosed.of_leaveRpc {f : Frame} {c : Nat × Bool} (h : ExportsClosed u t)
    (hstack : s.stack = [f]) (hf : f.rpcCall = some c) (hu : u.stack = [])
    (hctx : u.exports.rpcExportsCtx = s.exports.rpcExportsCtx) (hnext : u.nextRpc = s.nextRpc)
    (hdrop : c.2 → ∀ r ∈ t.outstanding, r.ctx ≠ .rpc c.1) : ExportsStep s t := by
  refine h.pop hctx hnext (rpcCalls_of_nil hu) ?_ hdrop
  rw [rpcCalls_cons hstack, hf]
  rfl

/-- The call that hands an operation over is over. -/
theorem ExportsClosed.of_leaveHandOver {site : Site} {cb : CallbackData} {ran : List Nat}
    {rest : List Frame} (h : ExportsClosed u t) (hstack : s.stack = .handOver site cb ran :: rest)
    (hnested : NestedAbove (.handOver site cb ran :: rest)) (hu : u.stack = rest)
    (hctx : u.exports.rpcExportsCtx = s.exports.rpcExportsCtx) (hnext : u.nextRpc = s.nextRpc) :
    ExportsStep s t := by
  cases site with
  | getexports n =>
    obtain rfl := hnested.rest_eq_nil rfl
    exact h.of_leaveRpc hstack rfl hu hctx hnext (by simp)
  | _ => exact h.of_leave hstack rfl hu hctx hnext

/-- After `rpc_destroy_context` has returned, no request is left on the context. -/
theorem afterCleanup_outstanding (s : State) (next : AfterCleanup) :
    ∀ r ∈ (s.afterCleanup next).outstanding, r ∈ s.outstanding := by
  cases next with
  | done | getexports => exact fun _ h => h
  | performShutdown =>
    unfold State.afterCleanup State.performShutdownRest State.destroyContext
    dsimp only
    split
    · exact fun _ h => h
    · obtain ⟨bulk, metadata, counts, heq⟩ := State.endTeardown_eq { s with
          exports := { s.exports with rpcExportsDone := false, rpcExportsContID := none }
          sources := s.sources.cancelTimeoutTimer
          logHandler := false
          activeContinuations := []
          pendingOperations := []
          handleRegistry := [] } .performShutdown s.activeContinuations
      rw [heq, State.foldl_resume_eq]
      exact fun _ h => h

theorem returnFromCall_exports {rc : Int} {view : LibView} (hnested : NestedAbove s.stack)
    (h : s.returnFromCall rc view = some t) : ExportsStep s t := by
  unfold State.returnFromCall at h
  split at h
  · cases h
  · cases h
  · rename_i site cb ran rest hstack
    rw [hstack] at hnested
    have hrest (n : Nat) (hsite : site = .getexports n) : rest = [] :=
      hnested.rest_eq_nil (by rw [hsite]; rfl)
    have hview (u : State) (hu : u.exports = s.exports ∧ u.nextRpc = s.nextRpc)
        (hstack' : u.stack = rest) (h : ExportsClosed u t) : ExportsStep s t :=
      h.of_leaveHandOver hstack hnested hstack' (congrArg RpcExports.rpcExportsCtx hu.1) hu.2
    have hleft := setView_exports ({ s with stack := rest } : State) site.ctx view
    dsimp only at h
    split at h
    · split at h
      · cases h
      · obtain rfl := Option.some.inj h
        refine hview _ hleft ?_ (rejected_exports _ cb rc ?_)
        · simp
        · rintro ⟨n, rfl⟩
          simpa using hrest n rfl
    · obtain rfl := Option.some.inj h
      refine hview _ ?_ ?_ (accepted_exports _ site cb)
      · rw [State.enqueueRequest_eq]
        exact hleft
      · rw [State.enqueueRequest_eq]
        simp
  · rename_i rest hstack
    obtain rfl := Option.some.inj h
    exact (serviced_exports _ rc).of_leave hstack rfl rfl rfl rfl
  · rename_i n rest hstack
    rw [hstack] at hnested
    obtain rfl := hnested.rest_eq_nil rfl
    obtain rfl := Option.some.inj h
    exact (rpcServiced_exports rfl rc).of_leaveRpc hstack rfl rfl rfl rfl (by simp)
  · rename_i fh rest hstack
    obtain rfl := Option.some.inj h
    refine ExportsClosed.of_leave (u := ({ s with stack := rest } : State)) ?_ hstack rfl rfl rfl rfl
    exact .kept rfl rfl rfl
  · rename_i n next rest hstack
    rw [hstack] at hnested
    obtain rfl := hnested.rest_eq_nil rfl
    obtain rfl := Option.some.inj h
    refine (afterCleanup_exports _ next).of_leaveRpc hstack rfl rfl rfl rfl fun _ r hr => ?_
    have hmem := afterCleanup_outstanding _ next r hr
    simpa using (List.mem_filter.mp hmem).2
  · rename_i kind conts rest hstack
    obtain rfl := Option.some.inj h
    refine ExportsClosed.of_leave (u := ({ s with stack := rest } : State)) ?_ hstack rfl rfl rfl rfl
    exact .trans_outskirts (.kept rfl rfl rfl) (State.endTeardown_outskirts _ _ _)

/-- What every step does to the export contexts. -/
theorem step_exports (hnested : NestedAbove s.stack) (h : step s e = some t) :
    ExportsStep s t := by
  cases e with
  | block b =>
    simp only [step] at h
    split at h
    · rename_i hidle
      simp only [Bool.and_eq_true, List.isEmpty_iff] at hidle
      exact runBlock_exports hidle.1 h
    · cases h
  | callback id status data =>
    exact (ExportsClosed.of_outskirts (State.fireCallback_outskirts h)).step
  | ret rc view => exact returnFromCall_exports hnested h
  | tick d => exact Option.some.inj h ▸ .kept rfl rfl rfl
  | releaseBuffer b =>
    simp only [step] at h
    split at h
    · exact Option.some.inj h ▸ .kept rfl rfl rfl
    · cases h
  | deinit q =>
    simp only [step] at h
    split at h
    · rename_i hidle
      simp only [Bool.and_eq_true, List.isEmpty_iff] at hidle
      obtain rfl := Option.some.inj h
      have hclosed : ExportsClosed { s with alive := false, onQueue := q } _ :=
        performShutdown_exports hidle.1.1
      exact (hclosed.congr (u := s) rfl rfl rfl).step
    · cases h

/-! ## The invariant -/

/-- Where the export contexts are: the one of the moment in `rpcExportsCtx`, and at most one more that
is being destroyed. -/
structure ExportContexts (s : State) : Prop where
  current : ∀ n, (n, false) ∈ s.rpcCalls → s.exports.rpcExportsCtx = some n
  destroying : ∀ n, (n, true) ∈ s.rpcCalls → s.exports.rpcExportsCtx = none ∧ n < s.nextRpc
  made : ∀ n, s.exports.rpcExportsCtx = some n → n < s.nextRpc
  requests : ∀ r ∈ s.outstanding, ∀ n, r.ctx = .rpc n →
    s.exports.rpcExportsCtx = some n ∨ (n, true) ∈ s.rpcCalls

/-- An accepted request is on the export context of the moment. -/
theorem accepted_current (hx : ExportContexts s) {site : Site} {cb : CallbackData} {ran : List Nat}
    {rest : List Frame} {n : Nat} (hstack : s.stack = .handOver site cb ran :: rest)
    (hsite : site.ctx = .rpc n) : s.exports.rpcExportsCtx = some n := by
  cases site with
  | getexports m =>
    obtain rfl : m = n := by simpa [Site.ctx] using hsite
    refine hx.current m ?_
    rw [rpcCalls_cons hstack]
    exact List.mem_cons_self ..
  | _ => cases hsite

/-- The requests that libnfs holds after a step were there before, or the step accepts them. -/
theorem step_outstanding (hw : WellFormed s) (h : step s e = some t) :
    ∀ r ∈ t.outstanding, r ∈ s.outstanding ∨ ∃ site cb ran rest,
      s.stack = .handOver site cb ran :: rest ∧ r = ⟨site.ctx, cb⟩ := by
  refine (step_path hw h).invariant (I := fun k => ∀ r ∈ k.state.outstanding, r ∈ s.outstanding ∨
    ∃ site cb ran rest, s.stack = .handOver site cb ran :: rest ∧ r = ⟨site.ctx, cb⟩)
    (fun r hr => .inl hr) ?_
  intro k a k' hk ha hact r hr
  rcases hact.effects.outstanding r hr with hr | ⟨site, cb, ran, rfl, rfl⟩
  · exact hk r hr
  · cases hact with
    | accept hstack =>
      have hcore := ha.1
      exact .inr ⟨site, cb, ran, _, by rw [← hstack, hcore], rfl⟩

theorem ExportContexts.step (hw : WellFormed s) (hx : ExportContexts s) (h : step s e = some t) :
    ExportContexts t := by
  have hrequests : ∀ r ∈ t.outstanding, ∀ n, r.ctx = .rpc n →
      s.exports.rpcExportsCtx = some n ∨ (n, true) ∈ s.rpcCalls := by
    intro r hr n hn
    rcases step_outstanding hw h r hr with hr | ⟨site, cb, ran, rest, hstack, rfl⟩
    · exact hx.requests r hr n hn
    · exact .inl (accepted_current hx hstack hn)
  cases step_exports hw.nested h with
  | kept h₁ h₂ h₃ =>
    refine ⟨?_, ?_, ?_, ?_⟩
    · rw [h₁, h₃]
      exact hx.current
    · rw [h₁, h₂, h₃]
      exact hx.destroying
    · rw [h₁, h₂]
      exact hx.made
    · rw [h₁, h₃]
      exact hrequests
  | entered n h₁ h₂ h₃ h₄ h₅ =>
    refine ⟨?_, ?_, ?_, ?_⟩
    · intro m hm
      obtain rfl : m = n := by simpa [h₅] using hm
      exact h₂
    · simp [h₅]
    · rw [h₂, h₃, ← h₁]
      exact hx.made
    · intro r hr m hm
      have hcur := hrequests r hr m hm
      rw [h₄] at hcur
      exact .inl (h₂.trans (h₁.symm.trans (hcur.resolve_right (by simp))))
  | opened h₁ h₂ h₃ h₄ h₅ =>
    refine ⟨?_, ?_, ?_, ?_⟩
    · intro m hm
      obtain rfl : m = s.nextRpc := by simpa [h₅] using hm
      exact h₂
    · simp [h₅]
    · intro m hm
      obtain rfl : s.nextRpc = m := Option.some.inj (h₂.symm.trans hm)
      omega
    · intro r hr m hm
      have hcur := hrequests r hr m hm
      rw [h₁, h₄] at hcur
      simp at hcur
  | left c h₁ h₂ h₃ h₄ h₅ =>
    refine ⟨?_, ?_, ?_, ?_⟩
    · simp [h₄]
    · simp [h₄]
    · rw [h₁, h₂]
      exact hx.made
    · intro r hr m hm
      rcases hrequests r hr m hm with hcur | hdest
      · exact .inl (h₁.trans hcur)
      · obtain rfl : (m, true) = c := by simpa [h₃] using hdest
        exact absurd hm (h₅ rfl r hr)
  | closed n h₁ h₂ h₃ h₄ h₅ =>
    refine ⟨?_, ?_, ?_, ?_⟩
    · simp [h₅]
    · intro m hm
      obtain rfl : m = n := by simpa [h₅] using hm
      exact ⟨h₂, h₃ ▸ hx.made m h₁⟩
    · simp [h₂]
    · intro r hr m hm
      rcases hrequests r hr m hm with hcur | hdest
      · obtain rfl : n = m := Option.some.inj (h₁.symm.trans hcur)
        exact .inr (by simp [h₅])
      · have hnone := (hx.destroying m hdest).1
        rw [h₁] at hnone
        cases hnone

theorem exportContexts_init (timeout : Int) : ExportContexts (State.init timeout) where
  current := by simp [State.init, State.rpcCalls]
  destroying := by simp [State.init, State.rpcCalls]
  made := by simp [State.init]
  requests := by simp [State.init]

end NFSKit
