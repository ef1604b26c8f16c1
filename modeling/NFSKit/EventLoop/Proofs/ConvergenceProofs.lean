import NFSKit.EventLoop.Proofs.TeardownProofs

/-!
# Two ways to end the loop

`shutdown()` leaves nothing behind. After `shutdownWithError` a later `shutdown()` does nothing, because
the context and the registry are gone already, so what only `performShutdown` clears stays: the
handles, the log handler, the export query, and the pipeline with what the callbacks of the destruction
recorded in it.
-/

namespace NFSKit

open Machine

variable {s t u v w : State} {e : Event} {es : List Event}

/-! ## Controllers -/

namespace PipelineController

/-- The depth in slow start is at least the initial one. -/
def Started (p : PipelineController) : Prop :=
  p.DefaultBounds ∧ (p.phase = .slowStart → 2 ≤ p.depth)

/-- The depth in slow start is above the initial one. -/
def HasMoved (p : PipelineController) : Prop := p.phase = .slowStart → 4 ≤ p.depth

theorem started_init : Started {} := by
  refine ⟨defaultBounds_init, fun _ => ?_⟩
  norm_num

/-- A completion leaves slow start, or doubles the depth. -/
theorem Started.hasMoved {p : PipelineController} (h : p.Started) (b : Bool) :
    (p.record b).HasMoved := by
  obtain ⟨⟨hmin, hmax⟩, hdepth⟩ := h
  cases b with
  | false =>
    intro hphase
    cases hphase
  | true =>
    cases hp : p.phase with
    | slowStart =>
      have hle := hdepth hp
      simp only [record, if_true, recordSuccess, hp, HasMoved, hmax]
      intro _
      refine le_min ?_ ?_
      · linarith
      · norm_num
    | steady =>
      simp only [record, if_true, recordSuccess, hp, HasMoved]
      intro hphase
      cases hphase

theorem Started.record {p : PipelineController} (h : p.Started) (b : Bool) :
    (p.record b).Started := by
  refine ⟨h.1.record b, fun hphase => ?_⟩
  have hmoved := h.hasMoved b hphase
  linarith

theorem Started.reset {p : PipelineController} (h : p.Started) : p.reset.Started := by
  refine ⟨h.1.reset, fun _ => ?_⟩
  norm_num [PipelineController.reset]

theorem DefaultBounds.reset_eq {p : PipelineController} (h : p.DefaultBounds) : p.reset = {} := by
  obtain ⟨hmin, hmax⟩ := h
  simp [PipelineController.reset, hmin, hmax]

theorem not_hasMoved_init : ¬ HasMoved {} := by
  intro h
  have : (4 : ℚ) ≤ 2 := h rfl
  norm_num at this

end PipelineController

theorem started_of_reachable {timeout : Int} (h : Reachable step (State.init timeout) s) :
    Controlled PipelineController.Started s :=
  controlled_of_reachable PipelineController.started_init (fun _ b hp => hp.record b)
    (fun _ hp => hp.reset) h

/-! ## While the context is being destroyed -/

/-- Without a context a completion is recorded, and nothing is drained. -/
theorem handleCallbackCompletion_noContext {cb : CallbackData} {r : Outcome} {rest : List Frame}
    {id : Nat} {c : OperationCategory} {ok : Bool} (hctx : s.context = none)
    (hstack : s.stack = .completionHook cb r :: rest) (ht : t = s.handleCallbackCompletion id c ok) :
    t.stack = rest ∧ t.context = none ∧ t.alive = s.alive ∧ t.handleRegistry = s.handleRegistry ∧
      ∀ d, t.controller d = if c = d then (s.controller d).record ok else s.controller d := by
  unfold State.handleCallbackCompletion State.issuePendingOperations at ht
  rw [State.recordCompletion_eq] at ht
  dsimp only [State.removeActive] at ht
  rw [hctx] at ht
  dsimp only [State.finishHook] at ht
  rw [hstack] at ht
  dsimp only at ht
  rw [State.resume_eq] at ht
  subst ht
  refine ⟨rfl, rfl, rfl, rfl, fun d => ?_⟩
  cases c <;> cases d <;> simp [Core.controller]

/-- A callback inside `nfs_destroy_context` completes its operation and does nothing else. -/
theorem fireCallback_destroying {kind : Teardown} {conts : List CallbackData} {id : Nat} {status : Int}
    {data : Option Value} (hstack : s.stack = [.destroy kind conts]) (hctx : s.context = none)
    (halive : s.alive) (h : s.fireCallback id status data = some t) :
    t.stack = s.stack ∧ t.context = none ∧ t.alive ∧ t.handleRegistry = s.handleRegistry ∧
      ∃ c ok, ∀ d, t.controller d = if c = d then (s.controller d).record ok else s.controller d := by
  simp only [State.fireCallback, hstack, Option.bind_eq_some_iff, Option.map_eq_some_iff] at h
  obtain ⟨⟨cb, s₁⟩, htake, s₂, hnote, ht⟩ := h
  obtain ⟨out, fhs, dirs, b, r, -, heq⟩ := State.callback_eq htake hnote
  rw [State.runCallback_eq] at ht
  generalize s₂.replySucceeds cb status data = ok at ht
  generalize s₂.enterHook cb status data = u at heq ht
  have hhook : u.stack = [.completionHook cb r, .destroy kind conts] := by
    rw [heq]
    rfl
  have hctx' : u.context = none := by
    rw [heq]
    exact hctx
  have halive' : u.alive = s.alive := by rw [heq]
  have hregistry : u.handleRegistry = s.handleRegistry := by rw [heq]
  have hcontroller (d : OperationCategory) : u.controller d = s.controller d := by
    rw [heq]
    rfl
  simp only [← hcontroller, ← hregistry, hstack]
  unfold State.completionHook at ht
  rw [if_pos (halive'.trans halive)] at ht
  rw [← halive, ← halive']
  split at ht
  · obtain ⟨h₁, h₂, h₃, h₄, h₅⟩ := handleCallbackCompletion_noContext
      (s := { u with exports := { u.exports with rpcExportsDone := true } }) hctx' hhook ht.symm
    exact ⟨h₁, h₂, h₃, h₄, _, _, h₅⟩
  · obtain ⟨h₁, h₂, h₃, h₄, h₅⟩ := handleCallbackCompletion_noContext hctx' hhook ht.symm
    exact ⟨h₁, h₂, h₃, h₄, _, _, h₅⟩

/-- A controller has recorded a completion since it was made or reset. -/
def State.HasMoved (s : State) : Prop := ∃ c, (s.controller c).HasMoved

/-- A completion is visible in the controller of its category ever after. -/
theorem hasMoved_of_record (hstarted : Controlled PipelineController.Started s)
    {c : OperationCategory} {ok : Bool}
    (ht : ∀ d, t.controller d = if c = d then (s.controller d).record ok else s.controller d) :
    t.HasMoved := by
  refine ⟨c, ?_⟩
  rw [ht c, if_pos rfl]
  exact (hstarted c).hasMoved ok

/-- The counts and the controllers of `t` are those of `s`. -/
def State.SamePipeline (s t : State) : Prop :=
  t.inFlightCount = s.inFlightCount ∧ ∀ c, t.controller c = s.controller c

/-- `v` comes after the context has been given up in the state `u`, and no other queue block has
started. -/
structure Dismantled (kind : Teardown) (u v : State) : Prop where
  context : v.context = none
  alive : v.alive
  stack : (∃ conts, v.stack = [.destroy kind conts]) ∨ v.stack = []
  handleRegistry : v.handleRegistry = u.handleRegistry
  outskirts : v.outskirts = u.outskirts
  reset : kind = .performShutdown → v.stack = [] →
    (∀ c, v.inFlightCount c = 0) ∧ v.bulkController = {} ∧ v.metadataController = {}

/-- One event of the destruction; `shutdownWithError` keeps what its callbacks record. -/
theorem Dismantled.next {kind : Teardown} (hd : Dismantled kind u v)
    (hstarted : Controlled PipelineController.Started v) (he : e.starts = false)
    (h : step v e = some w) :
    Dismantled kind u w ∧ (kind = .shutdownWithError →
      (e.callsBack → w.HasMoved) ∧ (e.callsBack = false → v.SamePipeline w)) := by
  cases e with
  | block | deinit => cases he
  | callback id status data =>
    have hfire : v.fireCallback id status data = some w := h
    rcases hd.stack with ⟨conts, hstack⟩ | hstack
    · obtain ⟨hstack', hctx, halive, hregistry, c, ok, hcontroller⟩ :=
        fireCallback_destroying hstack hd.context hd.alive hfire
      have hstack' := hstack'.trans hstack
      refine ⟨⟨hctx, halive, .inl ⟨conts, hstack'⟩, hregistry.trans hd.handleRegistry,
        (State.fireCallback_outskirts hfire).trans hd.outskirts, fun _ hnil => ?_⟩,
        fun _ => ⟨fun _ => ?_, fun h => ?_⟩⟩
      · rw [hstack'] at hnil
        cases hnil
      · exact hasMoved_of_record hstarted hcontroller
      · cases h
    · simp only [State.fireCallback, hstack] at hfire
      cases hfire
  | ret rc view =>
    simp only [NFSKit.step, State.returnFromCall] at h
    rcases hd.stack with ⟨conts, hstack⟩ | hstack
    · simp only [hstack, Option.some.injEq] at h
      have houtskirts := State.endTeardown_outskirts
        ({ v with stack := [] }.dropRequests .nfs) kind conts
      have hleft : ({ v with stack := [] }.dropRequests .nfs : State).outskirts = v.outskirts := by
        simp [State.outskirts, State.dropRequests, hstack, Frame.rpcCall]
      rw [h] at houtskirts
      unfold State.endTeardown at h
      rw [State.foldl_resume_eq] at h
      cases kind with
      | performShutdown =>
        subst h
        refine ⟨⟨hd.context, hd.alive, .inr rfl, hd.handleRegistry,
          houtskirts.trans (hleft.trans hd.outskirts), fun _ _ => ⟨fun _ => rfl, ?_, ?_⟩⟩, ?_⟩
        · exact PipelineController.DefaultBounds.reset_eq (hstarted .bulk).1
        · exact PipelineController.DefaultBounds.reset_eq (hstarted .metadata).1
        · intro h
          cases h
      | shutdownWithError =>
        subst h
        refine ⟨⟨hd.context, hd.alive, .inr rfl, hd.handleRegistry,
          houtskirts.trans (hleft.trans hd.outskirts), fun h => by cases h⟩,
          fun _ => ⟨(fun h => by cases h), fun _ => ⟨rfl, fun c => rfl⟩⟩⟩
    · simp only [hstack] at h
      cases h
  | tick d =>
    obtain rfl := Option.some.inj h
    exact ⟨⟨hd.context, hd.alive, hd.stack, hd.handleRegistry, hd.outskirts, hd.reset⟩,
      fun _ => ⟨(fun h => by cases h), fun _ => ⟨rfl, fun c => rfl⟩⟩⟩
  | releaseBuffer b =>
    simp only [NFSKit.step] at h
    split at h
    · obtain rfl := Option.some.inj h
      exact ⟨⟨hd.context, hd.alive, hd.stack, hd.handleRegistry, hd.outskirts, hd.reset⟩,
        fun _ => ⟨(fun h => by cases h), fun _ => ⟨rfl, fun c => rfl⟩⟩⟩
    · cases h

/-- The whole destruction: a callback is recorded for good, and without one the pipeline is kept. -/
theorem Dismantled.keeps {timeout : Int} {kind : Teardown} (hr : Reachable step (State.init timeout) v)
    (hd : Dismantled kind u v) (hes : ∀ e ∈ es, e.starts = false) (h : run step v es = some w) :
    Dismantled kind u w ∧ (kind = .shutdownWithError →
      ((v.HasMoved ∨ ∃ e ∈ es, e.callsBack) → w.HasMoved) ∧
        ((∀ e ∈ es, e.callsBack = false) → v.SamePipeline w)) := by
  induction es generalizing v with
  | nil =>
    obtain rfl : v = w := by simpa [run] using h
    refine ⟨hd, fun _ => ⟨fun hmoved => ?_, fun _ => ⟨rfl, fun _ => rfl⟩⟩⟩
    rcases hmoved with hmoved | ⟨e, he, -⟩
    · exact hmoved
    · cases he
  | cons e es ih =>
    simp only [run, Option.bind_eq_some_iff] at h
    obtain ⟨x, hx, h⟩ := h
    obtain ⟨he, hes⟩ := List.forall_mem_cons.mp hes
    obtain ⟨hd', hstep⟩ := hd.next (started_of_reachable hr) he hx
    obtain ⟨hdw, hrest⟩ := ih (hr.tail trivial hx) hd' hes h
    refine ⟨hdw, fun hkind => ?_⟩
    obtain ⟨hcalls, hquiet⟩ := hstep hkind
    obtain ⟨hmoves, hsame⟩ := hrest hkind
    constructor
    · intro hmoved
      cases hc : e.callsBack with
      | true => exact hmoves (.inl (hcalls hc))
      | false =>
        refine hmoves ?_
        rcases hmoved with ⟨c, hmoved⟩ | ⟨x, hmem, hcallback⟩
        · exact .inl ⟨c, (hquiet hc).2 c ▸ hmoved⟩
        · rcases List.mem_cons.mp hmem with rfl | hmem
          · rw [hc] at hcallback
            cases hcallback
          · exact .inr ⟨x, hmem, hcallback⟩
    · intro hnone
      obtain ⟨hc, hnone⟩ := List.forall_mem_cons.mp hnone
      obtain ⟨hcount, hcontroller⟩ := hquiet hc
      obtain ⟨hcount', hcontroller'⟩ := hsame hnone
      exact ⟨hcount'.trans hcount, fun c => (hcontroller' c).trans (hcontroller c)⟩

/-! ## After an error -/

/-- `performShutdown` of a loop that is down. -/
theorem performShutdown_down (hctx : s.context = none) (hactive : s.activeContinuations = []) :
    s.performShutdown = { s with teardowns := s.teardowns + 1 } := by
  simp [State.performShutdown, hctx, hactive]

/-- `shutdownWithError` from the state in which `nfs_service` has failed. -/
theorem step_failed {rc : Int} {view : LibView} (hstack : s.stack = [.service]) (hrc : rc < 0)
    (hctx : s.context.isSome) (halive : s.alive) (h : step s (.ret rc view) = some u) :
    Dismantled .shutdownWithError u u ∧ u.handleRegistry = s.handleRegistry ∧
      u.logHandler = s.logHandler ∧ u.exports = s.exports ∧ s.SamePipeline u ∧
      u.sources.Off ∧ u.sources.timeoutTimer = false := by
  obtain ⟨ctx, hsome⟩ := Option.isSome_iff_exists.mp hctx
  have hoff := Sources.cancelSources_off s.sources
  simp only [NFSKit.step, State.returnFromCall, hstack, State.serviced, hrc, if_true, State.setView,
    State.shutdownWithError, State.destroyContext, hsome, Option.some.injEq] at h
  subst h
  refine ⟨⟨rfl, halive, .inl ⟨_, rfl⟩, rfl, rfl, fun h => by cases h⟩, rfl, rfl, rfl,
    ⟨rfl, fun c => ?_⟩, hoff, rfl⟩
  cases c <;> rfl

theorem step_shutdown {b : Block} (h : step s (.block b) = some t) (hb : b = .shutdown) :
    s.stack = [] ∧ s.alive ∧ t = s.performShutdown := by
  subst hb
  simp only [NFSKit.step] at h
  split at h
  · rename_i hidle
    simp only [Bool.and_eq_true, List.isEmpty_iff] at hidle
    exact ⟨hidle.1, hidle.2, (Option.some.inj h).symm⟩
  · cases h

/-- A call of libnfs is made by a loop that is alive. -/
theorem alive_of_service {timeout : Int} (hr : Reachable step (State.init timeout) s)
    (hmem : .service ∈ s.stack) : s.alive ∧ s.context.isSome := by
  have hctx := callsAlive_of_reachable hr .service hmem rfl
  refine ⟨?_, hctx⟩
  cases halive : s.alive with
  | true => rfl
  | false =>
    have hwork := (quiet_of_reachable hr halive hctx).2 .service hmem
    cases hwork

/-- After `shutdownWithError` a shutdown reaches the terminal state exactly if there was nothing for it
to forget: the loop was unused, and no callback ran while the context was being destroyed. -/
theorem terminal_after_error {timeout : Int} (hr : Reachable step (State.init timeout) s)
    {rc : Int} {view : LibView} (hhead : s.stack.head? = some .service) (hrc : rc < 0)
    (hes : ∀ e ∈ es, e.starts = false)
    (h : run step s (.ret rc view :: es ++ [.block .shutdown]) = some t) :
    (t.Terminal ↔ s.Unused ∧ ∀ e ∈ es, e.callsBack = false) ∧ t.context = none ∧
      t.activeContinuations = [] := by
  obtain ⟨rest, hstack⟩ : ∃ rest, s.stack = .service :: rest := List.head?_eq_some_iff.mp hhead
  obtain rfl : rest = [] := (hstack ▸ (sound_of_reachable hr).wellFormed.nested).rest_eq_nil rfl
  obtain ⟨halive, hctx⟩ := alive_of_service hr (hstack ▸ List.mem_cons_self ..)
  simp only [List.cons_append, run, Option.bind_eq_some_iff, run_append] at h
  obtain ⟨u, hu, w, hw, x, hx, hxt⟩ := h
  obtain rfl := Option.some.inj hxt
  obtain ⟨hd, hregistry, hlog, hexports, hpipe, hoff, htimer⟩ := step_failed hstack hrc hctx halive hu
  have hru : Reachable step (State.init timeout) u := hr.tail trivial hu
  obtain ⟨hdw, hpipeline⟩ := hd.keeps hru hes hw
  obtain ⟨hmoved, hsame⟩ := hpipeline rfl
  have hrw : Reachable step (State.init timeout) w := hru.trans (reachable_of_run hw)
  obtain ⟨hactive, hpending⟩ := (sound_of_reachable hrw).wellFormed.retired hdw.context
  obtain ⟨-, -, rfl⟩ := step_shutdown hx rfl
  rw [performShutdown_down hdw.context hactive]
  refine ⟨?_, hdw.context, hactive⟩
  have hregistry' : w.handleRegistry = s.handleRegistry := hdw.handleRegistry.trans hregistry
  have hlog' : w.logHandler = s.logHandler :=
    (congrArg Outskirts.logHandler hdw.outskirts).trans hlog
  have hexports' : { w.exports with rpcExportsDone := false } =
      { s.exports with rpcExportsDone := false } := by
    rw [← hexports]
    exact congrArg Outskirts.exports hdw.outskirts
  have hsources : w.sources = u.sources := congrArg Outskirts.sources hdw.outskirts
  have hquery : w.exports.rpcExportsCtx = s.exports.rpcExportsCtx ∧
      (w.exports.Off ↔ s.exports.Off) ∧ w.exports.rpcExportsContID = s.exports.rpcExportsContID := by
    have hctx' := congrArg RpcExports.rpcExportsCtx hexports'
    have hid := congrArg RpcExports.rpcExportsContID hexports'
    have hread := congrArg RpcExports.rpcExportsReadSource hexports'
    have hwrite := congrArg RpcExports.rpcExportsWriteSource hexports'
    dsimp only at hctx' hid hread hwrite
    refine ⟨hctx', ?_, hid⟩
    unfold RpcExports.Off
    rw [hread, hwrite]
  obtain ⟨hqctx, hqoff, hqid⟩ := hquery
  constructor
  · intro ht
    have hquiet : ∀ e ∈ es, e.callsBack = false := by
      intro e he
      by_contra hcalls
      obtain ⟨c, hc⟩ := hmoved (.inr ⟨e, he, by simpa using hcalls⟩)
      cases c with
      | bulk => exact PipelineController.not_hasMoved_init (ht.controllers.1 ▸ hc)
      | metadata => exact PipelineController.not_hasMoved_init (ht.controllers.2 ▸ hc)
    obtain ⟨hcount, hcontroller⟩ := hsame hquiet
    refine ⟨⟨hregistry'.symm.trans ht.handleRegistry, hlog'.symm.trans ht.logHandler,
      ⟨hqctx.symm.trans ht.exports.1, hqoff.mp ht.exports.2.1, hqid.symm.trans ht.exports.2.2⟩,
      fun c => ?_, ?_, ?_⟩, hquiet⟩
    · rw [← hpipe.1, ← hcount]
      exact ht.inFlightCount c
    · exact ((hcontroller .bulk).trans (hpipe.2 .bulk)).symm.trans ht.controllers.1
    · exact ((hcontroller .metadata).trans (hpipe.2 .metadata)).symm.trans ht.controllers.2
  · rintro ⟨hs, hquiet⟩
    obtain ⟨hcount, hcontroller⟩ := hsame hquiet
    refine ⟨⟨hregistry'.trans hs.handleRegistry, hlog'.trans hs.logHandler,
      ⟨hqctx.trans hs.exports.1, hqoff.mpr hs.exports.2.1, hqid.trans hs.exports.2.2⟩,
      fun c => ?_, ?_, ?_⟩, hdw.context, hactive, hpending, ?_, ?_⟩
    · show w.inFlightCount c = 0
      rw [hcount, hpipe.1]
      exact hs.inFlightCount c
    · exact ((hcontroller .bulk).trans (hpipe.2 .bulk)).trans hs.controllers.1
    · exact ((hcontroller .metadata).trans (hpipe.2 .metadata)).trans hs.controllers.2
    · show w.sources.Off
      rw [hsources]
      exact hoff
    · show w.sources.timeoutTimer = false
      rw [hsources]
      exact htimer

/-! ## Shutting down -/

/-- What `performShutdown` has cleared when it gives up the context. -/
structure Cleared (s : State) : Prop where
  handleRegistry : s.handleRegistry = []
  logHandler : s.logHandler = false
  exports : s.exports.rpcExportsCtx = none ∧ s.exports.Off ∧ s.exports.rpcExportsContID = none
  sources : s.sources.Off
  timeoutTimer : s.sources.timeoutTimer = false

/-- How far `performShutdown` has come: the export context is being destroyed, or the `nfs_context`
is gone. -/
inductive ShuttingDown (v : State) : Prop where
  | cleaning (n : Nat) (hmem : .rpcDestroy n .performShutdown ∈ v.stack) (hctx : v.context.isSome)
      (halive : v.alive) (hsources : v.sources.Off) (hquery : v.exports.rpcExportsCtx = none)
      (hoff : v.exports.Off) : ShuttingDown v
  | destroying (u : State) (hd : Dismantled .performShutdown u v) (hcleared : Cleared u) :
      ShuttingDown v

theorem performShutdownRest_shuttingDown (hctx : s.context.isSome) (halive : s.alive)
    (hstack : s.stack = []) (hsources : s.sources.Off) (hquery : s.exports.rpcExportsCtx = none)
    (hoff : s.exports.Off) (hid : s.exports.rpcExportsContID = none) :
    ShuttingDown s.performShutdownRest := by
  obtain ⟨ctx, hsome⟩ := Option.isSome_iff_exists.mp hctx
  refine .destroying s.performShutdownRest ?_ ?_
  · simp only [State.performShutdownRest, State.destroyContext, hsome, hstack]
    exact ⟨rfl, halive, .inl ⟨_, rfl⟩, rfl, rfl, fun _ h => by cases h⟩
  · simp only [State.performShutdownRest, State.destroyContext, hsome]
    exact ⟨rfl, rfl, ⟨hquery, hoff, hid⟩, hsources, rfl⟩

theorem performShutdown_shuttingDown (hctx : s.context.isSome) (halive : s.alive)
    (hstack : s.stack = []) : ShuttingDown s.performShutdown := by
  obtain ⟨dropped, heq⟩ := s.exports.cancelRpcExportsSources_eq
  unfold State.performShutdown State.cleanupRpcExports
  rw [if_neg (by simp [Option.isSome_iff_ne_none.mp hctx])]
  dsimp only
  rw [heq]
  dsimp only
  split
  · rename_i n hn
    exact .cleaning n (List.mem_cons_self ..) hctx halive (Sources.cancelSources_off _) rfl ⟨rfl, rfl⟩
  · rename_i hnone
    unfold State.afterCleanup
    exact performShutdownRest_shuttingDown hctx halive hstack (Sources.cancelSources_off _) hnone
      ⟨rfl, rfl⟩ rfl

/-- A call above the destruction of the export context is made by a drain. -/
theorem returned_pending {i : Nat} {op : PendingOperation} {cb : CallbackData} {ran : List Nat}
    {rest : List Frame} {rc : Int} {view : LibView}
    (hstack : s.stack = .handOver (.pending i op) cb ran :: rest)
    (h : s.returnFromCall rc view = some t) :
    { t.exports with rpcExportsDone := false } = { s.exports with rpcExportsDone := false } := by
  have hupdate (u : State) : u.updateWriteSource.exports = u.exports := by
    unfold State.updateWriteSource
    split <;> rfl
  have hdrain (u : State) : { (u.drainFrom i).exports with rpcExportsDone := false } =
      { u.exports with rpcExportsDone := false } :=
    congrArg Outskirts.exports (u.drainFrom_outskirts i)
  simp only [State.returnFromCall, hstack] at h
  split at h
  · split at h
    · cases h
    · obtain rfl := Option.some.inj h
      simp only [State.rejected]
      rw [hdrain, hupdate, State.resume_eq]
      rfl
  · obtain rfl := Option.some.inj h
    simp only [State.accepted]
    rw [hdrain, hupdate, State.enqueueRequest_eq]
    rfl

/-- An export query that is given up stays given up. -/
theorem query_of_eq (h : { t.exports with rpcExportsDone := false } =
      { s.exports with rpcExportsDone := false })
    (hquery : s.exports.rpcExportsCtx = none) (hoff : s.exports.Off) :
    t.exports.rpcExportsCtx = none ∧ t.exports.Off := by
  have hctx := congrArg RpcExports.rpcExportsCtx h
  have hread := congrArg RpcExports.rpcExportsReadSource h
  have hwrite := congrArg RpcExports.rpcExportsWriteSource h
  dsimp only at hctx hread hwrite
  exact ⟨hctx.trans hquery, hread.trans hoff.1, hwrite.trans hoff.2⟩

/-- Until the export context is destroyed, its callbacks and the operations they drain go on; then the
`nfs_context` is given up. -/
theorem cleaning_next {timeout : Int} (hr : Reachable step (State.init timeout) v) {n : Nat}
    (hmem : .rpcDestroy n .performShutdown ∈ v.stack) (hctx : v.context.isSome) (halive : v.alive)
    (hsources : v.sources.Off) (hquery : v.exports.rpcExportsCtx = none) (hoff : v.exports.Off)
    (he : e.starts = false) (h : step v e = some w) : ShuttingDown w := by
  have hs := sound_of_reachable hr
  have hleaving : v.IsLeaving := .inr ⟨n, hmem⟩
  have hsources' : w.sources.Off :=
    step_off (callsAlive_of_reachable hr) hsources
      (hleaving.setsUp hs.wellFormed (callsAlive_of_reachable hr)) h
  have halive' : w.alive := by
    refine (step_invariant_sound h hs (fun k => k.state.alive) halive ?_).2
    intro k a k' _ hk ha hact
    rcases hact.rarely.1 with hsame | rfl
    · exact hsame ▸ hk
    · obtain ⟨q, rfl⟩ := ha
      cases he
  have hctx' (ht : v.tearsDown e = false) : w.context.isSome := by
    by_contra hnone
    have := step_context hs h hctx (by simpa using hnone)
    rw [ht] at this
    cases this
  have hmem' (hstay : ∀ rc view rest, e = .ret rc view →
      v.stack ≠ .rpcDestroy n .performShutdown :: rest) :
      .rpcDestroy n .performShutdown ∈ w.stack := by
    refine (step_invariant_sound h hs
      (fun k => .rpcDestroy n .performShutdown ∈ k.state.stack) hmem ?_).2
    intro k a k' _ hk ha hact
    rcases hact.destroying_mem rfl hk with hkept | hleaves
    · exact hkept
    · cases a with
      | leaveRpcDestroy m next =>
        cases hleaves
        obtain ⟨hstate, rc, view, rfl⟩ := ha
        cases hact with
        | @leaveRpcDestroy s m next rest hstack =>
          obtain rfl : s = v := hstate
          exact absurd hstack (hstay rc view rest rfl)
      | leaveDestroy => cases hleaves
      | _ => exact hleaves.elim
  cases e with
  | block | deinit => cases he
  | callback id status data =>
    obtain ⟨hquery', hoff'⟩ := query_of_eq
      (congrArg Outskirts.exports (State.fireCallback_outskirts h)) hquery hoff
    exact .cleaning n (hmem' (fun _ _ _ h => by cases h)) (hctx' rfl) halive' hsources' hquery' hoff'
  | tick d =>
    obtain rfl := Option.some.inj h
    exact .cleaning n hmem hctx halive hsources hquery hoff
  | releaseBuffer b =>
    simp only [NFSKit.step] at h
    split at h
    · obtain rfl := Option.some.inj h
      exact .cleaning n hmem hctx halive hsources hquery hoff
    · cases h
  | ret rc view =>
    cases hstack : v.stack with
    | nil =>
      rw [hstack] at hmem
      cases hmem
    | cons f rest =>
      have hnested : NestedAbove (f :: rest) := hstack ▸ hs.wellFormed.nested
      rw [hstack] at hmem
      rcases List.mem_cons.mp hmem with rfl | hrest
      · obtain rfl := hnested.rest_eq_nil rfl
        simp only [NFSKit.step, State.returnFromCall, hstack, Option.some.injEq] at h
        subst h
        exact performShutdownRest_shuttingDown hctx halive rfl hsources hquery hoff rfl
      · have hn : f.nested := by
          rcases hnested.1 with hn | rfl
          · exact hn
          · cases hrest
        cases f with
        | handOver site cb ran =>
          cases site with
          | pending i op =>
            obtain ⟨hquery', hoff'⟩ := query_of_eq (returned_pending hstack h) hquery hoff
            refine .cleaning n (hmem' ?_) (hctx' ?_) halive' hsources' hquery' hoff'
            · intro rc view rest' _ heq
              rw [hstack] at heq
              cases heq
            · simp [State.tearsDown, hstack]
          | _ => cases hn
        | completionHook cb r =>
          simp only [NFSKit.step, State.returnFromCall, hstack] at h
          cases h
        | _ => cases hn

theorem ShuttingDown.next {timeout : Int} (hr : Reachable step (State.init timeout) v)
    (hv : ShuttingDown v) (he : e.starts = false) (h : step v e = some w) : ShuttingDown w := by
  cases hv with
  | cleaning n hmem hctx halive hsources hquery hoff =>
    exact cleaning_next hr hmem hctx halive hsources hquery hoff he h
  | destroying u hd hcleared =>
    exact .destroying u (hd.next (started_of_reachable hr) he h).1 hcleared

theorem ShuttingDown.keeps {timeout : Int} (hr : Reachable step (State.init timeout) v)
    (hv : ShuttingDown v) (hes : ∀ e ∈ es, e.starts = false) (h : run step v es = some w) :
    ShuttingDown w := by
  induction es generalizing v with
  | nil =>
    obtain rfl : v = w := by simpa [run] using h
    exact hv
  | cons e es ih =>
    simp only [run, Option.bind_eq_some_iff] at h
    obtain ⟨x, hx, h⟩ := h
    obtain ⟨he, hes⟩ := List.forall_mem_cons.mp hes
    exact ih (hr.tail trivial hx) (hv.next hr he hx) hes h

/-- When its block is over, `performShutdown` has left nothing behind. -/
theorem ShuttingDown.terminal {timeout : Int} (hr : Reachable step (State.init timeout) v)
    (hv : ShuttingDown v) (hstack : v.stack = []) : v.Terminal := by
  cases hv with
  | cleaning n hmem =>
    rw [hstack] at hmem
    cases hmem
  | destroying u hd hcleared =>
    obtain ⟨hactive, hpending⟩ := (sound_of_reachable hr).wellFormed.retired hd.context
    obtain ⟨hcount, hbulk, hmetadata⟩ := hd.reset rfl hstack
    obtain ⟨hquery, hoff⟩ := query_of_eq (congrArg Outskirts.exports hd.outskirts)
      hcleared.exports.1 hcleared.exports.2.1
    have hid := congrArg (fun o => o.exports.rpcExportsContID) hd.outskirts
    have hsources : v.sources = u.sources := congrArg Outskirts.sources hd.outskirts
    exact {
      handleRegistry := hd.handleRegistry.trans hcleared.handleRegistry
      logHandler := (congrArg Outskirts.logHandler hd.outskirts).trans hcleared.logHandler
      exports := ⟨hquery, hoff, hid.trans hcleared.exports.2.2⟩
      inFlightCount := hcount
      controllers := ⟨hbulk, hmetadata⟩
      context := hd.context
      activeContinuations := hactive
      pendingOperations := hpending
      sources := hsources ▸ hcleared.sources
      timeoutTimer := hsources ▸ hcleared.timeoutTimer }

/-! ## The two ways -/

theorem shutdown_again (hctx : t.context = none) (hactive : t.activeContinuations = [])
    (h : step t (.block .shutdown) = some u) : u = { t with teardowns := t.teardowns + 1 } := by
  obtain ⟨-, -, rfl⟩ := step_shutdown h rfl
  exact performShutdown_down hctx hactive

/-- From any reachable state with a context, `shutdown()` leaves the loop in the terminal state once
libnfs has returned. After a failed `nfs_service` it does so exactly if the loop was unused and no
callback ran while the context was being destroyed. Either way a further `shutdown()` changes
nothing. -/
theorem shutdowns_converge {timeout : Int} (hr : Reachable step (State.init timeout) s) :
    (∀ rc view es t, s.stack.head? = some .service → rc < 0 → (∀ e ∈ es, e.starts = false) →
      run step s (.ret rc view :: es ++ [.block .shutdown]) = some t →
      (t.Terminal ↔ s.Unused ∧ ∀ e ∈ es, e.callsBack = false) ∧
        ∀ u, step t (.block .shutdown) = some u → u = { t with teardowns := t.teardowns + 1 }) ∧
    ∀ es t, s.context.isSome → (∀ e ∈ es, e.starts = false) →
      run step s (.block .shutdown :: es) = some t → t.stack = [] →
      t.Terminal ∧
        ∀ u, step t (.block .shutdown) = some u → u = { t with teardowns := t.teardowns + 1 } := by
  constructor
  · intro rc view es t hhead hrc hes h
    obtain ⟨hiff, hctx, hactive⟩ := terminal_after_error hr hhead hrc hes h
    exact ⟨hiff, fun u hu => shutdown_again hctx hactive hu⟩
  · intro es t hctx hes h hstack
    have hrt : Reachable step (State.init timeout) t := hr.trans (reachable_of_run h)
    simp only [run, Option.bind_eq_some_iff] at h
    obtain ⟨v, hv, h⟩ := h
    obtain ⟨hidle, halive, heq⟩ := step_shutdown hv rfl
    have hdown : ShuttingDown v := heq ▸ performShutdown_shuttingDown hctx halive hidle
    have hterminal := (hdown.keeps (hr.tail trivial hv) hes h).terminal hrt hstack
    exact ⟨hterminal, fun u hu => shutdown_again hterminal.context hterminal.activeContinuations hu⟩

/-- A mount whose `nfs_service` fails: its caller gets `ENOTCONN`, the sources are cancelled, and a
shutdown leaves the terminal state. On a mounted loop with an open file, a log handler and a stat in
flight, a shutdown alone does. -/
theorem shutdowns_converge_mount :
    (∃ t, run step (State.init 60000000000)
        [.block .mount, .ret 0 .connected, .block .handleIOEvent, .ret (-1) {}, .ret 0 {},
          .block .shutdown] = some t ∧
      t.outcomes 0 = [.failure .ENOTCONN] ∧ t.Terminal ∧
        ∀ u, step t (.block .shutdown) = some u → u = { t with teardowns := t.teardowns + 1 }) ∧
    ∃ t, run step (State.init 60000000000)
        (openEvents 7 ++ [.block (.setLogHandler true), .block Block.stat, .ret 0 .connected,
          .block .shutdown, .callback 3 (-14) none, .ret 0 {}]) = some t ∧
      t.Terminal ∧
        ∀ u, step t (.block .shutdown) = some u → u = { t with teardowns := t.teardowns + 1 } := by
  constructor
  · have hmount : ((run step (State.init 60000000000)
        [.block .mount, .ret 0 .connected, .block .handleIOEvent]).any fun s =>
        s.stack.head? = some .service ∧ s.handleRegistry = [] ∧ s.logHandler = false ∧
          s.exports = {} ∧ s.inFlightCount .bulk = 0 ∧ s.inFlightCount .metadata = 0 ∧
          s.bulkController = {} ∧ s.metadataController = {} ∧
          (run step s (.ret (-1) {} :: [.ret 0 {}] ++ [.block .shutdown])).any fun t =>
            t.outcomes 0 = [.failure .ENOTCONN]) = true := by
      decide +kernel
    obtain ⟨s, hs, hfacts⟩ := (Option.any_eq_true _ _).mp hmount
    obtain ⟨hstack, hregistry, hlog, hexports, hb, hm, hbulk, hmetadata, hrun⟩ :=
      of_decide_eq_true hfacts
    obtain ⟨t, ht, hout⟩ := (Option.any_eq_true _ _).mp hrun
    have hunused : s.Unused := by
      refine ⟨hregistry, hlog, ⟨by rw [hexports], by rw [hexports]; exact ⟨rfl, rfl⟩,
        by rw [hexports]⟩, fun c => ?_, hbulk, hmetadata⟩
      cases c with
      | bulk => exact hb
      | metadata => exact hm
    have hes : ∀ e ∈ [Event.ret 0 {}], e.starts = false := by simp [Event.starts]
    obtain ⟨hiff, hagain⟩ := (shutdowns_converge (reachable_of_run hs)).1 (-1) {} _ t hstack
      (by decide) hes ht
    refine ⟨t, ?_, of_decide_eq_true hout, hiff.mpr ⟨hunused, by simp [Event.callsBack]⟩, hagain⟩
    have happend := run_append step (State.init 60000000000)
      [.block .mount, .ret 0 .connected, .block .handleIOEvent]
      (.ret (-1) {} :: [.ret 0 {}] ++ [.block .shutdown])
    rw [hs] at happend
    exact happend.trans ht
  · have hused : ((run step (State.init 60000000000)
        (openEvents 7 ++ [.block (.setLogHandler true), .block Block.stat, .ret 0 .connected])).any
        fun s => s.context.isSome ∧ s.handleRegistry = [(1, 7)] ∧
          (run step s (.block .shutdown :: [.callback 3 (-14) none, .ret 0 {}])).any fun t =>
            t.stack = []) = true := by
      decide +kernel
    obtain ⟨s, hs, hfacts⟩ := (Option.any_eq_true _ _).mp hused
    obtain ⟨hctx, -, hrun⟩ := of_decide_eq_true hfacts
    obtain ⟨t, ht, hstack⟩ := (Option.any_eq_true _ _).mp hrun
    obtain ⟨hterminal, hagain⟩ := (shutdowns_converge (reachable_of_run hs)).2 _ t hctx
      (by simp [Event.starts]) ht (of_decide_eq_true hstack)
    refine ⟨t, ?_, hterminal, hagain⟩
    have happend := run_append step (State.init 60000000000)
      (openEvents 7 ++ [.block (.setLogHandler true), .block Block.stat, .ret 0 .connected])
      (.block .shutdown :: [.callback 3 (-14) none, .ret 0 {}])
    rw [hs] at happend
    exact happend.trans ht

/-- With a log handler and an open file, a failed `nfs_service` followed by a shutdown keeps the handle,
the log handler and the depth that the completed mount and open have reached; a shutdown alone keeps none
of them. -/
theorem shutdowns_diverge :
    (∃ t, run step (State.init 60000000000)
      (.block (.setLogHandler true) :: openEvents 7 ++
        [.block .handleIOEvent, .ret (-1) {}, .ret 0 {}, .block .shutdown]) = some t ∧
      t.stack = [] ∧ t.handleRegistry = [(1, 7)] ∧ t.logHandler ∧ t.metadataController.depth = 8) ∧
    ∃ t, run step (State.init 60000000000)
      (.block (.setLogHandler true) :: openEvents 7 ++ [.block .shutdown, .ret 0 {}]) = some t ∧
      t.stack = [] ∧ t.handleRegistry = [] ∧ t.logHandler = false ∧
        t.metadataController.depth = 2 := by
  have seen {es : List Event} {p : State → Prop} [DecidablePred p]
      (h : (run step (State.init 60000000000) es).any (fun t => p t) = true) :
      ∃ t, run step (State.init 60000000000) es = some t ∧ p t := by
    obtain ⟨t, ht, hp⟩ := (Option.any_eq_true _ _).mp h
    exact ⟨t, ht, of_decide_eq_true hp⟩
  exact ⟨seen (by decide +kernel), seen (by decide +kernel)⟩

end NFSKit
