import NFSKit.EventLoop.WellFormed
import NFSKit.EventLoop.Proofs.FieldsProofs

/-!
# A step is a sequence of actions

One theorem for each function of the loop says which actions it is made of, and `step_path` puts them
together. The proofs about the loop never unfold a step again: they look at the actions.
-/

namespace NFSKit

open Machine

/-- A sequence of actions of the step from `u` with the event `e`. -/
abbrev Steps (u : State) (e : Event) : Config → Config → Prop := Path Act (Allowed u e)

namespace State

variable {u : State} {e : Event}

/-! ## The drain -/

theorem drainLoop_path {i n : Nat} {s : State} (hctx : s.context = none → s.pendingOperations = [])
    (hn : s.pendingOperations.length ≤ i + n) :
    Steps u e ⟨s, .draining i⟩ ⟨s.drainLoop n i, .idle⟩ := by
  induction n generalizing i with
  | zero =>
    have hnone : s.pendingOperations[i]? = none := List.getElem?_eq_none hn
    exact (Path.single (.drained (.inr hnone)) trivial).tail .finishHook trivial
  | succ n ih =>
    unfold drainLoop
    cases hop : s.pendingOperations[i]? with
    | none => exact (Path.single (.drained (.inr hop)) trivial).tail .finishHook trivial
    | some op =>
      simp only
      have hsome : s.context.isSome := by
        cases hc : s.context with
        | none => rw [hctx hc] at hop; simp at hop
        | some _ => rfl
      by_cases hcap : s.hasCapacity op.category
      · rw [if_pos hcap]
        exact Path.single (.execute hsome hop hcap) trivial
      · rw [if_neg hcap]
        have hcap' : s.hasCapacity op.category = false := by simpa using hcap
        exact Path.head (.skip hop hcap') trivial (ih (by omega))

theorem drainFrom_path {i : Nat} {s : State}
    (hctx : s.context = none → s.pendingOperations = []) :
    Steps u e ⟨s, .draining i⟩ ⟨s.drainFrom i, .idle⟩ :=
  drainLoop_path hctx (by omega)

theorem issuePendingOperations_path {s : State} :
    Steps u e ⟨s, .draining 0⟩ ⟨s.issuePendingOperations, .idle⟩ := by
  unfold issuePendingOperations
  cases hc : s.context with
  | none => exact (Path.single (.drained (.inl hc)) trivial).tail .finishHook trivial
  | some _ => exact drainFrom_path (by simp [hc])

/-- Changing the sources, the settings or libnfs's answers is a silent action. -/
theorem silent_path {s t : State} {m : Mode} {k : Config} (h : Steps u e ⟨t, m⟩ k)
    (hcore : t.toCore = s.toCore) (halive : t.alive = s.alive) (hqueue : t.onQueue = s.onQueue)
    (hpre : t.preconditionFailed = s.preconditionFailed) : Steps u e ⟨s, m⟩ k :=
  Path.head (.silent hcore halive hqueue hpre) trivial h

@[simp] theorem updateWriteSource_toCore (s : State) : s.updateWriteSource.toCore = s.toCore := by
  unfold updateWriteSource
  cases s.context <;> rfl

@[simp] theorem updateWriteSource_alive (s : State) : s.updateWriteSource.alive = s.alive := by
  unfold updateWriteSource
  cases s.context <;> rfl

@[simp] theorem updateWriteSource_onQueue (s : State) : s.updateWriteSource.onQueue = s.onQueue := by
  unfold updateWriteSource
  cases s.context <;> rfl

@[simp] theorem updateWriteSource_preconditionFailed (s : State) :
    s.updateWriteSource.preconditionFailed = s.preconditionFailed := by
  unfold updateWriteSource
  cases s.context <;> rfl

theorem updateWriteSource_path {s : State} {m : Mode} {k : Config}
    (h : Steps u e ⟨s.updateWriteSource, m⟩ k) : Steps u e ⟨s, m⟩ k :=
  silent_path h (by simp) (by simp) (by simp) (by simp)

/-! ## Callbacks -/

theorem runCallback_eq (s : State) (cb : CallbackData) (status : Int) (data : Option Value) :
    s.runCallback cb status data =
      (s.enterHook cb status data).completionHook cb (s.replySucceeds cb status data) := by
  unfold runCallback enterHook replySucceeds settle nfsCallback rpcCallback complete
  have hfst (t : State) : (t.dataHandler cb status data).1 = (s.dataHandler cb status data).1 := by
    unfold dataHandler
    cases cb.dataHandler <;> cases data <;> simp only <;> split <;> rfl
  by_cases hentry : cb.entry = .getexports
  · by_cases hs : status = 0
    · subst hs
      simp [hentry, hfst]
    · simp [hentry, hs]
  · by_cases hs : status < 0 <;> simp [hentry, hs, hfst]

theorem completionHook_path {s : State} {cb : CallbackData} {ok : Bool} (halive : s.alive) :
    Steps u e ⟨(s.removeActive cb.continuationID).recordCompletion cb.operationCategory ok,
      .draining 0⟩ ⟨s.completionHook cb ok, .idle⟩ := by
  unfold completionHook handleCallbackCompletion
  rw [if_pos halive]
  by_cases hentry : cb.entry = .getexports
  · rw [if_pos hentry]
    refine silent_path issuePendingOperations_path ?_ ?_ ?_ ?_ <;>
      · unfold recordCompletion setController
        cases cb.operationCategory <;> rfl
  · rw [if_neg hentry]
    exact issuePendingOperations_path

theorem completionHook_path_dead {s : State} {cb : CallbackData} {ok : Bool}
    (halive : s.alive = false) : Steps u e ⟨s, .finishing⟩ ⟨s.completionHook cb ok, .idle⟩ := by
  unfold completionHook
  rw [if_neg (by simp [halive])]
  exact Path.single .finishHook trivial

theorem fireCallback_path {s : State} {id : Nat} {status : Int} {data : Option Value}
    (h : u.fireCallback id status data = some s) :
    Steps u (.callback id status data) u.config s.config := by
  unfold fireCallback at h
  cases hstack : u.stack with
  | nil => rw [hstack] at h; cases h
  | cons f rest =>
    simp only [hstack, Option.bind_eq_some_iff, Option.map_eq_some_iff] at h
    obtain ⟨⟨cb, s₁⟩, htake, s₂, hnote, rfl⟩ := h
    obtain ⟨rfl, htaken⟩ := takeRequest_cases htake
    have halive₁ : s₁.alive = u.alive := by
      obtain ⟨-, heq⟩ | ⟨r, -, -, -, heq⟩ := htaken <;> rw [heq]
    have halive₃ : (s₂.enterHook cb status data).alive = u.alive := by
      obtain ⟨b, r, heq⟩ := enterHook_eq s₂ cb status data
      obtain ⟨fhs, dirs, heq₂⟩ := noteDelivery_eq hnote
      rw [heq, heq₂]
      exact halive₁
    rw [runCallback_eq]
    cases halive : u.alive with
    | true =>
      exact Path.head (.callback halive hstack htake hnote) ⟨rfl, rfl⟩
        (completionHook_path (halive₃.trans halive))
    | false =>
      exact Path.head (.callbackDead halive hstack htake hnote) ⟨rfl, rfl⟩
        (completionHook_path_dead (halive₃.trans halive))

/-! ## Teardown -/

theorem destroyContext_path {s : State} {kind : Teardown} (hstack : s.stack = [])
    (hallowed : Allowed u e ⟨s, .tearingDown kind⟩ (.enterDestroy kind)) :
    Steps u e ⟨s, .tearingDown kind⟩ ⟨s.destroyContext kind, .idle⟩ := by
  cases hc : s.context with
  | some c =>
    have heq : s.destroyContext kind = { s.clearRegistries kind with
        context := none, stack := .destroy kind s.activeContinuations :: s.stack } := by
      unfold destroyContext clearRegistries
      cases kind <;> simp [hc]
    rw [heq]
    exact Path.single (.enterDestroy (by simp [hc]) hstack) hallowed
  | none =>
    have heq : s.destroyContext kind =
        (s.clearRegistries kind).endTeardown kind s.activeContinuations := by
      unfold destroyContext clearRegistries
      cases kind <;> simp [hc]
    rw [heq]
    exact Path.single (.teardownNow hc hstack) trivial

theorem afterCleanup_path {s : State} {next : AfterCleanup} (hstack : s.stack = [])
    (hnext : next.isGetexports = false)
    (hallowed : next = .performShutdown →
      Allowed u e ⟨s, next.mode⟩ (.enterDestroy .performShutdown)) :
    Steps u e ⟨s, next.mode⟩ ⟨s.afterCleanup next, .idle⟩ := by
  cases next with
  | done => exact Path.single (.silent rfl rfl rfl rfl) trivial
  | performShutdown =>
    unfold afterCleanup performShutdownRest
    exact silent_path (destroyContext_path hstack (hallowed rfl)) rfl rfl rfl rfl
  | getexports cb => cases hnext

theorem cleanupRpcExports_path {s : State} {next : AfterCleanup} (hstack : s.stack = [])
    (hnext : next.isGetexports = false) (hshut : next = .performShutdown → e.shutsDown)
    (hallowed : next = .performShutdown → s.exports.rpcExportsCtx = none →
      Allowed u e ⟨s, next.mode⟩ (.enterDestroy .performShutdown)) :
    Steps u e ⟨s, next.mode⟩ ⟨s.cleanupRpcExports next, .idle⟩ := by
  unfold cleanupRpcExports
  cases hn : s.exports.cancelRpcExportsSources.rpcExportsCtx with
  | none =>
    simp only [hn]
    have hnone : s.exports.rpcExportsCtx = none := by
      obtain ⟨dropped, heq⟩ := RpcExports.cancelRpcExportsSources_eq s.exports
      rw [heq] at hn
      exact hn
    exact silent_path (afterCleanup_path hstack hnext fun h => hallowed h hnone) rfl rfl rfl rfl
  | some n =>
    simp only [hn]
    let t : State :=
      { s with exports := { s.exports.cancelRpcExportsSources with rpcExportsCtx := none } }
    have ht : Act ⟨t, next.mode⟩ (.enterRpcDestroy n next) _ := .enterRpcDestroy hstack hnext
    exact silent_path (Path.single ht hshut) rfl rfl rfl rfl

theorem performShutdown_path {s : State} {m : Mode} (hstack : s.stack = [])
    (hm : m = .idle ∨ m = .tearingDown .performShutdown) (hshut : e.shutsDown)
    (hallowed : s.exports.rpcExportsCtx = none → Allowed u e ⟨s, m⟩ (.enterDestroy .performShutdown)) :
    Steps u e ⟨s, m⟩ ⟨s.performShutdown, .idle⟩ := by
  unfold performShutdown
  by_cases h : s.context.isNone && s.activeContinuations.isEmpty
  · rw [if_pos h]
    simp only [Bool.and_eq_true, Option.isNone_iff_eq_none, List.isEmpty_iff] at h
    exact Path.single (.alreadyDown h.1 h.2 hm) trivial
  · rw [if_neg h]
    let t : State :=
      { s with teardownStarted := true, isRunning := false, sources := s.sources.cancelSources }
    have ht : Steps u e ⟨t, AfterCleanup.performShutdown.mode⟩
        ⟨t.cleanupRpcExports .performShutdown, .idle⟩ :=
      cleanupRpcExports_path hstack rfl (fun _ => hshut) fun _ h => hallowed h
    exact Path.head (.startTeardown hstack hm) (fun _ => hshut) (silent_path ht rfl rfl rfl rfl)

theorem shutdownWithError_path {s : State} (hstack : s.stack = [])
    (hallowed : Allowed u e ⟨s, .idle⟩ (.enterDestroy .shutdownWithError)) :
    Steps u e ⟨s, .idle⟩ ⟨s.shutdownWithError, .idle⟩ := by
  unfold shutdownWithError
  have hstart : Act ⟨s, .idle⟩ (.startTeardown .shutdownWithError) _ :=
    .startTeardown hstack (.inl rfl)
  exact Path.head hstart (by simp [Allowed])
    (silent_path (destroyContext_path hstack hallowed) rfl rfl rfl rfl)

/-! ## Timeouts -/

/-- The expiry of a list of registered operations with distinct ids, one by one. -/
theorem expire_path {l : List CallbackData} {s : State} (hstack : s.stack = [])
    (hmem : ∀ cb ∈ l, cb ∈ s.activeContinuations)
    (hids : (l.map CallbackData.continuationID).Nodup)
    (hallowed : ∀ cb ∈ l, cb ∈ u.activeContinuations ∧ u.expired cb)
    (htimeout : 0 < u.timeout)
    (hpending : s.pendingOperations = u.pendingOperations) (hout : s.outstanding = u.outstanding) :
    Steps u (.block .scanForTimeouts) ⟨s, .idle⟩ ⟨l.foldl expire s, .idle⟩ := by
  induction l generalizing s with
  | nil => exact .refl
  | cons cb l ih =>
    rw [List.map_cons, List.nodup_cons] at hids
    have hcb := hallowed cb (by simp)
    obtain ⟨hs, hp, ho, ha⟩ := expire_fields s cb
    refine Path.head (.expire hstack (hmem cb (by simp)))
      ⟨rfl, hcb.1, hcb.2, htimeout, hpending, hout⟩
      (ih (hs.trans hstack) ?_ hids.2 (fun c hc => hallowed c (by simp [hc])) (hp.trans hpending)
        (ho.trans hout))
    intro c hc
    rw [ha, List.mem_filter]
    refine ⟨hmem c (by simp [hc]), ?_⟩
    have hne : c.continuationID ≠ cb.continuationID := fun heq =>
      hids.1 (heq ▸ List.mem_map_of_mem hc)
    simpa using hne

theorem scanForTimeouts_path (hw : WellFormed u) (hstack : u.stack = []) :
    Steps u (.block .scanForTimeouts) u.config u.scanForTimeouts.config := by
  unfold scanForTimeouts
  by_cases htimeout : u.timeout ≤ 0
  · rw [if_pos htimeout]
    exact .refl
  rw [if_neg htimeout]
  have hids : ((u.activeContinuations.filter u.expired).map CallbackData.continuationID).Nodup := by
    refine List.Nodup.map_on (fun a ha b hb hab => ?_) (hw.active_nodup.filter _)
    exact hw.id_inj a (hw.active_created a (List.mem_of_mem_filter ha)) b
      (hw.active_created b (List.mem_of_mem_filter hb)) hab
  have hexpire : Steps u (.block .scanForTimeouts) ⟨u, .idle⟩
      ⟨(u.activeContinuations.filter u.expired).foldl expire u, .idle⟩ :=
    expire_path hstack (fun cb h => List.mem_of_mem_filter h) hids
      (fun cb h => List.mem_filter.mp h) (by omega) rfl rfl
  refine hexpire.trans ?_
  have hstack' : ((u.activeContinuations.filter u.expired).foldl expire u).stack = [] := by
    rw [foldl_expire_stack, hstack]
  simp only
  split
  · split
    · exact @cleanupRpcExports_path u _ _ .done hstack' rfl (by simp) (by simp)
    · exact .refl
  · exact .refl

/-! ## Queue blocks -/

/-- A submitted operation has no buffer. -/
theorem wellMade_submit {cb : CallbackData} {type : OperationType} (hentry : cb.entry = .submit type)
    (hcleanup : cb.cleanup = false) (hdest : cb.destBuffer = none) (hhandle : cb.handle = none) :
    cb.WellMade where
  cleanup := by rw [hcleanup, hentry]; rfl
  handler := by simp [hentry, EntryPoint.bufferHandler]
  dest := by simp [hentry, hdest]
  handle := by rw [hhandle, hentry]; rfl

/-- A call that is answered at once. -/
theorem immediate_path {s : State} {r : Outcome} :
    Steps u e ⟨s, .idle⟩ ⟨s.newCaller.resumeContinuation s.nextCaller r, .idle⟩ :=
  Path.single .immediate trivial

theorem submit_path {type : OperationType} {handler : DataHandler} (hstack : u.stack = [])
    (he : e.submits = some (type, handler)) : Steps u e u.config (u.submit type handler).config := by
  unfold submit
  extract_lets caller s cb t
  cases hc : s.context with
  | none => exact immediate_path
  | some c =>
    have hsome : u.context.isSome := Option.isSome_of_eq_some hc
    have hmade : cb.WellMade := wellMade_submit rfl rfl rfl rfl
    have hsubmits : ∀ type', cb.entry = .submit type' → e.submits = some (type', cb.dataHandler) :=
      fun type' h => EntryPoint.submit.inj h ▸ he
    simp only
    split
    · rename_i hcap
      have hissued : Issued u .issueOperation cb :=
        ⟨fun _ => hcap, by simp [cb], by simp [cb], by simp [Site.countsLate], by simp [cb],
          by simp [cb]⟩
      have hstart : Act ⟨u, .idle⟩ (.start .issueOperation cb) ⟨t.issueOperation cb, .idle⟩ :=
        .start hstack hsome rfl rfl rfl hmade hissued
      exact Path.single hstart
        ⟨hsubmits, by simp [cb], .inl ⟨rfl, (type, handler), he, rfl⟩, .refl _⟩
    · rename_i hcap
      split
      · exact Path.single (.overflow hsome rfl rfl hmade ⟨type, rfl⟩ rfl) hsubmits
      · rename_i hroom
        have hfull : u.hasCapacity type.category = false := Bool.eq_false_iff.mpr hcap
        exact Path.single
          (.enqueue hsome rfl rfl rfl rfl hfull (Nat.lt_of_not_le hroom) hmade rfl hstack)
          ⟨hsubmits, .refl _⟩

theorem mount_path (hstack : u.stack = []) :
    Steps u (.block .mount) u.config u.mount.config := by
  unfold mount
  extract_lets caller s cb
  cases hc : s.context with
  | none => exact immediate_path
  | some c =>
    have hissued : Issued u .mount cb :=
      ⟨by simp, by simp [cb], by simp [cb], fun _ => rfl, by simp [cb], by simp [cb]⟩
    have hstart : Act ⟨u, .idle⟩ (.start .mount cb)
        ⟨((s.register cb).passRetained cb).handOver .mount cb, .idle⟩ :=
      .start hstack (Option.isSome_of_eq_some hc) rfl rfl rfl
        ⟨rfl, by simp [cb, EntryPoint.bufferHandler], by simp [cb], rfl⟩ hissued
    exact Path.single hstart
      ⟨by simp [cb], by simp [cb], .inr ⟨_, rfl, rfl, Option.isSome_of_eq_some hc⟩, .refl _⟩

theorem getexports_path {available : Bool} (hstack : u.stack = []) :
    Steps u (.block (.getexports available)) u.config (u.getexports available).config := by
  unfold getexports
  extract_lets caller s n cb t t'
  cases hc : s.context with
  | none => exact immediate_path
  | some c =>
    simp only
    split
    · exact immediate_path
    rename_i hfree
    split
    · exact immediate_path
    rename_i hthere
    have hreaches : (Block.getexports available).reachesCall u := by
      have hfree : s.exports.rpcExportsCtx = none := by simpa using hfree
      have hfree : u.exports.rpcExportsCtx = none := hfree
      have hthere : available = true := by simpa using hthere
      simp [Block.reachesCall, hfree, hthere, show u.context = some c from hc]
    have hissued : Issued u (.getexports n) cb :=
      ⟨by simp, by simp [cb], by simp [cb], fun _ => rfl, by simp [cb], by simp [cb]⟩
    have hstart : Act ⟨u, .idle⟩ (.start (.getexports n) cb)
        ⟨((s.register cb).passRetained cb).handOver (.getexports n) cb, .idle⟩ :=
      .start hstack (Option.isSome_of_eq_some hc) rfl rfl rfl
        ⟨rfl, by simp [cb, EntryPoint.bufferHandler], by simp [cb], rfl⟩ hissued
    exact Path.head hstart ⟨by simp [cb], by simp [cb], .inr ⟨_, rfl, rfl, hreaches⟩, .refl _⟩
      (Path.single (.silent rfl rfl rfl rfl) trivial)

/-- What the ten operations on open handles have in common: `e` starts one of them. -/
structure HandleBlock (u : State) (e : Event) (op : HandleOperation) (h : Nat) : Prop where
  block : ∃ b, e = .block b ∧ b.directCategory = some op.operationCategory ∧
    (u.context.isSome → (u.handleRegistry.lookup h).isSome → b.reachesCall u)
  cleanup : op.cleanup = op.entry.bufferHandler.isSome
  handler : ∀ h, op.entry.bufferHandler = some h → op.dataHandler = h
  entry : op.entry ≠ .getexports ∧ op.entry ≠ .mount
  dest : op.destBuffer.isSome ↔ op.entry = .preadIntoBuffer
  buffer : ∀ b, op.destBuffer = some b → b ∉ u.releasedBuffers
  closes : op.closes → op.entry = .closeFile
  onHandle : op.entry.onHandle

theorem handleOperation_path {op : HandleOperation} {h : Nat} (hstack : u.stack = [])
    (hop : HandleBlock u e op h) : Steps u e u.config (u.handleOperation op h).config := by
  unfold handleOperation
  extract_lets caller s
  cases hfh : s.handleRegistry.lookup h with
  | none => exact immediate_path
  | some fh =>
    cases hc : s.context with
    | none => exact immediate_path
    | some c =>
      dsimp -zeta only
      extract_lets cb t t'
      have hsome : u.context.isSome := Option.isSome_of_eq_some hc
      obtain ⟨b, he, hcategory, hreaches⟩ := hop.block
      have hdirect : ∃ b, e = .block b ∧ b.directCategory = some cb.operationCategory ∧
          b.reachesCall u := ⟨b, he, hcategory, hreaches hsome (Option.isSome_of_eq_some hfh)⟩
      have hmade : cb.WellMade := ⟨hop.cleanup, hop.handler, hop.dest, hop.onHandle.symm⟩
      have hhandle : ∀ fh', cb.handle = some fh' → ∃ h, u.handleRegistry.lookup h = some fh' :=
        fun fh' h' => ⟨h, Option.some.inj h' ▸ hfh⟩
      have hsubmits : ∀ type, cb.entry = .submit type → e.submits = some (type, cb.dataHandler) := by
        intro type hentry
        have honHandle : cb.entry.onHandle := hop.onHandle
        rw [hentry] at honHandle
        cases honHandle
      have hissued : Issued u .handleOperation cb :=
        { capacity := by simp
          exports := ⟨fun h => absurd h hop.entry.1, fun ⟨_, h⟩ => by cases h⟩
          mount := ⟨fun h => absurd h hop.entry.2, fun h => by cases h⟩
          category := fun h => absurd rfl h
          buffered := fun _ => rfl
          dest := fun b hb => ⟨rfl, hop.buffer b hb, h, fh, hfh, rfl⟩ }
      by_cases hcl : op.closes
      · have ht' : t' = { t with
            handleRegistry := t.handleRegistry.filter (·.1 ≠ h)
            closedHandles := fh :: t.closedHandles } := if_pos hcl
        have hclosing : Act ⟨u, .idle⟩ (.closing h fh) _ := .closing hfh hsome
        have hdest : cb.destBuffer = none := by
          have hentry : op.entry = .closeFile := hop.closes hcl
          exact Option.not_isSome_iff_eq_none.mp fun hb => by simpa [hentry] using hop.dest.mp hb
        have hissued' : Issued
            { u with
              handleRegistry := u.handleRegistry.filter (·.1 ≠ h)
              closedHandles := fh :: u.closedHandles } .handleOperation cb :=
          { hissued with
            capacity := by simp
            dest := fun b hb => by simp [hdest] at hb }
        have hstart : Act
            ⟨{ u with
                handleRegistry := u.handleRegistry.filter (·.1 ≠ h)
                closedHandles := fh :: u.closedHandles }, .idle⟩ (.start .handleOperation cb)
            ⟨(t'.passRetained cb).handOver .handleOperation cb, .idle⟩ := by
          rw [ht']
          exact @Act.start _ .handleOperation cb hstack hsome rfl rfl rfl hmade hissued'
        exact Path.head hclosing trivial (Path.single hstart
          ⟨hsubmits, hhandle, .inr hdirect, rfl, rfl, rfl, rfl, rfl, rfl⟩)
      · have ht' : t' = t := if_neg hcl
        have hstart : Act ⟨u, .idle⟩ (.start .handleOperation cb)
            ⟨(t'.passRetained cb).handOver .handleOperation cb, .idle⟩ := by
          rw [ht']
          exact .start hstack hsome rfl rfl rfl hmade hissued
        exact Path.single hstart ⟨hsubmits, hhandle, .inr hdirect, .refl _⟩

theorem registerHandle_path {opener fh : Nat} (hopener : opener ∉ u.followed)
    (hdelivered : u.delivered .open opener = some fh) :
    Steps u e u.config (u.registerHandle opener fh).config :=
  Path.head (.registerHandle hopener hdelivered) trivial immediate_path

theorem readdirAll_path {opener dir : Nat} (hopener : opener ∉ u.followed)
    (hdelivered : u.delivered .opendir opener = some dir) :
    Steps u e u.config (u.readdirAll opener dir).config := by
  unfold readdirAll
  extract_lets caller s
  split
  · rename_i hc
    exact Path.head (.dropDir hopener hdelivered hc) trivial immediate_path
  · rename_i ctx hc
    have hsome : u.context.isSome := Option.isSome_of_eq_some hc
    exact Path.head (.readdirAll hopener hdelivered hsome) trivial immediate_path

theorem closeFileFireAndForget_path {h : Nat} (hstack : u.stack = [])
    (hdone : u.allResumed fun cb => cb.handle.isSome && cb.handle == u.registrations.lookup h) :
    Steps u e u.config (u.closeFileFireAndForget h).config := by
  unfold closeFileFireAndForget
  split
  · exact .refl
  · rename_i fh hfh
    extract_lets s
    split
    · rename_i hc
      exact Path.single (.dropHandle hfh hc) trivial
    · rename_i hc
      exact Path.single (.enterClose hstack (Option.isSome_of_eq_some hc) hfh hdone) trivial

theorem handleIOEvent_path (hstack : u.stack = []) : Steps u e u.config u.handleIOEvent.config := by
  unfold handleIOEvent
  split
  · exact .refl
  · rename_i ctx hctx
    exact Path.single (.enter hstack (.inl rfl)) ⟨rfl, fun _ => by simp [hctx]⟩

theorem handleRpcExportsEvent_path (hstack : u.stack = []) :
    Steps u e u.config u.handleRpcExportsEvent.config := by
  unfold handleRpcExportsEvent
  split
  · exact .refl
  · rename_i n _
    exact Path.single (.enter hstack (.inr ⟨n, rfl⟩)) ⟨rfl, by simp⟩

theorem configure_path {x : Setting} {s : State} (h : u.configure x = .ok s) :
    Steps u e u.config s.config := by
  unfold configure at h
  cases hc : u.context with
  | none => rw [hc] at h; cases h
  | some c =>
    simp only [hc] at h
    have hset : s = { u with settings := x :: u.settings } := by
      cases x
      case security m =>
        simp only at h
        split at h
        · exact (Except.ok.inj h).symm
        · cases h
      all_goals exact (Except.ok.inj h).symm
    rw [hset]
    exact Path.single (.silent rfl rfl rfl rfl) trivial

theorem setLogHandler_path {handler : Bool} : Steps u e u.config (u.setLogHandler handler).config := by
  unfold setLogHandler
  cases u.context <;> exact Path.single (.silent rfl rfl rfl rfl) trivial

theorem EntryPoint.of_bufferHandler {entry : EntryPoint} {d : DataHandler}
    (h : entry.bufferHandler = some d) :
    entry ≠ .getexports ∧ entry ≠ .mount ∧ entry ≠ .preadIntoBuffer ∧ entry.onHandle := by
  refine ⟨?_, ?_, ?_, ?_⟩
  · rintro rfl
    cases h
  · rintro rfl
    cases h
  · rintro rfl
    cases h
  · cases entry <;> first | rfl | cases h

theorem runBlock_path {b : Block} {s : State} (hw : WellFormed u) (hstack : u.stack = [])
    (h : u.runBlock b = some s) : Steps u (.block b) u.config s.config := by
  have handle {op : HandleOperation} {n : Nat} (heq : some (u.handleOperation op n) = some s)
      (hop : HandleBlock u (.block b) op n) : Steps u (.block b) u.config s.config :=
    Option.some.inj heq ▸ handleOperation_path hstack hop
  have bulk {entry : EntryPoint} {handler : DataHandler} {n : Nat}
      (hb : b.directCategory = some .bulk)
      (hreaches : b.reachesCall u = (u.context.isSome && (u.handleRegistry.lookup n).isSome))
      (hentry : entry.bufferHandler = some handler) :
      HandleBlock u (.block b)
        { entry, operationCategory := .bulk, dataHandler := handler, cleanup := true } n :=
    have hne := EntryPoint.of_bufferHandler hentry
    { block := ⟨b, rfl, hb, fun hc hl => by rw [hreaches, hc, hl]; rfl⟩
      cleanup := by simp [hentry]
      handler := by simp [hentry]
      entry := ⟨hne.1, hne.2.1⟩
      dest := by simp [hne.2.2.1]
      buffer := by simp
      closes := by simp
      onHandle := hne.2.2.2 }
  have metadata {entry : EntryPoint} {handler : DataHandler} {closes : Bool} {n : Nat}
      (hb : b.directCategory = some .metadata)
      (hreaches : b.reachesCall u = (u.context.isSome && (u.handleRegistry.lookup n).isSome))
      (hentry : entry ≠ .getexports ∧ entry ≠ .mount ∧ entry ≠ .preadIntoBuffer ∧
        entry.bufferHandler = none ∧ entry.onHandle) (hcloses : closes → entry = .closeFile) :
      HandleBlock u (.block b)
        { entry, operationCategory := .metadata, dataHandler := handler, closes } n :=
    ⟨⟨b, rfl, hb, fun hc hl => by rw [hreaches, hc, hl]; rfl⟩, by simp [hentry], by simp [hentry],
      ⟨hentry.1, hentry.2.1⟩, by simp [hentry], by simp, hcloses, hentry.2.2.2.2⟩
  cases b with
  | submit type handler => exact Option.some.inj h ▸ submit_path hstack rfl
  | submitWithStatus type handler => exact Option.some.inj h ▸ submit_path hstack rfl
  | mount => exact Option.some.inj h ▸ mount_path hstack
  | getexports available => exact Option.some.inj h ▸ getexports_path hstack
  | closeFile n => exact handle h (metadata rfl rfl (by decide) fun _ => rfl)
  | readFile n => exact handle h (bulk rfl rfl rfl)
  | writeFile n => exact handle h (bulk rfl rfl rfl)
  | preadFile n => exact handle h (bulk rfl rfl rfl)
  | preadIntoBuffer n buffer =>
    simp only [runBlock] at h
    split at h
    · cases h
    · rename_i hfree
      refine handle h ⟨⟨_, rfl, rfl, fun hc hl => ?_⟩, rfl, by simp [EntryPoint.bufferHandler],
        by simp, by simp, ?_, by simp, rfl⟩
      · simp [Block.reachesCall, hc, hl]
      intro b hb
      obtain rfl : buffer = b := Option.some.inj hb
      exact hfree
  | pwriteFile n => exact handle h (bulk rfl rfl rfl)
  | fsync n => exact handle h (metadata rfl rfl (by decide) (by simp))
  | fstat n => exact handle h (metadata rfl rfl (by decide) (by simp))
  | ftruncate n => exact handle h (metadata rfl rfl (by decide) (by simp))
  | lseek n => exact handle h (metadata rfl rfl (by decide) (by simp))
  | registerHandle opener =>
    simp only [runBlock] at h
    split at h
    · cases h
    · rename_i hopener
      obtain ⟨fh, hfh, rfl⟩ := Option.map_eq_some_iff.mp h
      exact registerHandle_path hopener hfh
  | readdirAll opener =>
    simp only [runBlock] at h
    split at h
    · cases h
    · rename_i hopener
      obtain ⟨dir, hdir, rfl⟩ := Option.map_eq_some_iff.mp h
      exact readdirAll_path hopener hdir
  | closeFileFireAndForget n =>
    simp only [runBlock] at h
    split at h
    · rename_i hdone
      exact Option.some.inj h ▸ closeFileFireAndForget_path hstack hdone
    · cases h
  | scanForTimeouts => exact Option.some.inj h ▸ scanForTimeouts_path hw hstack
  | handleIOEvent => exact Option.some.inj h ▸ handleIOEvent_path hstack
  | handleRpcExportsEvent => exact Option.some.inj h ▸ handleRpcExportsEvent_path hstack
  | shutdown =>
    refine Option.some.inj h ▸ performShutdown_path hstack (.inl rfl) rfl fun hnone => ?_
    exact ⟨by simp [tearsDown, hnone], rfl, fun _ h => h⟩
  | configure x =>
    simp only [runBlock] at h
    split at h
    · rename_i t ht
      exact Option.some.inj h ▸ configure_path ht
    · exact Option.some.inj h ▸ .refl
  | setLogHandler handler => exact Option.some.inj h ▸ setLogHandler_path

/-! ## Returns from libnfs -/

theorem setView_leaveTo (s : State) (rest : List Frame) (ctx : Ctx) (view : LibView) :
    ({ s with stack := rest } : State).setView ctx view = (s.setView ctx view).leaveTo rest := by
  cases ctx <;> rfl

@[simp] theorem setView_toCore (s : State) (ctx : Ctx) (view : LibView) :
    (s.setView ctx view).toCore = s.toCore := by
  cases ctx <;> rfl

/-- libnfs's new answers are a silent action. -/
theorem setView_path {s : State} {ctx : Ctx} {view : LibView} {m : Mode} {k : Config}
    (h : Steps u e ⟨s.setView ctx view, m⟩ k) : Steps u e ⟨s, m⟩ k := by
  cases ctx <;> exact silent_path h rfl rfl rfl rfl

theorem accepted_path {s : State} {site : Site} {cb : CallbackData} {ran : List Nat}
    {rest : List Frame} (hstack : s.stack = .handOver site cb ran :: rest)
    (hctx : s.context = none → s.pendingOperations = [])
    (hallowed : s.toCore = u.toCore ∧ ∃ rc view, e = .ret rc view ∧ 0 ≤ rc) :
    Steps u e ⟨s, .idle⟩
      (((s.leaveTo rest).enqueueRequest site.ctx cb ran).accepted site cb).config := by
  have haccept : Act ⟨s, .idle⟩ (.accept site cb ran) _ := .accept hstack
  refine Path.head haccept hallowed ?_
  cases site with
  | issueOperation => exact updateWriteSource_path .refl
  | handleOperation => exact updateWriteSource_path .refl
  | mount =>
    show Steps u e ⟨(s.leaveTo rest).enqueueRequest .nfs cb ran, .idle⟩ _
    unfold accepted
    dsimp only
    split
    · refine silent_path (updateWriteSource_path .refl) rfl rfl rfl rfl
    · exact Path.single (.silent rfl rfl rfl rfl) trivial
  | getexports n =>
    show Steps u e ⟨(s.leaveTo rest).enqueueRequest (.rpc n) cb ran, .idle⟩ _
    unfold accepted
    dsimp only
    split <;> exact Path.single (.silent rfl rfl rfl rfl) trivial
  | pending i op =>
    refine updateWriteSource_path (drainFrom_path ?_)
    simp only [updateWriteSource_toCore]
    rw [enqueueRequest_eq]
    exact hctx

theorem refuse_eq (s : State) (rest : List Frame) (id : Nat) (cb : CallbackData) :
    (((s.leaveTo rest).setFate cb.caller .rejected).release cb).removeActive id =
      s.refuse rest id cb := by
  simp only [leaveTo, setFate, release, removeActive, refuse]

theorem refuse_addInFlight (s : State) (rest : List Frame) (id : Nat) (cb : CallbackData)
    (c : OperationCategory) (d : Int) :
    ((((s.leaveTo rest).setFate cb.caller .rejected).addInFlight c d).release cb).removeActive id =
      (s.refuse rest id cb).addInFlight c d := by
  simp only [leaveTo, setFate, release, removeActive, refuse, addInFlight]

theorem refuse_runCleanup (s : State) (rest : List Frame) (id : Nat) (cb : CallbackData) :
    ((((s.leaveTo rest).setFate cb.caller .rejected).runCleanup cb).release cb).removeActive id =
      (s.refuse rest id cb).withBuffers (s.runCleanup cb).buffers := by
  simp only [runCleanup_eq, leaveTo, setFate, release, removeActive, refuse, withBuffers, deallocate]

theorem rejected_path {s : State} {site : Site} {cb : CallbackData} {ran : List Nat}
    {rest : List Frame} {rc : Int} (hstack : s.stack = .handOver site cb ran :: rest)
    (hran : cb.caller ∉ ran) (hrest : site.isPending = false → rest = [])
    (hctx : s.context = none → s.pendingOperations = [])
    (hallowed : s.toCore = u.toCore ∧ ∃ rc view, e = .ret rc view ∧ rc < 0) :
    Steps u e ⟨s, .idle⟩ ((s.leaveTo rest).rejected site cb rc).config := by
  unfold rejected
  cases site with
  | issueOperation =>
    dsimp only
    rw [refuse_eq]
    exact Path.single (.reject hstack hran rfl) hallowed
  | handleOperation =>
    dsimp only
    rw [refuse_runCleanup]
    exact Path.single (.rejectHandle hstack hran rfl) hallowed
  | mount =>
    dsimp only
    rw [refuse_eq]
    exact Path.single (.rejectRaw hstack hran (.inl rfl) rfl) hallowed
  | getexports n =>
    dsimp only
    rw [refuse_eq]
    unfold cleanupRpcExports
    extract_lets t
    split
    · rename_i k _
      have hreject : Act ⟨s, .idle⟩ (.reject (.getexports n) cb ran)
          ⟨s.refuse (.rpcDestroy k (.getexports cb) :: rest) cb.continuationID cb, .idle⟩ :=
        .rejectExports hstack hran (hrest rfl)
      exact Path.head hreject hallowed (Path.single (.silent rfl rfl rfl rfl) trivial)
    · have hreject := @Act.rejectRaw s (.getexports n) cb ran rest (.failure POSIXErrorCode.EIO)
        hstack hran (.inr ⟨n, rfl⟩) rfl
      exact Path.head hreject hallowed (Path.single (.silent rfl rfl rfl rfl) trivial)
  | pending i op =>
    have hreject := @Act.rejectPending s i op cb ran rest (.failure (.ofCode (-rc))) hstack hran rfl
    dsimp only
    rw [refuse_addInFlight]
    refine Path.head hreject hallowed (updateWriteSource_path (drainFrom_path ?_))
    simp only [updateWriteSource_toCore]
    rw [resume_eq]
    exact hctx

theorem serviced_path {s : State} {rest : List Frame} {rc : Int} (hstack : s.stack = .service :: rest)
    (hrest : rest = [])
    (hallowed : rc < 0 → Allowed u e ⟨s, .idle⟩ (.enterDestroy .shutdownWithError)) :
    Steps u e ⟨s, .idle⟩ ((s.leaveTo rest).serviced rc).config := by
  unfold serviced
  split
  · rename_i hrc
    exact Path.head (.leave hstack rfl (.inl rfl)) trivial
      (shutdownWithError_path hrest (hallowed hrc))
  · refine Path.head (.leave hstack rfl (.inr rfl)) trivial ?_
    simp only
    split
    · exact silent_path (updateWriteSource_path issuePendingOperations_path) rfl rfl rfl rfl
    · exact updateWriteSource_path issuePendingOperations_path

theorem rpcServiced_path {s : State} {n : Nat} {rest : List Frame} {rc : Int}
    (hstack : s.stack = .rpcService n :: rest) (hrest : rest = []) :
    Steps u e ⟨s, .idle⟩ ((s.leaveTo rest).rpcServiced rc).config := by
  refine Path.head (.leave hstack rfl (.inl rfl)) trivial ?_
  unfold rpcServiced
  split
  · exact @cleanupRpcExports_path u e _ .done hrest rfl (by simp) (by simp)
  split
  · exact @cleanupRpcExports_path u e _ .done hrest rfl (by simp) (by simp)
  · exact Path.single (.silent rfl rfl rfl rfl) trivial

theorem returnFromCall_path {rc : Int} {view : LibView} {s : State} (hw : WellFormed u)
    (h : u.returnFromCall rc view = some s) : Steps u (.ret rc view) u.config s.config := by
  have hctx : u.context = none → u.pendingOperations = [] := fun hc => (hw.retired hc).2
  unfold returnFromCall at h
  split at h
  · cases h
  · cases h
  · -- an operation has been handed over
    rename_i site cb ran rest hstack
    simp only [setView_leaveTo] at h
    have hnested := hw.nested
    rw [hstack] at hnested
    have hstack' : (u.setView site.ctx view).stack = .handOver site cb ran :: rest := by
      simpa using hstack
    have hctx' : (u.setView site.ctx view).context = none →
        (u.setView site.ctx view).pendingOperations = [] := by simpa using hctx
    split at h
    · rename_i hrc
      split at h
      · cases h
      · rename_i hran
        exact Option.some.inj h ▸ setView_path
          (rejected_path hstack' hran hnested.rest_eq_nil hctx' ⟨by simp, rc, view, rfl, hrc⟩)
    · rename_i hrc
      exact Option.some.inj h ▸ setView_path
        (accepted_path hstack' hctx' ⟨by simp, rc, view, rfl, by omega⟩)
  · rename_i rest hstack
    have hnested := hw.nested
    rw [hstack] at hnested
    rw [setView_leaveTo] at h
    refine Option.some.inj h ▸ setView_path (serviced_path hstack (hnested.rest_eq_nil rfl) ?_)
    intro hrc
    exact ⟨by simp [tearsDown, hstack, hrc], rfl, fun _ h => h⟩
  · rename_i n rest hstack
    have hnested := hw.nested
    rw [hstack] at hnested
    rw [setView_leaveTo] at h
    exact Option.some.inj h ▸ setView_path (rpcServiced_path hstack (hnested.rest_eq_nil rfl))
  · rename_i fh rest hstack
    exact Option.some.inj h ▸
      Path.head (.leave hstack rfl (.inl rfl)) trivial (Path.single (.silent rfl rfl rfl rfl) trivial)
  · rename_i n next rest hstack
    have hnested := hw.nested
    rw [hstack] at hnested
    have hrest : rest = [] := hnested.rest_eq_nil rfl
    have hret : u = u ∧ ∃ rc' view', Event.ret rc view = .ret rc' view' := ⟨rfl, rc, view, rfl⟩
    cases next with
    | getexports cb =>
      exact Option.some.inj h ▸
        Path.head (.exportsFailed hstack rfl) hret (Path.single (.silent rfl rfl rfl rfl) trivial)
    | done =>
      exact Option.some.inj h ▸
        Path.head (.leaveRpcDestroy hstack rfl) hret (afterCleanup_path hrest rfl (by simp))
    | performShutdown =>
      refine Option.some.inj h ▸
        Path.head (.leaveRpcDestroy hstack rfl) hret (afterCleanup_path hrest rfl fun _ => ?_)
      exact ⟨by simp [tearsDown, hstack], rfl, fun r hr => List.mem_of_mem_filter hr⟩
  · rename_i kind conts rest hstack
    have hnested := hw.nested
    rw [hstack] at hnested
    exact Option.some.inj h ▸
      Path.single (.leaveDestroy hstack (hnested.rest_eq_nil rfl)) ⟨rfl, rc, view, rfl⟩

end State

/-- Every step of a well-formed state is a sequence of actions. -/
theorem step_path {u s : State} {e : Event} (hw : WellFormed u) (h : step u e = some s) :
    Steps u e u.config s.config := by
  cases e with
  | block b =>
    simp only [step] at h
    split at h
    · rename_i hidle
      simp only [Bool.and_eq_true, List.isEmpty_iff] at hidle
      exact State.runBlock_path hw hidle.1 h
    · cases h
  | callback id status data => exact State.fireCallback_path h
  | ret rc view => exact State.returnFromCall_path hw h
  | tick d =>
    exact Option.some.inj h ▸ Path.single (.silent rfl rfl rfl rfl) trivial
  | releaseBuffer b =>
    simp only [step] at h
    split at h
    · rename_i hdone
      exact Option.some.inj h ▸ Path.single (.releaseBuffer hdone) trivial
    · cases h
  | deinit q =>
    simp only [step] at h
    split at h
    · rename_i hidle
      simp only [Bool.and_eq_true, List.isEmpty_iff] at hidle
      refine Option.some.inj h ▸ Path.head (.deinit hidle.1.1 hidle.2) ⟨q, rfl⟩
        (State.performShutdown_path hidle.1.1 (.inr rfl) rfl fun hnone => ?_)
      have hnone : u.exports.rpcExportsCtx = none := hnone
      exact ⟨by simp [State.tearsDown, hnone], rfl, fun _ h => h⟩
    · cases h

end NFSKit
