import NFSKit.EventLoop.Actions

/-!
# What the small functions of the loop change

Each function that branches is one record update here, so that the fields of its result can be read
off without case analysis.
-/

namespace NFSKit

namespace Core

/-- The controller of a category after `setController`. -/
theorem controller_eq (s : Core) (c : OperationCategory) :
    s.controller c = if c = .bulk then s.bulkController else s.metadataController := by
  cases c <;> rfl

end Core

/-- Cancelling the sources of the export query leaves its context alone. -/
theorem RpcExports.cancelRpcExportsSources_eq (x : RpcExports) : ∃ dropped,
    x.cancelRpcExportsSources =
      { x with
        rpcExportsReadSource := none
        rpcExportsWriteSource := none
        rpcExportsWriteSuspended := true
        dropped := dropped } := by
  unfold cancelRpcExportsSources
  obtain ⟨ctx, readSource, writeSource, suspended, done, contID, made, dropped⟩ := x
  cases readSource with
  | none =>
    cases writeSource with
    | none => exact ⟨_, rfl⟩
    | some ws => cases suspended <;> exact ⟨_, rfl⟩
  | some rs =>
    cases writeSource with
    | none => exact ⟨_, rfl⟩
    | some ws => cases suspended <;> exact ⟨_, rfl⟩

namespace State

theorem recordCompletion_eq (s : State) (c : OperationCategory) (ok : Bool) :
    s.recordCompletion c ok =
      { s with
        inFlightCount := Function.update s.inFlightCount c (max 0 (s.inFlightCount c - 1))
        clamped := Function.update s.clamped c (s.clamped c || s.inFlightCount c - 1 < 0)
        bulkController := if c = .bulk then (s.controller c).record ok else s.bulkController
        metadataController :=
          if c = .metadata then (s.controller c).record ok else s.metadataController } := by
  cases c <;> rfl

/-- A completion feeds the controller of its own category. -/
theorem recordCompletion_controller (s : State) (d : OperationCategory) (ok : Bool)
    (c : OperationCategory) :
    (s.recordCompletion d ok).controller c =
      if d = c then (s.controller c).record ok else s.controller c := by
  rw [recordCompletion_eq]
  cases d <;> cases c <;> simp only [Core.controller, if_true, if_false, reduceCtorEq]

theorem runCleanup_eq (s : State) (cb : CallbackData) :
    s.runCleanup cb =
      { s with buffers := if cb.cleanup then (s.deallocate cb.caller).buffers else s.buffers } := by
  unfold runCleanup
  split <;> rfl

/-- `resume` marks the object, and resumes the continuation only the first time. -/
theorem resume_eq (s : State) (cb : CallbackData) (r : Outcome) :
    s.resume cb r =
      { s with
        hasResumed := Function.update s.hasResumed cb.caller true
        outcomes :=
          if s.hasResumed cb.caller then s.outcomes
          else Function.update s.outcomes cb.caller (s.outcomes cb.caller ++ [r])
        preconditionFailed := s.preconditionFailed || !s.onQueue } := by
  unfold resume resumeContinuation
  by_cases h : s.hasResumed cb.caller
  · have hself : Function.update s.hasResumed cb.caller true = s.hasResumed :=
      Function.update_eq_self_iff.mpr h.symm
    simp [h, hself]
  · simp [h]

theorem resume_outcomes (s : State) (cb : CallbackData) (r : Outcome) (i : Nat) :
    (s.resume cb r).outcomes i =
      if i = cb.caller ∧ s.hasResumed i = false then s.outcomes i ++ [r] else s.outcomes i := by
  rw [resume_eq]
  show (if s.hasResumed cb.caller then s.outcomes
    else Function.update s.outcomes cb.caller (s.outcomes cb.caller ++ [r])) i = _
  by_cases hi : i = cb.caller
  · subst hi
    cases s.hasResumed cb.caller <;> simp
  · cases s.hasResumed cb.caller <;> simp [hi]

theorem resume_hasResumed (s : State) (cb : CallbackData) (r : Outcome) (i : Nat) :
    (s.resume cb r).hasResumed i = (s.hasResumed i || decide (i = cb.caller)) := by
  rw [resume_eq]
  show Function.update s.hasResumed cb.caller true i = _
  by_cases hi : i = cb.caller
  · subst hi
    simp
  · simp [hi]

theorem resume_nextCaller (s : State) (cb : CallbackData) (r : Outcome) :
    (s.resume cb r).nextCaller = s.nextCaller := by
  rw [resume_eq]

theorem resume_activeContinuations (s : State) (cb : CallbackData) (r : Outcome) :
    (s.resume cb r).activeContinuations = s.activeContinuations := by
  rw [resume_eq]

theorem resume_stack (s : State) (cb : CallbackData) (r : Outcome) :
    (s.resume cb r).stack = s.stack := by
  rw [resume_eq]

/-- The end of a completion hook touches the stack and the caller, and nothing else. -/
theorem finishHook_eq (s : State) : ∃ stack resumed outcomes failed, s.finishHook =
    { s with
      stack := stack
      hasResumed := resumed
      outcomes := outcomes
      preconditionFailed := failed } := by
  unfold finishHook
  split
  · rw [resume_eq]
    exact ⟨_, _, _, _, rfl⟩
  · exact ⟨s.stack, s.hasResumed, s.outcomes, s.preconditionFailed, rfl⟩

theorem resume_outcomes_mono (s : State) (cb : CallbackData) (r : Outcome) {i : Nat}
    (h : s.outcomes i ≠ []) : (s.resume cb r).outcomes i ≠ [] := by
  rw [resume_outcomes]
  split
  · simp
  · exact h

theorem resumeContinuation_ne_nil (s : State) (i : Nat) (r : Outcome) :
    (s.resumeContinuation i r).outcomes i ≠ [] := by
  simp [resumeContinuation]

theorem resumeContinuation_mono (s : State) (i : Nat) (r : Outcome) {j : Nat}
    (h : s.outcomes j ≠ []) : (s.resumeContinuation i r).outcomes j ≠ [] := by
  by_cases hj : j = i
  · subst hj
    exact s.resumeContinuation_ne_nil j r
  · simpa [resumeContinuation, hj] using h

/-- The end of a teardown resumes the callers of the snapshot that have not been resumed. -/
theorem foldl_resume_eq (l : List CallbackData) (s : State) (r : Outcome) :
    l.foldl (fun s cb => s.resume cb r) s =
      { s with
        hasResumed := fun k => s.hasResumed k || decide (k ∈ l.map CallbackData.caller)
        outcomes := fun k =>
          if s.hasResumed k = false ∧ k ∈ l.map CallbackData.caller then s.outcomes k ++ [r]
          else s.outcomes k
        preconditionFailed := s.preconditionFailed || (!s.onQueue && !l.isEmpty) } := by
  induction l generalizing s with
  | nil => simp
  | cons cb l ih =>
    rw [List.foldl_cons, ih, resume_eq]
    have hres : (fun k => Function.update s.hasResumed cb.caller true k ||
        decide (k ∈ l.map CallbackData.caller)) =
        fun k => s.hasResumed k || decide (k ∈ (cb :: l).map CallbackData.caller) := by
      funext k
      by_cases hk : k = cb.caller
      · subst hk; simp
      · simp [hk]
    have hout : (fun k =>
        if Function.update s.hasResumed cb.caller true k = false ∧ k ∈ l.map CallbackData.caller then
          (if s.hasResumed cb.caller then s.outcomes
            else Function.update s.outcomes cb.caller (s.outcomes cb.caller ++ [r])) k ++ [r]
        else
          (if s.hasResumed cb.caller then s.outcomes
            else Function.update s.outcomes cb.caller (s.outcomes cb.caller ++ [r])) k) =
        fun k =>
          if s.hasResumed k = false ∧ k ∈ (cb :: l).map CallbackData.caller then s.outcomes k ++ [r]
          else s.outcomes k := by
      funext k
      by_cases hk : k = cb.caller
      · subst hk
        by_cases h : s.hasResumed cb.caller <;> simp [h]
      · by_cases h : s.hasResumed cb.caller <;> simp [h, hk]
    have hpre : ((s.preconditionFailed || !s.onQueue) || (!s.onQueue && !l.isEmpty)) =
        (s.preconditionFailed || (!s.onQueue && !(cb :: l).isEmpty)) := by
      cases s.preconditionFailed <;> cases s.onQueue <;> simp
    simp only [hres, hout, hpre]

/-- Disposing of the buffer changes nothing but the buffers. -/
theorem settle_eq (s : State) (cb : CallbackData) (status : Int) (data : Option Value) :
    ∃ b, (s.settle cb status data).2.2 = { s with buffers := b } := by
  have hhandler : ∃ b, (s.dataHandler cb status data).2 = { s with buffers := b } := by
    unfold dataHandler
    cases cb.dataHandler <;> cases data <;> simp only <;>
      first
        | exact ⟨s.buffers, rfl⟩
        | (split <;> first | exact ⟨s.buffers, rfl⟩ | exact ⟨_, rfl⟩)
  unfold settle
  by_cases hentry : cb.entry = .getexports
  · by_cases hs : status = 0
    · simpa [hentry, hs] using hhandler
    · exact ⟨s.buffers, by simp [hentry, hs]⟩
  · by_cases hs : status < 0
    · simp only [hentry, hs, if_true, if_false]
      exact ⟨_, runCleanup_eq s cb⟩
    · simpa [hentry, hs] using hhandler

/-- Entering the completion hook pushes its frame and disposes of the reference and the buffer. -/
theorem enterHook_eq (s : State) (cb : CallbackData) (status : Int) (data : Option Value) :
    ∃ b r, s.enterHook cb status data =
      { s with
        fates := Function.update s.fates cb.caller (some (.called status))
        retained := Function.update s.retained cb.caller (s.retained cb.caller - 1)
        buffers := b
        stack := .completionHook cb r :: s.stack } := by
  obtain ⟨b, hb⟩ := settle_eq ((s.setFate cb.caller (.called status)).release cb) cb status data
  unfold enterHook
  simp only [hb]
  exact ⟨b, _, rfl⟩

/-- Noting a delivered object only extends the lists of such objects. -/
theorem noteDelivery_eq {s s' : State} {cb : CallbackData} {status : Int} {data : Option Value}
    (h : s.noteDelivery cb status data = some s') :
    ∃ fhs dirs, s' = { s with nfsfhs := fhs, nfsdirs := dirs } := by
  unfold noteDelivery at h
  split at h
  · simp only [Option.some.injEq] at h
    exact ⟨s.nfsfhs, s.nfsdirs, h.symm⟩
  · split at h
    · split at h
      · cases h
      · simp only [Option.some.injEq] at h
        exact ⟨_, s.nfsdirs, h.symm⟩
    · split at h
      · cases h
      · simp only [Option.some.injEq] at h
        exact ⟨s.nfsfhs, _, h.symm⟩
    · simp only [Option.some.injEq] at h
      exact ⟨s.nfsfhs, s.nfsdirs, h.symm⟩

/-- A request taken to be called back is the one the call hands over, or one libnfs has accepted on
the context of the call. -/
theorem takeRequest_cases {s s₁ : State} {f : Frame} {rest : List Frame} {id : Nat}
    {cb : CallbackData} (h : s.takeRequest f rest id = some (cb, s₁)) :
    cb.continuationID = id ∧
      ((f.inCall = some cb ∧ s₁ = { s with stack := f.noteCallback cb.caller :: rest }) ∨
        ∃ r ∈ s.outstanding, r.cb = cb ∧ f.ctx = some r.ctx ∧
          s₁ = { s with
            outstanding := s.outstanding.erase r, stack := f.noteCallback cb.caller :: rest }) := by
  unfold takeRequest at h
  cases hf : f.inCall.filter (·.continuationID = id) with
  | some c =>
    simp only [hf, Option.some.injEq, Prod.mk.injEq] at h
    obtain ⟨rfl, rfl⟩ := h
    obtain ⟨hcall, hid⟩ := Option.filter_eq_some_iff.mp hf
    exact ⟨by simpa using hid, .inl ⟨hcall, rfl⟩⟩
  | none =>
    simp only [hf, Option.map_eq_some_iff, Prod.mk.injEq] at h
    obtain ⟨r, hr, rfl, rfl⟩ := h
    have hp := List.find?_some hr
    simp only [Bool.decide_and, Bool.and_eq_true, decide_eq_true_eq] at hp
    exact ⟨hp.2, .inr ⟨r, List.mem_of_find?_eq_some hr, rfl, hp.1.symm, rfl⟩⟩

/-- Where a request comes from that is called back inside the call `f`: `f` is handing it over, or
libnfs holds it on the context of the call; `out` are the requests libnfs holds afterwards. -/
def Taken (s : State) (f : Frame) (cb : CallbackData) (out : List Request) : Prop :=
  (f.inCall = some cb ∧ out = s.outstanding) ∨
    ∃ r ∈ s.outstanding, r.cb = cb ∧ f.ctx = some r.ctx ∧ out = s.outstanding.erase r

/-- The state in which the completion hook of a callback begins. -/
theorem callback_eq {s s₁ s₂ : State} {f : Frame} {rest : List Frame} {id : Nat}
    {cb : CallbackData} {status : Int} {data : Option Value}
    (htake : s.takeRequest f rest id = some (cb, s₁))
    (hnote : s₁.noteDelivery cb status data = some s₂) :
    ∃ out fhs dirs b r, s.Taken f cb out ∧ s₂.enterHook cb status data =
      { s with
        outstanding := out
        nfsfhs := fhs
        nfsdirs := dirs
        fates := Function.update s.fates cb.caller (some (.called status))
        retained := Function.update s.retained cb.caller (s.retained cb.caller - 1)
        buffers := b
        stack := .completionHook cb r :: f.noteCallback cb.caller :: rest } := by
  obtain ⟨b, r, henter⟩ := enterHook_eq s₂ cb status data
  obtain ⟨fhs, dirs, rfl⟩ := noteDelivery_eq hnote
  obtain ⟨-, ⟨hcall, heq⟩ | ⟨q, hq, hcb, hctx, heq⟩⟩ := takeRequest_cases htake
  · refine ⟨s.outstanding, fhs, dirs, b, r, .inl ⟨hcall, rfl⟩, ?_⟩
    rw [henter, heq]
  · refine ⟨s.outstanding.erase q, fhs, dirs, b, r, .inr ⟨q, hq, hcb, hctx, rfl⟩, ?_⟩
    rw [henter, heq]

theorem enqueueRequest_eq (s : State) (ctx : Ctx) (cb : CallbackData) (ran : List Nat) :
    s.enqueueRequest ctx cb ran =
      { s with
        outstanding := if cb.caller ∈ ran then s.outstanding else s.outstanding ++ [⟨ctx, cb⟩] } := by
  unfold enqueueRequest
  split <;> rfl

theorem endTeardown_eq (s : State) (kind : Teardown) (l : List CallbackData) :
    ∃ bulk metadata counts, s.endTeardown kind l =
      { l.foldl (fun s cb => s.resume cb (.failure .ENOTCONN)) s with
        bulkController := bulk
        metadataController := metadata
        inFlightCount := counts
        teardowns := s.teardowns + 1 } := by
  unfold endTeardown
  rw [foldl_resume_eq]
  cases kind
  · exact ⟨_, _, _, rfl⟩
  · exact ⟨_, _, _, rfl⟩

theorem endTeardown_context (s : State) (kind : Teardown) (l : List CallbackData) :
    (s.endTeardown kind l).context = s.context := by
  obtain ⟨bulk, metadata, counts, heq⟩ := endTeardown_eq s kind l
  rw [heq, foldl_resume_eq]

theorem endTeardown_nextCaller (s : State) (kind : Teardown) (l : List CallbackData) :
    (s.endTeardown kind l).nextCaller = s.nextCaller := by
  obtain ⟨bulk, metadata, counts, heq⟩ := endTeardown_eq s kind l
  rw [heq, foldl_resume_eq]

theorem endTeardown_activeContinuations (s : State) (kind : Teardown) (l : List CallbackData) :
    (s.endTeardown kind l).activeContinuations = s.activeContinuations := by
  obtain ⟨bulk, metadata, counts, heq⟩ := endTeardown_eq s kind l
  rw [heq, foldl_resume_eq]

theorem endTeardown_stack (s : State) (kind : Teardown) (l : List CallbackData) :
    (s.endTeardown kind l).stack = s.stack := by
  obtain ⟨bulk, metadata, counts, heq⟩ := endTeardown_eq s kind l
  rw [heq, foldl_resume_eq]

/-- What an expiry does to the registry, and what it leaves alone. -/
theorem expire_fields (s : State) (cb : CallbackData) :
    (s.expire cb).stack = s.stack ∧ (s.expire cb).pendingOperations = s.pendingOperations ∧
      (s.expire cb).outstanding = s.outstanding ∧
      (s.expire cb).activeContinuations =
        s.activeContinuations.filter (·.continuationID ≠ cb.continuationID) := by
  unfold expire
  rw [resume_eq, recordCompletion_eq]
  exact ⟨rfl, rfl, rfl, rfl⟩

theorem expire_outcomes (s : State) (cb : CallbackData) (i : Nat) :
    (s.expire cb).outcomes i = if i = cb.caller ∧ s.hasResumed i = false then
      s.outcomes i ++ [.failure .ETIMEDOUT] else s.outcomes i := by
  unfold expire
  rw [resume_outcomes, recordCompletion_eq]
  rfl

theorem foldl_expire_stack (l : List CallbackData) (s : State) :
    (l.foldl expire s).stack = s.stack := by
  induction l generalizing s with
  | nil => rfl
  | cons cb l ih => rw [List.foldl_cons, ih, (expire_fields s cb).1]

end State

end NFSKit
