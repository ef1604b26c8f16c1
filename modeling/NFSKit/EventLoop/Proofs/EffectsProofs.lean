import NFSKit.EventLoop.Proofs.FieldsProofs

/-!
# What the actions can do

For all actions at once: which operations, requests, queue entries and frames they can add, and what
they do to the fields that few actions touch.
-/

namespace NFSKit

open Machine

variable {s s' : State} {k k' : Config} {a : Action}

namespace Action

/-- The operation that an action makes. -/
def made : Action → Option CallbackData
  | .start _ cb | .overflow cb | .enqueue _ cb => some cb
  | _ => none

/-- The read buffer that an action releases. -/
def released : Action → Option Nat
  | .releaseBuffer b => some b
  | _ => none

/-- Whether an action pushes the frame. -/
def pushes : Action → Frame → Prop
  | .start site cb, f => f = .handOver site cb []
  | .execute i op, f => f = .handOver (.pending i op) op.cbData []
  | .enterClose _ fh, f => f = .close fh
  | .enter g, f => f = g
  | .callback _ cb _ _, f => ∃ r, f = .completionHook cb r
  | .reject _ cb _, f => ∃ n, f = .rpcDestroy n (.getexports cb)
  | .enterRpcDestroy n next, f => f = .rpcDestroy n next
  | .enterDestroy kind, f => ∃ conts, f = .destroy kind conts
  | _, _ => False

end Action

/-- What an action adds to the lists of the state, and what it does to the fields that few actions
touch. -/
structure Effects (s s' : State) (a : Action) : Prop where
  created : s'.created = a.made.toList ++ s.created
  nextCaller : s.nextCaller ≤ s'.nextCaller
  outcomes : ∀ i, s.outcomes i ≠ [] → s'.outcomes i ≠ []
  releasedBuffers : s'.releasedBuffers = a.released.toList ++ s.releasedBuffers
  handles : (∃ opener fh, a = .registerHandle opener fh) ∨
    s'.registrations = s.registrations ∧ s'.nextHandleID = s.nextHandleID ∧
      ∀ p ∈ s'.handleRegistry, p ∈ s.handleRegistry
  pending : ∀ op ∈ s'.pendingOperations, op ∈ s.pendingOperations ∨
    ∃ type cb, a = .enqueue type cb ∧ op = ⟨cb.continuationID, type, cb⟩
  outstanding : ∀ r ∈ s'.outstanding, r ∈ s.outstanding ∨
    ∃ site cb ran, a = .accept site cb ran ∧ r = ⟨site.ctx, cb⟩
  frames : ∀ f ∈ s'.stack, f ∈ s.stack ∨
    (∃ g ∈ s.stack, ∃ cb status data, a = .callback g cb status data ∧
      f = g.noteCallback cb.caller) ∨ a.pushes f

namespace Effects

/-- Nothing that matters here changes but the callers, and the lists only shrink. -/
theorem shrink (hcreated : s'.created = s.created) (hnext : s.nextCaller ≤ s'.nextCaller)
    (hout : ∀ i, s.outcomes i ≠ [] → s'.outcomes i ≠ [])
    (hreleased : s'.releasedBuffers = s.releasedBuffers)
    (hregistrations : s'.registrations = s.registrations)
    (hhandle : s'.nextHandleID = s.nextHandleID)
    (hregistry : ∀ p ∈ s'.handleRegistry, p ∈ s.handleRegistry)
    (hpending : ∀ op ∈ s'.pendingOperations, op ∈ s.pendingOperations)
    (hrequests : ∀ r ∈ s'.outstanding, r ∈ s.outstanding) (hstack : ∀ f ∈ s'.stack, f ∈ s.stack)
    (hmade : a.made = none) (hfreed : a.released = none) : Effects s s' a where
  created := by
    rw [hmade]
    exact hcreated
  nextCaller := hnext
  outcomes := hout
  releasedBuffers := by
    rw [hfreed]
    exact hreleased
  handles := .inr ⟨hregistrations, hhandle, hregistry⟩
  pending := fun op h => .inl (hpending op h)
  outstanding := fun r h => .inl (hrequests r h)
  frames := fun f h => .inl (hstack f h)

/-- Nothing that matters here changes. -/
theorem same (hcore : s'.toCore = s.toCore) (hmade : a.made = none) (hfreed : a.released = none) :
    Effects s s' a := by
  refine .shrink ?_ ?_ ?_ ?_ ?_ ?_ ?_ ?_ ?_ ?_ hmade hfreed <;> rw [hcore] <;> exact fun _ h => h

/-- A frame is pushed. -/
theorem push {f : Frame} (he : Effects s s' a) (hf : a.pushes f) :
    Effects s { s' with stack := f :: s'.stack } a :=
  { he with
    frames := by
      intro g hg
      rcases List.mem_cons.mp hg with rfl | hg
      · exact .inr (.inr hf)
      · exact he.frames g hg }

/-- The innermost call is over. -/
theorem leave {f : Frame} {rest : List Frame} (hstack : s.stack = f :: rest) (hmade : a.made = none)
    (hfreed : a.released = none) : Effects s (s.leaveTo rest) a :=
  .shrink rfl (le_refl _) (fun _ h => h) rfl rfl rfl (fun _ h => h) (fun _ h => h) (fun _ h => h)
    (fun _ h => hstack ▸ List.mem_cons_of_mem _ h) hmade hfreed

theorem resumeContinuation {i : Nat} {r : Outcome} (he : Effects s s' a) :
    Effects s (s'.resumeContinuation i r) a :=
  { he with
    outcomes := fun j h => State.resumeContinuation_mono s' i r (he.outcomes j h) }

theorem resume {cb : CallbackData} {r : Outcome} (he : Effects s s' a) :
    Effects s (s'.resume cb r) a := by
  have hmono := fun i h => State.resume_outcomes_mono s' cb r (he.outcomes i h)
  rw [State.resume_eq] at hmono ⊢
  exact { he with outcomes := hmono }

theorem endTeardown {kind : Teardown} {l : List CallbackData} (he : Effects s s' a) :
    Effects s (s'.endTeardown kind l) a := by
  obtain ⟨bulk, metadata, counts, heq⟩ := State.endTeardown_eq s' kind l
  rw [heq, State.foldl_resume_eq]
  refine { he with outcomes := fun i h => ?_ }
  dsimp only
  split
  · simp
  · exact he.outcomes i h

theorem dropRequests {ctx : Ctx} (he : Effects s s' a) : Effects s (s'.dropRequests ctx) a :=
  { he with outstanding := fun r h => he.outstanding r (List.mem_of_mem_filter h) }

theorem clearRegistries (kind : Teardown) (hmade : a.made = none) (hfreed : a.released = none) :
    Effects s (s.clearRegistries kind) a := by
  refine .shrink ?_ ?_ ?_ ?_ ?_ ?_ ?_ ?_ ?_ ?_ hmade hfreed <;> cases kind <;>
    simp [State.clearRegistries]

/-- A callback enters its completion hook. -/
theorem enterHook {s₁ s₂ : State} {f : Frame} {rest : List Frame} {cb : CallbackData} {status : Int}
    {data : Option Value} (hstack : s.stack = f :: rest)
    (htake : s.takeRequest f rest cb.continuationID = some (cb, s₁))
    (hnote : s₁.noteDelivery cb status data = some s₂) :
    Effects s (s₂.enterHook cb status data) (.callback f cb status data) := by
  obtain ⟨out, fhs, dirs, b, r, htaken, heq⟩ := State.callback_eq htake hnote
  have hout : ∀ q ∈ out, q ∈ s.outstanding := by
    obtain ⟨-, rfl⟩ | ⟨q, -, -, -, rfl⟩ := htaken
    · exact fun _ h => h
    · exact fun _ h => List.mem_of_mem_erase h
  rw [heq]
  refine ⟨rfl, le_refl _, fun _ h => h, rfl, .inr ⟨rfl, rfl, fun _ h => h⟩, fun _ h => .inl h,
    fun q h => .inl (hout q h), fun g hg => ?_⟩
  rw [hstack]
  rcases List.mem_cons.mp hg with rfl | hg
  · exact .inr (.inr ⟨r, rfl⟩)
  rcases List.mem_cons.mp hg with rfl | hg
  · exact .inr (.inl ⟨f, List.mem_cons_self .., cb, status, data, rfl, rfl⟩)
  · exact .inl (List.mem_cons_of_mem _ hg)

end Effects

/-- What each action can do. -/
theorem Act.effects (h : Act k a k') : Effects k.state k'.state a := by
  cases h with
  | silent hcore => exact .same hcore rfl rfl
  | releaseBuffer =>
    exact ⟨rfl, le_refl _, fun _ h => h, rfl, .inr ⟨rfl, rfl, fun _ h => h⟩, fun _ h => .inl h,
      fun _ h => .inl h, fun _ h => .inl h⟩
  | immediate =>
    refine .resumeContinuation ?_
    exact .shrink rfl (Nat.le_succ _) (fun _ h => h) rfl rfl rfl (fun _ h => h) (fun _ h => h)
      (fun _ h => h) (fun _ h => h) rfl rfl
  | @start s site cb =>
    have he : Effects s ((s.newCaller.register cb).passRetained cb) (.start site cb) :=
      ⟨rfl, Nat.le_succ _, fun _ h => h, rfl, .inr ⟨rfl, rfl, fun _ h => h⟩, fun _ h => .inl h,
        fun _ h => .inl h, fun _ h => .inl h⟩
    exact { he.push (f := .handOver site cb []) rfl with }
  | overflow =>
    refine .resumeContinuation ?_
    dsimp only [State.removeActive, State.register, State.newCaller]
    exact ⟨rfl, Nat.le_succ _, fun _ h => h, rfl, .inr ⟨rfl, rfl, fun _ h => h⟩, fun _ h => .inl h,
      fun _ h => .inl h, fun _ h => .inl h⟩
  | @enqueue s type cb =>
    refine ⟨rfl, Nat.le_succ _, fun _ h => h, rfl, .inr ⟨rfl, rfl, fun _ h => h⟩, fun op h => ?_,
      fun _ h => .inl h, fun _ h => .inl h⟩
    rcases List.mem_append.mp h with h | h
    · exact .inl h
    · exact .inr ⟨type, cb, rfl, List.mem_singleton.mp h⟩
  | closing | dropHandle =>
    exact .shrink rfl (le_refl _) (fun _ h => h) rfl rfl rfl (fun _ h => List.mem_of_mem_filter h)
      (fun _ h => h) (fun _ h => h) (fun _ h => h) rfl rfl
  | @enterClose s h fh =>
    have he : Effects s { s with
        handleRegistry := s.handleRegistry.filter (·.1 ≠ h)
        closedHandles := fh :: s.closedHandles } (.enterClose h fh) :=
      .shrink rfl (le_refl _) (fun _ h => h) rfl rfl rfl (fun _ h => List.mem_of_mem_filter h)
        (fun _ h => h) (fun _ h => h) (fun _ h => h) rfl rfl
    exact he.push rfl
  | registerHandle =>
    exact ⟨rfl, le_refl _, fun _ h => h, rfl, .inl ⟨_, _, rfl⟩, fun _ h => .inl h,
      fun _ h => .inl h, fun _ h => .inl h⟩
  | enter => exact Effects.push (.same rfl rfl rfl) rfl
  | leave hstack => exact .leave hstack rfl rfl
  | @expire s cb =>
    dsimp only [State.expire]
    refine .resume ?_
    rw [State.recordCompletion_eq]
    exact .shrink rfl (le_refl _) (fun _ h => h) rfl rfl rfl (fun _ h => h) (fun _ h => h)
      (fun _ h => h) (fun _ h => h) rfl rfl
  | callback _ hstack htake hnote =>
    rw [State.recordCompletion_eq]
    exact { Effects.enterHook hstack htake hnote with }
  | callbackDead _ hstack htake hnote => exact .enterHook hstack htake hnote
  | @execute s i op =>
    have he : Effects s { s with pendingOperations := s.pendingOperations.eraseIdx i }
        (.execute i op) :=
      .shrink rfl (le_refl _) (fun _ h => h) rfl rfl rfl (fun _ h => h)
        (fun _ h => List.mem_of_mem_eraseIdx h) (fun _ h => h) (fun _ h => h) rfl rfl
    exact { he.push (f := .handOver (.pending i op) op.cbData []) rfl with }
  | @finishHook s =>
    unfold State.finishHook
    split
    · rename_i hstack
      exact .resume (.leave hstack rfl rfl)
    · exact .same rfl rfl rfl
  | @accept s site cb ran rest hstack =>
    have he : Effects s (s.leaveTo rest) (.accept site cb ran) := .leave hstack rfl rfl
    have hrequests : ∀ r ∈ (if cb.caller ∈ ran then s.outstanding
        else s.outstanding ++ [⟨site.ctx, cb⟩]), r ∈ s.outstanding ∨
          ∃ site' cb' ran', Action.accept site cb ran = .accept site' cb' ran' ∧
            r = ⟨site'.ctx, cb'⟩ := by
      intro r hr
      split at hr
      · exact .inl hr
      · rcases List.mem_append.mp hr with hr | hr
        · exact .inl hr
        · exact .inr ⟨site, cb, ran, rfl, List.mem_singleton.mp hr⟩
    rw [State.enqueueRequest_eq]
    split <;> exact { he with outstanding := hrequests }
  | reject hstack | rejectPending hstack =>
    exact .resume { Effects.leave hstack rfl rfl with }
  | rejectRaw hstack | rejectHandle hstack =>
    exact .resumeContinuation { Effects.leave hstack rfl rfl with }
  | @rejectExports s n m cb ran rest hstack =>
    have he : Effects s (s.leaveTo rest) (.reject (.getexports n) cb ran) := .leave hstack rfl rfl
    exact { he.push (f := .rpcDestroy m (.getexports cb)) ⟨m, rfl⟩ with }
  | enterRpcDestroy => exact Effects.push (.same rfl rfl rfl) rfl
  | leaveRpcDestroy hstack => exact .dropRequests (.leave hstack rfl rfl)
  | exportsFailed hstack =>
    exact .resumeContinuation (.dropRequests (.leave hstack rfl rfl))
  | @enterDestroy s kind =>
    have he : Effects s (s.clearRegistries kind) (.enterDestroy kind) :=
      .clearRegistries kind rfl rfl
    have hstack : (s.clearRegistries kind).stack = s.stack := by cases kind <;> rfl
    have hpush := he.push (f := .destroy kind s.activeContinuations) ⟨_, rfl⟩
    rw [hstack] at hpush
    exact { hpush with }
  | leaveDestroy hstack => exact .endTeardown (.dropRequests (.leave hstack rfl rfl))
  | @teardownNow s kind => exact .endTeardown (.clearRegistries kind rfl rfl)
  | deinit | startTeardown | readdirAll | dropDir | skip | drained | alreadyDown =>
    exact .shrink rfl (le_refl _) (fun _ h => h) rfl rfl rfl (fun _ h => h) (fun _ h => h)
      (fun _ h => h) (fun _ h => h) rfl rfl

/-- The loop itself goes only with its last reference, the context only in a teardown, and an operation
is handed over only when its queue block starts or when it comes out of the queue. -/
theorem Act.rarely (h : Act k a k') :
    (k'.state.alive = k.state.alive ∨ a = .deinit) ∧
      (k'.state.context = k.state.context ∨
        k'.state.context = none ∧ ∃ kind, a = .enterDestroy kind) ∧
        (k'.state.handOvers = k.state.handOvers ∨ (∃ site cb, a = .start site cb) ∨
          ∃ i op, a = .execute i op) := by
  have same {s s' : State} (ha : s'.alive = s.alive) (hc : s'.context = s.context)
      (hh : s'.handOvers = s.handOvers) :
      (s'.alive = s.alive ∨ a = .deinit) ∧
        (s'.context = s.context ∨ s'.context = none ∧ ∃ kind, a = .enterDestroy kind) ∧
        (s'.handOvers = s.handOvers ∨ (∃ site cb, a = .start site cb) ∨
          ∃ i op, a = .execute i op) :=
    ⟨.inl ha, .inl hc, .inl hh⟩
  cases h with
  | silent hcore halive => exact same halive (by rw [hcore]) (by rw [hcore])
  | deinit => exact ⟨.inr rfl, .inl rfl, .inl rfl⟩
  | start =>
    dsimp only [State.handOver, State.passRetained, State.register, State.newCaller]
    exact ⟨.inl rfl, .inl rfl, .inr (.inl ⟨_, _, rfl⟩)⟩
  | execute => exact ⟨.inl rfl, .inl rfl, .inr (.inr ⟨_, _, rfl⟩)⟩
  | immediate | overflow =>
    dsimp only [State.resumeContinuation, State.removeActive, State.register, State.newCaller]
    exact same rfl rfl rfl
  | expire =>
    dsimp only [State.expire]
    rw [State.resume_eq, State.recordCompletion_eq]
    exact same rfl rfl rfl
  | callback _ _ htake hnote =>
    obtain ⟨out, fhs, dirs, b, r, -, heq⟩ := State.callback_eq htake hnote
    rw [State.recordCompletion_eq, heq]
    exact same rfl rfl rfl
  | callbackDead _ _ htake hnote =>
    obtain ⟨out, fhs, dirs, b, r, -, heq⟩ := State.callback_eq htake hnote
    rw [heq]
    exact same rfl rfl rfl
  | @finishHook s =>
    obtain ⟨stack, resumed, outcomes, failed, heq⟩ := State.finishHook_eq s
    rw [heq]
    exact same rfl rfl rfl
  | accept =>
    rw [State.enqueueRequest_eq]
    split <;> exact same rfl rfl rfl
  | reject | rejectPending =>
    rw [State.resume_eq]
    exact same rfl rfl rfl
  | @enterDestroy s kind => cases kind <;> exact ⟨.inl rfl, .inr ⟨rfl, _, rfl⟩, .inl rfl⟩
  | @leaveDestroy s kind conts rest =>
    obtain ⟨bulk, metadata, counts, heq⟩ :=
      State.endTeardown_eq ((s.leaveTo rest).dropRequests .nfs) kind conts
    rw [heq, State.foldl_resume_eq]
    exact same rfl rfl rfl
  | @teardownNow s kind =>
    obtain ⟨bulk, metadata, counts, heq⟩ :=
      State.endTeardown_eq (s.clearRegistries kind) kind s.activeContinuations
    rw [heq, State.foldl_resume_eq]
    cases kind <;> exact same rfl rfl rfl
  | _ => exact same rfl rfl rfl

/-- A context that is there was there before. -/
theorem Act.context_isSome (h : Act k a k') (hctx : k'.state.context.isSome) :
    k.state.context.isSome := by
  rcases h.rarely.2.1 with heq | ⟨hnone, -⟩
  · exact heq ▸ hctx
  · rw [hnone] at hctx
    cases hctx

/-- What is made gets the next caller. -/
theorem Act.made_fresh (h : Act k a k') {cb : CallbackData} (hcb : a.made = some cb) :
    cb.WellMade ∧ cb.caller = k.state.nextCaller := by
  cases h with
  | start _ _ _ _ hcaller hmade | overflow _ _ hcaller hmade
  | enqueue _ _ hcaller _ _ _ _ hmade =>
    cases hcb
    exact ⟨hmade, hcaller⟩
  | _ => cases hcb

/-- An operation that is being handed over was so before, or the action begins to hand it over. -/
theorem Act.handOver_mem (h : Act k a k') {site : Site} {cb : CallbackData} {ran : List Nat}
    (hf : Frame.handOver site cb ran ∈ k'.state.stack) :
    (∃ ran', Frame.handOver site cb ran' ∈ k.state.stack) ∨ a = .start site cb ∨
      ∃ i op, site = .pending i op ∧ op ∈ k.state.pendingOperations ∧ cb = op.cbData := by
  rcases h.effects.frames _ hf with hf | ⟨g, hg, _, _, _, -, heq⟩ | hpush
  · exact .inl ⟨ran, hf⟩
  · cases g with
    | handOver site' cb' ran' =>
      injection heq with h₁ h₂
      exact .inl ⟨ran', by rw [h₁, h₂]; exact hg⟩
    | _ => cases heq
  · cases h with
    | start =>
      injection hpush with h₁ h₂
      exact .inr (.inl (by rw [h₁, h₂]))
    | @execute s i op hctx hop =>
      injection hpush with h₁ h₂
      exact .inr (.inr ⟨i, op, h₁, List.mem_of_getElem? hop, h₂⟩)
    | enter hstack hservice =>
      have hpush : Frame.handOver site cb ran = _ := hpush
      obtain rfl | ⟨n, rfl⟩ := hservice <;> cases hpush
    | callback | callbackDead | enterDestroy | reject | rejectPending | rejectRaw | rejectHandle
    | rejectExports =>
      obtain ⟨_, h⟩ := hpush
      cases h
    | _ => cases hpush

/-- What is handed over by an action: an operation whose queue block starts, or a queued one; libnfs has
its context. -/
theorem Act.handed (h : Act k a k') :
    k'.state.handOvers = k.state.handOvers ∨
      ∃ x, k'.state.handOvers = x :: k.state.handOvers ∧ k.state.context.isSome ∧
        ((∃ site, a = .start site x.cb) ∨
          ∃ i op, a = .execute i op ∧ op ∈ k.state.pendingOperations ∧ x.cb = op.cbData) := by
  rcases h.rarely.2.2 with heq | ⟨site, cb, rfl⟩ | ⟨i, op, rfl⟩
  · exact .inl heq
  · cases h with
    | start _ hctx => exact .inr ⟨_, rfl, hctx, .inl ⟨site, rfl⟩⟩
  · cases h with
    | execute hctx hop =>
      exact .inr ⟨_, rfl, hctx, .inr ⟨i, op, rfl, List.mem_of_getElem? hop, rfl⟩⟩

/-- Every queued operation is a submitted one. -/
def Submitted (s : State) : Prop :=
  ∀ op ∈ s.pendingOperations, op.cbData.entry = .submit op.type ∧ op.cbData.WellMade

theorem Submitted.act (hs : Submitted k.state) (h : Act k a k') : Submitted k'.state := by
  intro op hop
  rcases h.effects.pending op hop with hop | ⟨type, cb, rfl, rfl⟩
  · exact hs op hop
  · cases h with
    | enqueue _ _ _ _ hentry _ _ hmade => exact ⟨hentry, hmade⟩

theorem submitted_init (timeout : Int) : Submitted (State.init timeout) :=
  fun op hop => by cases hop

end NFSKit
