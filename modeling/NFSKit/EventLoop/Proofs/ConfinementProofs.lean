import NFSKit.EventLoop.Proofs.LedgerProofs

/-!
# Queue confinement

`CallbackData.resume` runs on the queue of the loop, unless the last reference to the loop is dropped
on another thread while libnfs still holds requests: the destruction of the context then runs their
callbacks on that thread. Nobody else is left to be resumed there, because whoever is registered is
still waiting, and whoever waits keeps the loop alive.
-/

namespace NFSKit

open Machine

variable {s s' : State} {k k' : Config} {a : Action}

/-! ## The registry -/

/-- Whoever is registered is still waiting, and a loop without references has nobody registered. -/
structure Registered (s : State) : Prop where
  waiting : ∀ cb ∈ s.activeContinuations, s.outcomes cb.caller = []
  hooks : ∀ cb r, Frame.completionHook cb r ∈ s.stack → cb ∉ s.activeContinuations
  dead : s.alive = false → s.activeContinuations = []

namespace Registered

/-- Fewer operations are registered, and none of them is resumed. -/
theorem shrink (hr : Registered s)
    (hactive : ∀ c ∈ s'.activeContinuations, c ∈ s.activeContinuations)
    (hout : ∀ c ∈ s'.activeContinuations, s'.outcomes c.caller = s.outcomes c.caller)
    (hhooks : ∀ c r, Frame.completionHook c r ∈ s'.stack → Frame.completionHook c r ∈ s.stack)
    (halive : s'.alive = s.alive) : Registered s' where
  waiting := by
    intro cb hcb
    rw [hout cb hcb]
    exact hr.waiting cb (hactive cb hcb)
  hooks := by
    intro cb r hf hcb
    exact hr.hooks cb r (hhooks cb r hf) (hactive cb hcb)
  dead := by
    intro hdead
    have hnil := hr.dead (halive ▸ hdead)
    rw [List.eq_nil_iff_forall_not_mem]
    intro c hc
    have hmem := hactive c hc
    rw [hnil] at hmem
    cases hmem

/-- The registry, the callers and the completion hooks are left alone. -/
theorem same (hr : Registered s) (hactive : s'.activeContinuations = s.activeContinuations)
    (hout : s'.outcomes = s.outcomes)
    (hhooks : ∀ c r, Frame.completionHook c r ∈ s'.stack → Frame.completionHook c r ∈ s.stack)
    (halive : s'.alive = s.alive) : Registered s' :=
  hr.shrink (fun c hc => hactive ▸ hc) (fun c _ => by rw [hout]) hhooks halive

/-- Nobody is registered. -/
theorem of_nil (h : s.activeContinuations = []) : Registered s where
  waiting := by simp [h]
  hooks := by simp [h]
  dead := fun _ => h

/-- An operation joins the registry between queue blocks. -/
theorem join {cb : CallbackData} (hk : Resumption s) (hr : Registered s)
    (hcaller : cb.caller = s.nextCaller)
    (hactive : s'.activeContinuations = s.activeContinuations ++ [cb])
    (hout : s'.outcomes = s.outcomes) (hhooks : ∀ c r, Frame.completionHook c r ∉ s'.stack)
    (halive : s'.alive) : Registered s' where
  waiting := by
    intro c hc
    rw [hout]
    rw [hactive] at hc
    rcases List.mem_append.mp hc with hc | hc
    · exact hr.waiting c hc
    · obtain rfl := List.mem_singleton.mp hc
      exact (hk.fresh c.caller hcaller.ge).1
  hooks := fun c r hf => absurd hf (hhooks c r)
  dead := by
    intro hdead
    rw [halive] at hdead
    cases hdead

/-- An operation that is resumed has left the registry. -/
theorem remove {cb : CallbackData} (hw : WellFormed s) (hr : Registered s) (hcb : cb ∈ s.created)
    (hactive : s'.activeContinuations =
      s.activeContinuations.filter (·.continuationID ≠ cb.continuationID))
    (hout : ∀ i, i ≠ cb.caller → s'.outcomes i = s.outcomes i)
    (hhooks : ∀ c r, Frame.completionHook c r ∈ s'.stack → Frame.completionHook c r ∈ s.stack)
    (halive : s'.alive = s.alive) : Registered s' := by
  have hleft : ∀ c ∈ s'.activeContinuations, c ∈ s.activeContinuations ∧ c ≠ cb := by
    intro c hc
    rw [hactive, List.mem_filter] at hc
    refine ⟨hc.1, ?_⟩
    rintro rfl
    simp at hc
  refine hr.shrink (fun c hc => (hleft c hc).1) ?_ hhooks halive
  intro c hc
  apply hout
  intro heq
  exact (hleft c hc).2 (hw.caller_inj c (hw.active_created c (hleft c hc).1) cb hcb heq)

end Registered

theorem Frame.completionHook_of_note {f : Frame} {i : Nat} {c : CallbackData} {r : Outcome}
    (h : Frame.completionHook c r = f.noteCallback i) : f = .completionHook c r := by
  cases f with
  | handOver => cases h
  | _ => exact h.symm

/-- One action keeps the registry to those who wait. -/
theorem Registered.act (hk : Sound k) (hr : Registered k.state) (h : Act k a k') :
    Registered k'.state := by
  have hw := hk.wellFormed
  have hlt : ∀ c ∈ k.state.activeContinuations, c.caller < k.state.nextCaller := fun c hc =>
    hw.caller_lt c (hw.active_created c hc)
  cases h with
  | silent hcore halive =>
    exact hr.same (by rw [hcore]) (by rw [hcore]) (by rw [hcore]; exact fun _ _ h => h) halive
  | @deinit s q hstack hnobody =>
    refine .of_nil ?_
    show s.activeContinuations = []
    rw [List.eq_nil_iff_forall_not_mem]
    intro c hc
    have hanswered := List.all_eq_true.mp hnobody c.caller (List.mem_range.mpr (hlt c hc))
    rw [hr.waiting c hc] at hanswered
    cases hanswered
  | @immediate s r =>
    refine hr.shrink (fun _ h => h) ?_ (fun _ _ h => h) rfl
    intro c hc
    have hold : c.caller < s.nextCaller := hlt c hc
    exact State.resumeContinuation_of_ne _ (by omega)
  | @start s site cb hstack hctx hsite hid hcaller =>
    have halive : s.alive := alive_of_context hk.ending hstack hctx
    refine hr.join hk.resumption hcaller rfl rfl ?_ halive
    intro c r hf
    have hf : Frame.completionHook c r ∈ Frame.handOver site cb [] :: s.stack := hf
    rw [hstack, List.mem_singleton] at hf
    cases hf
  | @overflow s cb r hctx hid hcaller =>
    have hleft : ∀ c ∈ (s.activeContinuations ++ [cb]).filter
        (·.continuationID ≠ cb.continuationID), c ∈ s.activeContinuations := by
      intro c hc
      obtain ⟨hc, hne⟩ := List.mem_filter.mp hc
      rcases List.mem_append.mp hc with hc | hc
      · exact hc
      · obtain rfl := List.mem_singleton.mp hc
        simp at hne
    refine hr.shrink hleft ?_ (fun _ _ h => h) rfl
    intro c hc
    have hold : c.caller < s.nextCaller := hlt c (hleft c hc)
    exact State.resumeContinuation_of_ne _ (by omega)
  | @enqueue s type cb hctx hid hcaller hcategory hentry hcap hroom hmade hcleanup hstack =>
    have halive : s.alive := alive_of_context hk.ending hstack hctx
    refine hr.join hk.resumption hcaller rfl rfl ?_ halive
    intro c r hf
    have hf : Frame.completionHook c r ∈ s.stack := hf
    rw [hstack] at hf
    cases hf
  | enterClose | execute | enterRpcDestroy =>
    refine hr.same rfl rfl ?_ rfl
    intro c r hf
    rcases List.mem_cons.mp hf with hf | hf
    · cases hf
    · exact hf
  | enter _ hservice =>
    refine hr.same rfl rfl ?_ rfl
    intro c r hf
    rcases List.mem_cons.mp hf with hf | hf
    · obtain rfl | ⟨n, rfl⟩ := hservice <;> cases hf
    · exact hf
  | leave hstack =>
    exact hr.same rfl rfl (fun c r hf => hstack ▸ List.mem_cons_of_mem _ hf) rfl
  | @expire s cb hstack hmem =>
    refine hr.remove hw (hw.active_created cb hmem) (s.expire_fields cb).2.2.2 ?_ ?_ ?_
    · intro i hi
      dsimp only [State.expire]
      rw [State.resume_outcomes_of_ne _ hi, State.recordCompletion_eq]
      rfl
    · rw [(s.expire_fields cb).1]
      exact fun _ _ h => h
    · dsimp only [State.expire]
      rw [State.resume_eq, State.recordCompletion_eq]
      rfl
  | @callback s s₁ s₂ f rest cb status data halive hstack htake hnote =>
    obtain ⟨out, fhs, dirs, b, r, htaken, heq⟩ := State.callback_eq htake hnote
    rw [State.recordCompletion_eq, heq]
    constructor
    · intro c hc
      exact hr.waiting c (List.mem_of_mem_filter hc)
    · intro c r' hf hc
      rcases List.mem_cons.mp hf with hf | hf
      · cases hf
        simpa using (List.mem_filter.mp hc).2
      refine hr.hooks c r' ?_ (List.mem_of_mem_filter hc)
      rw [hstack]
      rcases List.mem_cons.mp hf with hf | hf
      · rw [Frame.completionHook_of_note hf]
        exact List.mem_cons_self ..
      · exact List.mem_cons_of_mem _ hf
    · intro hdead
      rw [show _ = true from halive] at hdead
      cases hdead
  | callbackDead halive hstack htake hnote =>
    obtain ⟨out, fhs, dirs, b, r, -, heq⟩ := State.callback_eq htake hnote
    rw [heq]
    exact .of_nil (hr.dead halive)
  | @finishHook s =>
    unfold State.finishHook
    split
    · rename_i cb r rest hstack
      have hcb : cb ∈ s.created := hk.resumption.held_created hw hstack (List.mem_singleton_self cb)
      have hnot := hr.hooks cb r (hstack ▸ List.mem_cons_self ..)
      refine hr.shrink ?_ ?_ ?_ ?_
      · rw [State.resume_eq]
        exact fun _ h => h
      · intro c hc
        rw [State.resume_activeContinuations] at hc
        apply State.resume_outcomes_of_ne
        intro heq
        have hsame := hw.caller_inj c (hw.active_created c hc) cb hcb heq
        exact hnot (hsame ▸ hc)
      · rw [State.resume_stack]
        exact fun c r hf => hstack ▸ List.mem_cons_of_mem _ hf
      · rw [State.resume_eq]
    · exact hr
  | accept hstack =>
    rw [State.enqueueRequest_eq]
    split <;> exact hr.same rfl rfl (fun c r hf => hstack ▸ List.mem_cons_of_mem _ hf) rfl
  | @reject s cb ran rest r hstack hran =>
    have hcb := hk.resumption.held_created hw hstack (Frame.mem_holds_handOver _ hran)
    refine hr.remove hw hcb ?_ (fun i hi => State.resume_outcomes_of_ne _ hi) ?_ ?_
    · rw [State.resume_activeContinuations]
      rfl
    · rw [State.resume_stack]
      exact fun c r hf => hstack ▸ List.mem_cons_of_mem _ hf
    · rw [State.resume_eq]
      rfl
  | @rejectPending s i op cb ran rest r hstack hran =>
    have hcb := hk.resumption.held_created hw hstack (Frame.mem_holds_handOver _ hran)
    obtain ⟨rfl, hop⟩ := hw.frame_op i op cb ran (hstack ▸ List.mem_cons_self ..)
    refine hr.remove hw hcb ?_ (fun i hi => State.resume_outcomes_of_ne _ hi) ?_ ?_
    · rw [State.resume_activeContinuations, ← hop.id_eq]
      rfl
    · rw [State.resume_stack]
      exact fun c r hf => hstack ▸ List.mem_cons_of_mem _ hf
    · rw [State.resume_eq]
      rfl
  | @rejectRaw s site cb ran rest r hstack hran =>
    have hcb := hk.resumption.held_created hw hstack (Frame.mem_holds_handOver _ hran)
    exact hr.remove hw hcb rfl (fun i hi => State.resumeContinuation_of_ne _ hi)
      (fun c r hf => hstack ▸ List.mem_cons_of_mem _ hf) rfl
  | @rejectHandle s cb ran rest r hstack hran =>
    have hcb := hk.resumption.held_created hw hstack (Frame.mem_holds_handOver _ hran)
    exact hr.remove hw hcb rfl (fun i hi => State.resumeContinuation_of_ne _ hi)
      (fun c r hf => hstack ▸ List.mem_cons_of_mem _ hf) rfl
  | @rejectExports s n m cb ran rest hstack hran =>
    refine hr.shrink (fun c hc => List.mem_of_mem_filter hc) (fun _ _ => rfl) ?_ rfl
    intro c r hf
    rcases List.mem_cons.mp hf with hf | hf
    · cases hf
    · exact hstack ▸ List.mem_cons_of_mem _ hf
  | leaveRpcDestroy hstack =>
    exact hr.same rfl rfl (fun c r hf => hstack ▸ List.mem_cons_of_mem _ hf) rfl
  | @exportsFailed s n cb rest r hstack =>
    have hframe : Frame.rpcDestroy n (.getexports cb) ∈ s.stack := hstack ▸ List.mem_cons_self ..
    have hcb := hk.resumption.held_created hw hstack (List.mem_singleton_self cb)
    refine hr.shrink (fun _ h => h) ?_ (fun c r hf => hstack ▸ List.mem_cons_of_mem _ hf) rfl
    intro c hc
    apply State.resumeContinuation_of_ne
    intro heq
    have hsame := hw.caller_inj c (hw.active_created c hc) cb hcb heq
    exact hk.resumption.refused _ hframe cb (List.mem_singleton_self cb) (hsame ▸ hc)
  | @enterDestroy s kind =>
    refine .of_nil ?_
    cases kind <;> rfl
  | @leaveDestroy s kind conts rest hstack =>
    have hctx : s.context = none :=
      hk.ending.destroyed kind conts (hstack ▸ List.mem_cons_self ..)
    refine .of_nil ?_
    rw [State.endTeardown_activeContinuations]
    exact (hw.retired hctx).1
  | @teardownNow s kind hctx =>
    refine .of_nil ?_
    rw [State.endTeardown_activeContinuations]
    cases kind <;> rfl
  | _ => exact hr.same rfl rfl (fun _ _ h => h) rfl

/-! ## Who is resumed -/

/-- Somebody whom an action can resume: an operation that is registered, or that a call in progress is
responsible for. -/
def State.Resumable (s : State) : Prop :=
  s.activeContinuations ≠ [] ∨ ∃ f ∈ s.stack, f.holds ≠ [] ∨ f.snapshot ≠ []

/-- The queue a loop runs on changes only with its last reference, and the precondition of
`CallbackData.resume` fails only off the queue, where somebody is resumed. -/
theorem Act.precondition (h : Act k a k') :
    (k'.state.onQueue = k.state.onQueue ∨ a = .deinit) ∧
      (k'.state.preconditionFailed = k.state.preconditionFailed ∨
        k'.state.preconditionFailed = (k.state.preconditionFailed || !k.state.onQueue) ∧
          k.state.Resumable) := by
  have held {s : State} {f : Frame} {rest : List Frame} {cb : CallbackData}
      (hstack : s.stack = f :: rest) (hcb : cb ∈ f.holds) : s.Resumable :=
    .inr ⟨f, hstack ▸ List.mem_cons_self .., .inl (List.ne_nil_of_mem hcb)⟩
  cases h with
  | silent hcore halive hqueue hpre => exact ⟨.inl hqueue, .inl hpre⟩
  | deinit => exact ⟨.inr rfl, .inl rfl⟩
  | expire hstack hmem =>
    dsimp only [State.expire]
    rw [State.resume_eq, State.recordCompletion_eq]
    exact ⟨.inl rfl, .inr ⟨rfl, .inl (List.ne_nil_of_mem hmem)⟩⟩
  | callback _ _ htake hnote =>
    obtain ⟨out, fhs, dirs, b, r, -, heq⟩ := State.callback_eq htake hnote
    rw [State.recordCompletion_eq, heq]
    exact ⟨.inl rfl, .inl rfl⟩
  | callbackDead _ _ htake hnote =>
    obtain ⟨out, fhs, dirs, b, r, -, heq⟩ := State.callback_eq htake hnote
    rw [heq]
    exact ⟨.inl rfl, .inl rfl⟩
  | @finishHook s =>
    unfold State.finishHook
    split
    · rename_i cb r rest hstack
      rw [State.resume_eq]
      exact ⟨.inl rfl, .inr ⟨rfl, held hstack (List.mem_singleton_self cb)⟩⟩
    · exact ⟨.inl rfl, .inl rfl⟩
  | accept =>
    rw [State.enqueueRequest_eq]
    split <;> exact ⟨.inl rfl, .inl rfl⟩
  | reject hstack hran | rejectPending hstack hran =>
    rw [State.resume_eq]
    exact ⟨.inl rfl, .inr ⟨rfl, held hstack (Frame.mem_holds_handOver _ hran)⟩⟩
  | @enterDestroy s kind => cases kind <;> exact ⟨.inl rfl, .inl rfl⟩
  | @leaveDestroy s kind conts rest hstack =>
    obtain ⟨bulk, metadata, counts, heq⟩ :=
      State.endTeardown_eq ((s.leaveTo rest).dropRequests .nfs) kind conts
    rw [heq, State.foldl_resume_eq]
    refine ⟨.inl rfl, ?_⟩
    cases conts with
    | nil => exact .inl (by simp [State.dropRequests, State.leaveTo])
    | cons c conts =>
      refine .inr ⟨by simp [State.dropRequests, State.leaveTo],
        .inr ⟨.destroy kind (c :: conts), ?_, .inr ?_⟩⟩
      · exact hstack ▸ List.mem_cons_self ..
      · simp [Frame.snapshot]
  | @teardownNow s kind =>
    obtain ⟨bulk, metadata, counts, heq⟩ :=
      State.endTeardown_eq (s.clearRegistries kind) kind s.activeContinuations
    have hclear : (s.clearRegistries kind).onQueue = s.onQueue ∧
        (s.clearRegistries kind).preconditionFailed = s.preconditionFailed := by
      cases kind <;> exact ⟨rfl, rfl⟩
    rw [heq, State.foldl_resume_eq]
    refine ⟨.inl hclear.1, ?_⟩
    dsimp only
    rw [hclear.1, hclear.2]
    cases hactive : s.activeContinuations with
    | nil => exact .inl (by simp)
    | cons c l =>
      exact .inr ⟨by simp, .inl (by show s.activeContinuations ≠ []; simp [hactive])⟩
  | start =>
    dsimp only [State.handOver, State.passRetained, State.register, State.newCaller]
    exact ⟨.inl rfl, .inl rfl⟩
  | immediate | overflow =>
    dsimp only [State.resumeContinuation, State.removeActive, State.register, State.newCaller]
    exact ⟨.inl rfl, .inl rfl⟩
  | _ => exact ⟨.inl rfl, .inl rfl⟩

/-! ## Off the queue -/

/-- The precondition has not failed, and off the queue nothing is left that could resume anybody. -/
structure Confined (s : State) : Prop where
  kept : s.preconditionFailed = false
  off : s.onQueue = false → s.alive = false ∧ s.outstanding = [] ∧
    ∀ f ∈ s.stack, f.holds = [] ∧ f.snapshot = []

namespace Confined

/-- Off the queue there is nobody to resume. -/
theorem not_resumable (hr : Registered s) (hc : Confined s) (hqueue : s.onQueue = false) :
    ¬ s.Resumable := by
  obtain ⟨hdead, -, hframes⟩ := hc.off hqueue
  rintro (hactive | ⟨f, hf, hholds | hsnapshot⟩)
  · exact hactive (hr.dead hdead)
  · exact hholds (hframes f hf).1
  · exact hsnapshot (hframes f hf).2

/-- Off the queue there is no request to call back. -/
theorem not_taken (hc : Confined s) (hqueue : s.onQueue = false) {f : Frame} {rest : List Frame}
    {cb : CallbackData} {out : List Request} (hstack : s.stack = f :: rest) :
    ¬ s.Taken f cb out := by
  obtain ⟨-, hout, hframes⟩ := hc.off hqueue
  have hholds := (hframes f (hstack ▸ List.mem_cons_self ..)).1
  rintro (⟨hcall, -⟩ | ⟨r, hr, -⟩)
  · rw [(Frame.holds_of_inCall hcall).1] at hholds
    cases hholds
  · rw [hout] at hr
    cases hr

/-- Off the queue a call in progress hands nothing over any more. -/
theorem not_refused (hc : Confined s) (hqueue : s.onQueue = false) {site : Site}
    {cb : CallbackData} {ran : List Nat} {rest : List Frame}
    (hstack : s.stack = .handOver site cb ran :: rest) : cb.caller ∈ ran := by
  by_contra hran
  have hholds := ((hc.off hqueue).2.2 _ (hstack ▸ List.mem_cons_self ..)).1
  have hmem := Frame.mem_holds_handOver site hran
  rw [hholds] at hmem
  cases hmem

/-- One action other than dropping the last reference keeps the loop confined. -/
theorem act (hk : Sound k) (hr : Registered k.state) (hq : Quiet k) (hc : Confined k.state)
    (ha : a ≠ .deinit) (h : Act k a k') : Confined k'.state where
  kept := by
    rcases h.precondition.2 with hsame | ⟨hfails, hresumable⟩
    · rw [hsame]
      exact hc.kept
    · cases hqueue : k.state.onQueue with
      | true => simp [hfails, hc.kept, hqueue]
      | false => exact absurd hresumable (hc.not_resumable hr hqueue)
  off := by
    intro hqueue'
    have hqueue : k.state.onQueue = false := (h.precondition.1.resolve_right ha).symm.trans hqueue'
    obtain ⟨hdead, hout, hframes⟩ := hc.off hqueue
    have hlive {s : State} (hs : Ending ⟨s, .idle⟩) (hstack : s.stack = [])
        (hctx : s.context.isSome) (hd : s.alive = false) : False := by
      rw [alive_of_context hs hstack hctx] at hd
      cases hd
    refine ⟨(h.rarely.1.resolve_right ha).trans hdead, ?_, ?_⟩
    · rw [List.eq_nil_iff_forall_not_mem]
      intro r hr
      rcases h.effects.outstanding r hr with hr | ⟨site, cb, ran, rfl, rfl⟩
      · rw [hout] at hr
        cases hr
      · cases h with
        | @accept s _ _ _ rest hstack =>
          have hout : s.outstanding = [] := hout
          rw [State.enqueueRequest_eq, if_pos (hc.not_refused hqueue hstack)] at hr
          split at hr <;> exact List.not_mem_nil (hout ▸ hr)
    · intro f hf
      rcases h.effects.frames f hf with hf | ⟨g, hg, c, status, data, rfl, -⟩ | hpush
      · exact hframes f hf
      · cases h with
        | callback _ hstack htake hnote | callbackDead _ hstack htake hnote =>
          obtain ⟨out, fhs, dirs, b, r, htaken, -⟩ := State.callback_eq htake hnote
          exact absurd htaken (hc.not_taken hqueue hstack)
      · cases h with
        | start hstack hctx => exact (hlive hk.ending hstack hctx hdead).elim
        | enterClose hstack hctx => exact (hlive hk.ending hstack hctx hdead).elim
        | execute hctx => exact absurd rfl ((hq hdead hctx).1 _)
        | enter _ hservice =>
          have hpush : f = _ := hpush
          obtain rfl | ⟨n, rfl⟩ := hservice <;> subst hpush <;> exact ⟨rfl, rfl⟩
        | callback _ hstack htake hnote | callbackDead _ hstack htake hnote =>
          obtain ⟨out, fhs, dirs, b, r, htaken, -⟩ := State.callback_eq htake hnote
          exact absurd htaken (hc.not_taken hqueue hstack)
        | reject hstack hran | rejectPending hstack hran | rejectRaw hstack hran
        | rejectHandle hstack hran | rejectExports hstack hran =>
          exact absurd (hc.not_refused hqueue hstack) hran
        | @enterRpcDestroy s n next hstack hnext =>
          have hpush : f = _ := hpush
          subst hpush
          cases next with
          | getexports cb => cases hnext
          | done | performShutdown => exact ⟨rfl, rfl⟩
        | @enterDestroy s kind hctx hstack =>
          have hf : f ∈ Frame.destroy kind s.activeContinuations :: s.stack := hf
          rw [hstack, List.mem_singleton] at hf
          subst hf
          exact ⟨rfl, hr.dead hdead⟩
        | _ => cases hpush

/-- Dropping the last reference on the queue, or with nothing for libnfs to call back, leaves the loop
confined; without a context nothing runs any more. -/
theorem deinit (hw : WellFormed s) (hr : Registered s) (hc : Confined s) {q : Bool} {t : State}
    (hidle : q = false → s.context = none ∨ s.outstanding = [])
    (h : step s (.deinit q) = some t) :
    Confined t ∨ t.stack = [] ∧ t.alive = false ∧ t.preconditionFailed = false := by
  simp only [step] at h
  split at h
  · rename_i henabled
    simp only [Bool.and_eq_true, List.isEmpty_iff] at henabled
    obtain ⟨⟨hstack, -⟩, hnobody⟩ := henabled
    obtain rfl := Option.some.inj h
    have hactive : s.activeContinuations = [] := by
      rw [List.eq_nil_iff_forall_not_mem]
      intro c hmem
      have hlt := hw.caller_lt c (hw.active_created c hmem)
      have hanswered := List.all_eq_true.mp hnobody c.caller (List.mem_range.mpr hlt)
      rw [hr.waiting c hmem] at hanswered
      cases hanswered
    unfold State.performShutdown
    by_cases hctx : s.context = none
    · right
      rw [if_pos (by simp [hctx, hactive])]
      exact ⟨hstack, rfl, hc.kept⟩
    · left
      have hout : q = false → s.outstanding = [] := fun hq => (hidle hq).resolve_left hctx
      obtain ⟨c, hc'⟩ := Option.ne_none_iff_exists'.mp hctx
      rw [if_neg (by simp [hc'])]
      unfold State.cleanupRpcExports
      extract_lets u
      split
      · refine ⟨hc.kept, fun hq => ⟨rfl, hout hq, ?_⟩⟩
        intro f hf
        have hf : f ∈ _ :: s.stack := hf
        rw [hstack, List.mem_singleton] at hf
        subst hf
        exact ⟨rfl, rfl⟩
      · simp only [State.afterCleanup, State.performShutdownRest, State.destroyContext, u, hc']
        refine ⟨hc.kept, fun hq => ⟨rfl, hout hq, ?_⟩⟩
        intro f hf
        have hf : f ∈ Frame.destroy .performShutdown s.activeContinuations :: s.stack := hf
        rw [hstack, List.mem_singleton] at hf
        subst hf
        exact ⟨rfl, hactive⟩
  · cases h

end Confined

/-! ## Runs -/

/-- Nothing runs any more in a loop that has been dropped and has no call in progress. -/
theorem ended_step {t : State} {e : Event} (hstack : s.stack = []) (hdead : s.alive = false)
    (h : step s e = some t) :
    t.stack = [] ∧ t.alive = false ∧ t.preconditionFailed = s.preconditionFailed := by
  cases e with
  | block b => simp [step, hdead] at h
  | callback id status data => simp [step, State.fireCallback, hstack] at h
  | ret rc view => simp [step, State.returnFromCall, hstack] at h
  | tick d =>
    obtain rfl := Option.some.inj h
    exact ⟨hstack, hdead, rfl⟩
  | releaseBuffer b =>
    simp only [step] at h
    split at h
    · obtain rfl := Option.some.inj h
      exact ⟨hstack, hdead, rfl⟩
    · cases h
  | deinit q => simp [step, hdead] at h

/-- One step keeps the loop confined, or ends it. -/
theorem confined_step {u v : State} {e : Event} (hidle : DropsIdle u e) (hs : Sound u.config)
    (hr : Registered u) (hq : Quiet u.config) (hc : Confined u) (h : step u e = some v) :
    Confined v ∨ v.stack = [] ∧ v.alive = false ∧ v.preconditionFailed = false := by
  by_cases hdrop : ∃ q, e = .deinit q
  · obtain ⟨q, rfl⟩ := hdrop
    exact hc.deinit hs.wellFormed hr (fun hq => hidle (by rw [hq])) h
  · left
    have hinv := (step_invariant_sound h hs
      (fun k => Registered k.state ∧ Quiet k ∧ Confined k.state) ⟨hr, hq, hc⟩ ?_).2
    · exact hinv.2.2
    · intro k a k' hk ⟨hr, hq, hc⟩ ha hact
      refine ⟨hr.act hk hact, hq.act hk hact, hc.act hk hr hq ?_ hact⟩
      rintro rfl
      exact hdrop ha

theorem registered_init (timeout : Int) : Registered (State.init timeout) :=
  .of_nil rfl

/-- As long as the last reference is not dropped off the queue while libnfs holds requests, every call
of `CallbackData.resume` is on the queue of the loop. -/
theorem resumed_on_queue {timeout : Int} {t : State}
    (h : Reaches step DropsIdle (State.init timeout) t) : t.preconditionFailed = false := by
  have hinv : (Sound t.config ∧ Registered t ∧ Quiet t.config) ∧
      (Confined t ∨ t.stack = [] ∧ t.alive = false ∧ t.preconditionFailed = false) := by
    refine h.invariant (I := fun u => (Sound u.config ∧ Registered u ∧ Quiet u.config) ∧
      (Confined u ∨ u.stack = [] ∧ u.alive = false ∧ u.preconditionFailed = false)) ?_ ?_
    · refine ⟨⟨sound_init timeout, registered_init timeout, ?_⟩, .inl ⟨rfl, ?_⟩⟩
      · intro halive
        cases halive
      · intro hqueue
        cases hqueue
    · intro u e v ⟨⟨hs, hr, hq⟩, hu⟩ hidle hstep
      refine ⟨step_invariant_sound hstep hs (fun k => Registered k.state ∧ Quiet k) ⟨hr, hq⟩ ?_, ?_⟩
      · intro k a k' hk hi _ hact
        exact ⟨hi.1.act hk hact, hi.2.act hk hact⟩
      · rcases hu with hc | ⟨hstack, hdead, hkept⟩
        · exact confined_step hidle hs hr hq hc hstep
        · obtain ⟨hstack', hdead', hkept'⟩ := ended_step hstack hdead hstep
          exact .inr ⟨hstack', hdead', hkept'.trans hkept⟩
  rcases hinv.2 with hc | hended
  · exact hc.kept
  · exact hended.2.2

/-- A stat is answered before the last reference is dropped on another thread. -/
theorem resumed_on_queue_reply :
    ∃ t, run step (State.init 60000000000)
      [.block Block.stat, .ret 0 {}, .block .handleIOEvent, .callback 1 0 (some (.pointer 7)),
        .ret 0 {}, .deinit false, .ret 0 {}] = some t ∧
      t.onQueue = false ∧ t.teardowns = 1 ∧ t.preconditionFailed = false := by
  have hrun : ((run step (State.init 60000000000)
      [.block Block.stat, .ret 0 {}, .block .handleIOEvent, .callback 1 0 (some (.pointer 7)),
        .ret 0 {}, .deinit false, .ret 0 {}]).any fun t =>
      t.onQueue = false ∧ t.teardowns = 1) = true := by
    decide +kernel
  have hidle : meets step (fun s e => decide (DropsIdle s e)) (State.init 60000000000)
      [.block Block.stat, .ret 0 {}, .block .handleIOEvent, .callback 1 0 (some (.pointer 7)),
        .ret 0 {}, .deinit false, .ret 0 {}] = true := by
    decide +kernel
  obtain ⟨t, ht, hfacts⟩ := (Option.any_eq_true _ _).mp hrun
  obtain ⟨hqueue, hdown⟩ := of_decide_eq_true hfacts
  exact ⟨t, ht, hqueue, hdown, resumed_on_queue (reaches_of_run (fun _ _ => of_decide_eq_true) ht hidle)⟩

/-- A stat times out, its caller drops the last reference on another thread, and the destruction of the
context runs the callback there. -/
theorem resumed_off_queue :
    ∃ t, run step (State.init 60000000000)
      [.block Block.stat, .ret 0 {}, .tick 60000000001, .block .scanForTimeouts, .deinit false,
        .callback 1 (-4) none] = some t ∧ t.preconditionFailed = true := by
  have hrun : ((run step (State.init 60000000000)
      [.block Block.stat, .ret 0 {}, .tick 60000000001, .block .scanForTimeouts, .deinit false,
        .callback 1 (-4) none]).any fun t => t.preconditionFailed) = true := by
    decide +kernel
  exact (Option.any_eq_true _ _).mp hrun

end NFSKit
