import NFSKit.EventLoop.Proofs.OutskirtsProofs
import NFSKit.EventLoop.Proofs.RequestProofs

/-!
# The sources of a loop that is shutting down

The two sources of the main connection are made when `nfs_mount_async` or `nfs_service` has returned,
and cancelled before the context goes. No call that could make them again is in progress from then on.
-/

namespace NFSKit

open Machine

variable {s t : State} {k k' : Config} {a : Action} {e : Event}

/-! ## Calls that need the context -/

/-- The calls that need the context are made, and return, while it is there. -/
def CallsAlive (s : State) : Prop := ∀ f ∈ s.stack, f.needsContext → s.context.isSome

theorem CallsAlive.act {u : State} (hc : CallsAlive k.state) (ha : Allowed u e k a)
    (h : Act k a k') : CallsAlive k'.state := by
  intro f hf hneeds
  -- the context goes only where no call is in progress
  have keeps (hsome : k.state.context.isSome) (ha : ∀ kind, a ≠ .enterDestroy kind) :
      k'.state.context.isSome := by
    rcases h.rarely.2.1 with heq | ⟨-, kind, rfl⟩
    · exact heq ▸ hsome
    · exact absurd rfl (ha kind)
  rcases h.effects.frames f hf with hold | ⟨g, hg, cb, status, data, rfl, rfl⟩ | hpush
  · refine keeps (hc f hold hneeds) ?_
    rintro kind rfl
    have hstack : k.state.stack = [] := by
      cases h
      assumption
    rw [hstack] at hold
    cases hold
  · refine keeps (hc g hg ?_) (by simp)
    cases g <;> exact hneeds
  · cases a with
    | start | execute | enterClose =>
      refine keeps ?_ (by simp)
      cases h
      assumption
    | enter g =>
      obtain rfl : f = g := hpush
      refine keeps ?_ (by simp)
      obtain ⟨heq, hservice⟩ := ha
      rw [heq]
      refine hservice ?_
      cases h with
      | enter hidle hcall =>
        rcases hcall with rfl | ⟨n, rfl⟩
        · rfl
        · cases hneeds
    | callback | reject | enterRpcDestroy | enterDestroy =>
      first
        | obtain rfl := hpush
          cases hneeds
        | obtain ⟨_, rfl⟩ := hpush
          cases hneeds
    | _ => exact hpush.elim

theorem callsAlive_init (timeout : Int) : CallsAlive (State.init timeout) :=
  fun _ h => by cases h

theorem callsAlive_of_reachable {timeout : Int} (h : Reachable step (State.init timeout) s) :
    CallsAlive s :=
  (run_invariant_init h (fun k => CallsAlive k.state) (callsAlive_init timeout)
    fun _ _ _ _ _ _ _ hc ha hact => hc.act ha hact).2

/-- Two calls that start a queue block are the same. -/
theorem NestedAbove.eq {l : List Frame} {f g : Frame} (h : NestedAbove l) (hf : f ∈ l) (hg : g ∈ l)
    (hf' : f.nested = false) (hg' : g.nested = false) : f = g := by
  induction l with
  | nil => cases hf
  | cons c l ih =>
    have alone (hc : c.nested = false) {x : Frame} (hx : x ∈ c :: l) : x = c := by
      obtain rfl := h.rest_eq_nil hc
      exact List.mem_singleton.mp hx
    rcases List.mem_cons.mp hf with rfl | hf₁
    · exact (alone hf' hg).symm
    · rcases List.mem_cons.mp hg with rfl | hg₁
      · exact alone hg' hf
      · exact ih h.tail hf₁ hg₁

/-- A loop that is leaving is not inside a call that would make the sources again. -/
theorem State.IsLeaving.setsUp (hw : WellFormed s) (hc : CallsAlive s) (hl : s.IsLeaving) :
    ∀ f ∈ s.stack, f.setsUp = false := by
  intro f hf
  cases hsets : f.setsUp with
  | false => rfl
  | true =>
    have hneeds : f.needsContext ∧ f.nested = false := by
      cases f with
      | handOver site cb ran =>
        cases site with
        | mount => exact ⟨rfl, rfl⟩
        | _ => cases hsets
      | service => exact ⟨rfl, rfl⟩
      | _ => cases hsets
    rcases hl with hnone | ⟨n, hn⟩
    · have hsome := hc f hf hneeds.1
      rw [hnone] at hsome
      cases hsome
    · obtain rfl := hw.nested.eq hf hn hneeds.2 rfl
      cases hsets

/-! ## Sources that are off -/

namespace Sources

theorem cancelSources_off (x : Sources) : x.cancelSources.Off := by
  unfold cancelSources Off
  obtain ⟨readSource, writeSource, fd, ino, timer, suspended, made, dropped⟩ := x
  cases readSource <;> cases writeSource <;> cases suspended <;> exact ⟨rfl, rfl⟩

theorem Off.startTimeoutTimer {x : Sources} (h : x.Off) (timeout : Int) :
    (x.startTimeoutTimer timeout).Off := by
  unfold Sources.startTimeoutTimer
  split <;> exact h

theorem Off.cancelTimeoutTimer {x : Sources} (h : x.Off) : x.cancelTimeoutTimer.Off := h

theorem Off.updateWriteSource {x : Sources} (h : x.Off) (pollout : Bool) :
    (x.updateWriteSource pollout).Off := by
  unfold Sources.updateWriteSource
  rw [h.2]
  exact h

end Sources

namespace State

/-! ## Functions that leave the sources and libnfs's answers alone -/

theorem watch_of_outskirts (h : t.outskirts = s.outskirts) : t.watch = s.watch := by
  have hsources : t.sources = s.sources := congrArg Outskirts.sources h
  have hlib : t.lib = s.lib := congrArg Outskirts.lib h
  unfold watch
  rw [hsources, hlib]

theorem off_of_watch (h : t.watch = s.watch) (hoff : s.sources.Off) : t.sources.Off := by
  have hsources : t.sources.timerless = s.sources.timerless := congrArg Prod.fst h
  have hread : t.sources.timerless.readSource = s.sources.readSource := by rw [hsources]; rfl
  have hwrite : t.sources.timerless.writeSource = s.sources.writeSource := by rw [hsources]; rfl
  exact ⟨hread.trans hoff.1, hwrite.trans hoff.2⟩

theorem startTimeoutTimer_timerless (x : Sources) (timeout : Int) :
    (x.startTimeoutTimer timeout).timerless = x.timerless := by
  unfold Sources.startTimeoutTimer
  split <;> rfl

theorem destroyContext_watch (s : State) (kind : Teardown) :
    (s.destroyContext kind).watch = s.watch := by
  unfold destroyContext
  cases kind <;> dsimp only <;> split <;>
    first | rfl | exact watch_of_outskirts (endTeardown_outskirts _ _ _)

theorem afterCleanup_watch (s : State) (next : AfterCleanup) :
    (s.afterCleanup next).watch = s.watch := by
  cases next with
  | done | getexports => rfl
  | performShutdown => exact destroyContext_watch _ _

theorem cleanupRpcExports_watch (s : State) (next : AfterCleanup) :
    (s.cleanupRpcExports next).watch = s.watch := by
  unfold cleanupRpcExports
  extract_lets t
  split
  · rfl
  · exact afterCleanup_watch t next

theorem scanForTimeouts_watch (s : State) : s.scanForTimeouts.watch = s.watch := by
  have hscan := watch_of_outskirts
    (foldl_expire_outskirts (s.activeContinuations.filter s.expired) s)
  unfold scanForTimeouts
  split
  · rfl
  · dsimp only
    split
    · split
      · exact (cleanupRpcExports_watch _ _).trans hscan
      · exact hscan
    · exact hscan

theorem rpcServiced_watch (s : State) (rc : Int) : (s.rpcServiced rc).watch = s.watch := by
  unfold rpcServiced
  split
  · exact cleanupRpcExports_watch _ _
  · split
    · exact cleanupRpcExports_watch _ _
    · rfl

/-! ## Functions that cancel or set up the sources -/

/-- `performShutdown` cancels the sources, unless the loop is down. -/
theorem performShutdown_off (h : s.context.isSome ∨ s.sources.Off) :
    s.performShutdown.sources.Off := by
  unfold performShutdown
  split
  · rename_i hdown
    simp only [Bool.and_eq_true, Option.isNone_iff_eq_none] at hdown
    rcases h with hsome | hoff
    · rw [hdown.1] at hsome
      cases hsome
    · exact hoff
  · apply off_of_watch (cleanupRpcExports_watch _ _)
    exact Sources.cancelSources_off _

theorem performShutdown_watch (s : State) :
    s.performShutdown.watch = s.watch ∨ s.performShutdown.sources.Off := by
  by_cases hdown : s.context.isNone && s.activeContinuations.isEmpty
  · left
    unfold performShutdown
    rw [if_pos hdown]
    rfl
  · right
    unfold performShutdown
    rw [if_neg hdown]
    apply off_of_watch (cleanupRpcExports_watch _ _)
    exact Sources.cancelSources_off _

theorem shutdownWithError_off (s : State) : s.shutdownWithError.sources.Off := by
  unfold shutdownWithError
  apply off_of_watch (destroyContext_watch _ _)
  exact (Sources.cancelSources_off _).cancelTimeoutTimer

/-- Of the queue blocks, only a shutdown touches the sources. -/
theorem runBlock_watch {b : Block} (h : s.runBlock b = some t) :
    t.watch = s.watch ∨ t.sources.Off := by
  cases hb : b.isPlain with
  | true => exact .inl (watch_of_outskirts (runBlock_outskirts hb h))
  | false =>
    cases b with
    | getexports available =>
      refine .inl (Option.some.inj h ▸ ?_)
      unfold getexports
      extract_lets caller s' n cb t u
      split
      · rfl
      · split
        · rfl
        · split <;> rfl
    | scanForTimeouts => exact .inl (Option.some.inj h ▸ scanForTimeouts_watch s)
    | handleRpcExportsEvent =>
      refine .inl (Option.some.inj h ▸ ?_)
      unfold handleRpcExportsEvent
      split <;> rfl
    | shutdown => exact Option.some.inj h ▸ performShutdown_watch s
    | configure x =>
      left
      simp only [runBlock] at h
      split at h
      · rename_i u hu
        obtain rfl := Option.some.inj h
        unfold configure at hu
        split at hu
        · cases hu
        · split at hu
          · split at hu
            · cases hu
              rfl
            · cases hu
          · cases hu
            rfl
      · exact Option.some.inj h ▸ rfl
    | setLogHandler handler =>
      refine .inl (Option.some.inj h ▸ ?_)
      unfold setLogHandler
      split <;> rfl
    | _ => cases hb

theorem updateWriteSource_watch (s : State) : s.updateWriteSource.watch =
    if s.context.isSome then ((s.sources.updateWriteSource s.lib.pollout).timerless, s.lib)
    else s.watch := by
  unfold updateWriteSource
  split
  · rename_i hctx
    rw [if_neg (by simp [hctx])]
  · rename_i hctx
    rw [if_pos (by simp [hctx])]
    rfl

/-- Only the refusal of a deferred operation looks at the wanted events. -/
theorem rejected_watch (s : State) (site : Site) (cb : CallbackData) (rc : Int) :
    (s.rejected site cb rc).watch =
      if site.isPending then s.updateWriteSource.watch else s.watch := by
  unfold rejected
  cases site with
  | issueOperation => exact watch_of_outskirts (resume_outskirts _ _ _)
  | handleOperation =>
    dsimp only
    rw [runCleanup_eq]
    rfl
  | mount => rfl
  | getexports n => exact cleanupRpcExports_watch _ _
  | pending i op =>
    dsimp only
    rw [watch_of_outskirts (drainFrom_outskirts _ _), updateWriteSource_watch,
      updateWriteSource_watch, resume_eq]
    rfl

theorem accepted_watch (s : State) (site : Site) (cb : CallbackData) :
    (s.accepted site cb).watch =
      match site with
      | .getexports _ => s.watch
      | .mount =>
        if 0 ≤ s.lib.fd then
          { s with sources := s.sources.setupSources s.timeout s.lib }.updateWriteSource.watch
        else s.watch
      | _ => s.updateWriteSource.watch := by
  unfold accepted
  cases site with
  | issueOperation | handleOperation =>
    dsimp only
    rw [updateWriteSource_watch, updateWriteSource_watch]
    rfl
  | mount =>
    dsimp only
    by_cases hfd : 0 ≤ s.lib.fd
    · rw [if_pos hfd, if_pos hfd, updateWriteSource_watch, updateWriteSource_watch]
      rfl
    · rw [if_neg hfd, if_neg hfd]
      unfold watch
      rw [startTimeoutTimer_timerless]
  | getexports n =>
    dsimp only
    split <;> unfold watch <;> rw [startTimeoutTimer_timerless]
  | pending i op =>
    dsimp only
    rw [watch_of_outskirts (drainFrom_outskirts _ _)]

/-- After `nfs_service`, the sources are made anew where they are not surely the ones of the socket. -/
theorem serviced_watch (s : State) {rc : Int} (hrc : 0 ≤ rc) :
    (s.serviced rc).watch =
      if s.lib.fd ≥ 0 ∧ (s.lib.fd ≠ s.sources.currentFd ∨ s.sources.currentSocketIno = 0 ∨
          s.lib.socketIno ≠ s.sources.currentSocketIno) then
        { s with sources := s.sources.setupSources s.timeout s.lib }.updateWriteSource.watch
      else s.updateWriteSource.watch := by
  unfold serviced
  rw [if_neg (by omega)]
  dsimp only
  rw [watch_of_outskirts (issuePendingOperations_outskirts _)]
  split <;> rfl

end State

/-! ## Steps -/

/-- What a step does to the sources and libnfs's answers. -/
inductive WatchStep (s t : State) : Event → Prop where
  | kept {e : Event} (hservice : e.returns → s.stack.head? ≠ some .service)
      (h : t.watch = s.watch) : WatchStep s t e
  | cancelled {e : Event} (h : t.sources.Off) : WatchStep s t e
  /-- A call returns after which nothing is done about the sources. -/
  | overlooked {rc : Int} {view : LibView} {f : Frame} {rest : List Frame}
      (hstack : s.stack = f :: rest) (hf : f.overlooks rc view)
      (h : t.watch = (s.sources.timerless, view)) : WatchStep s t (.ret rc view)
  /-- A call that hands over an operation returns, and the write source is updated. -/
  | updated {rc : Int} {view : LibView} {site : Site} {cb : CallbackData} {ran : List Nat}
      {rest : List Frame} (hstack : s.stack = .handOver site cb ran :: rest) (hsite : site.ctx = .nfs)
      (hmount : site ≠ .mount)
      (h : t.watch = ((s.sources.updateWriteSource view.pollout).timerless, view)) :
      WatchStep s t (.ret rc view)
  /-- `nfs_service` returns with the descriptor the sources were made for. -/
  | serviced {rc : Int} {view : LibView} {rest : List Frame} (hstack : s.stack = .service :: rest)
      (hsame : 0 ≤ view.fd → view.fd = s.sources.currentFd ∧ s.sources.currentSocketIno ≠ 0 ∧
        view.socketIno = s.sources.currentSocketIno)
      (h : t.watch = ((s.sources.updateWriteSource view.pollout).timerless, view)) :
      WatchStep s t (.ret rc view)
  /-- The sources are made anew. -/
  | made {rc : Int} {view : LibView} {f : Frame} {rest : List Frame} (hstack : s.stack = f :: rest)
      (hf : f.setsUp) (hfd : 0 ≤ view.fd)
      (h : t.watch =
        (((s.sources.setupSources s.timeout view).updateWriteSource view.pollout).timerless, view)) :
      WatchStep s t (.ret rc view)

namespace State

theorem returnFromCall_watch {rc : Int} {view : LibView} (hc : CallsAlive s)
    (h : s.returnFromCall rc view = some t) : WatchStep s t (.ret rc view) := by
  unfold returnFromCall at h
  split at h
  · cases h
  · cases h
  · rename_i site cb ran rest hstack
    have hctx : s.context.isSome := hc _ (hstack ▸ List.mem_cons_self ..) rfl
    dsimp only at h
    split at h
    · rename_i hrc
      split at h
      · cases h
      · obtain rfl := Option.some.inj h
        have hwatch := rejected_watch ({ s with stack := rest }.setView site.ctx view) site cb rc
        cases site with
        | getexports n => exact .kept (by simp [hstack]) hwatch
        | pending i op =>
          rw [updateWriteSource_watch] at hwatch
          exact .updated hstack rfl (by simp) (hwatch.trans (if_pos hctx))
        | issueOperation | handleOperation | mount =>
          exact .overlooked hstack (by simp [Frame.overlooks, hrc, Site.isPending]) hwatch
    · obtain rfl := Option.some.inj h
      rw [enqueueRequest_eq]
      have hwatch (out : List Request) := accepted_watch ({ { s with stack := rest }.setView site.ctx
        view with outstanding := out } : State) site cb
      cases site with
      | getexports n => exact .kept (by simp [hstack]) (hwatch _)
      | mount =>
        simp only [updateWriteSource_watch] at hwatch
        by_cases hfd : 0 ≤ view.fd
        · exact .made hstack rfl hfd (((hwatch _).trans (if_pos hfd)).trans (if_pos hctx))
        · have hneg : view.fd < 0 := not_le.mp hfd
          exact .overlooked hstack (by simp [Frame.overlooks, hneg]) ((hwatch _).trans (if_neg hfd))
      | issueOperation | handleOperation | pending =>
        simp only [updateWriteSource_watch] at hwatch
        exact .updated hstack rfl (by simp) ((hwatch _).trans (if_pos hctx))
  · rename_i rest hstack
    have hctx : s.context.isSome := hc _ (hstack ▸ List.mem_cons_self ..) rfl
    obtain rfl := Option.some.inj h
    by_cases hrc : rc < 0
    · refine .cancelled ?_
      unfold serviced
      rw [if_pos hrc]
      exact shutdownWithError_off _
    · have hwatch := serviced_watch ({ s with stack := rest }.setView .nfs view) (not_lt.mp hrc)
      simp only [updateWriteSource_watch] at hwatch
      split at hwatch
      · rename_i hnew
        exact .made hstack rfl hnew.1 (hwatch.trans (if_pos hctx))
      · rename_i hsame
        refine .serviced hstack (fun hfd => ?_) (hwatch.trans (if_pos hctx))
        by_contra hne
        refine hsame ⟨hfd, ?_⟩
        by_contra heq
        simp only [not_or, not_not] at heq
        exact hne heq
  · rename_i n rest hstack
    refine Option.some.inj h ▸ .kept (by simp [hstack]) ?_
    exact rpcServiced_watch _ _
  · rename_i fh rest hstack
    exact Option.some.inj h ▸ .overlooked hstack rfl rfl
  · rename_i n next rest hstack
    refine Option.some.inj h ▸ .kept (by simp [hstack]) ?_
    exact afterCleanup_watch _ _
  · rename_i kind conts rest hstack
    obtain rfl := Option.some.inj h
    exact .kept (by simp [hstack]) ((watch_of_outskirts (endTeardown_outskirts _ _ _)).trans rfl)

end State

/-- Every step does one of these things to the sources. -/
theorem step_watch (hc : CallsAlive s) (h : step s e = some t) : WatchStep s t e := by
  have either (he : e.returns = false) (h : t.watch = s.watch ∨ t.sources.Off) :
      WatchStep s t e := by
    rcases h with hkept | hoff
    · exact .kept (by simp [he]) hkept
    · exact .cancelled hoff
  cases e with
  | block b =>
    simp only [step] at h
    split at h
    · exact either rfl (State.runBlock_watch h)
    · cases h
  | callback id status data =>
    exact either rfl (.inl (State.watch_of_outskirts (State.fireCallback_outskirts h)))
  | ret rc view => exact State.returnFromCall_watch hc h
  | tick d => exact either rfl (.inl (Option.some.inj h ▸ rfl))
  | releaseBuffer b =>
    simp only [step] at h
    split at h
    · exact either rfl (.inl (Option.some.inj h ▸ rfl))
    · cases h
  | deinit q =>
    simp only [step] at h
    split at h
    · obtain rfl := Option.some.inj h
      exact either rfl (State.performShutdown_watch _)
    · cases h

/-- Sources that are off stay off, unless a call returns after which they are made. -/
theorem step_off (hc : CallsAlive s) (hoff : s.sources.Off) (hcalls : ∀ f ∈ s.stack, f.setsUp = false)
    (h : step s e = some t) : t.sources.Off := by
  have update {view : LibView}
      (h : t.watch = ((s.sources.updateWriteSource view.pollout).timerless, view)) :
      t.sources.Off := by
    have hoff' := hoff.updateWriteSource view.pollout
    exact State.off_of_watch (s := { s with
      sources := s.sources.updateWriteSource view.pollout, lib := view }) h hoff'
  cases step_watch hc h with
  | kept _ hwatch => exact State.off_of_watch hwatch hoff
  | cancelled hoff' => exact hoff'
  | @overlooked rc view _ _ _ _ hwatch =>
    exact State.off_of_watch (s := { s with lib := view }) hwatch hoff
  | updated _ _ _ hwatch | serviced _ _ hwatch => exact update hwatch
  | made hstack hf =>
    have hsets := hcalls _ (hstack ▸ List.mem_cons_self ..)
    rw [hf] at hsets
    cases hsets

/-! ## Leaving -/

/-- Only a step that tears the loop down takes its context. -/
theorem step_context (hs : Sound s.config) (h : step s e = some t)
    (hctx : s.context.isSome) (hgone : t.context = none) : s.tearsDown e := by
  have hkeeps := (step_invariant_sound h hs
    (fun k => k.state.context = s.context ∨ s.tearsDown e) (.inl rfl) ?_).2
  · rcases hkeeps with heq | htears
    · have heq : t.context = s.context := heq
      rw [← heq, hgone] at hctx
      cases hctx
    · exact htears
  · intro k a k' _ hk ha hact
    rcases hk with heq | htears
    · rcases hact.rarely.2.1 with heq' | ⟨-, kind, rfl⟩
      · exact .inl (heq'.trans heq)
      · exact .inr ha.1
    · exact .inr htears

/-- The loop starts leaving when `performShutdown` is called or `nfs_service` has failed. -/
theorem step_leaves (hs : Sound s.config) (h : step s e = some t) (hl : ¬ s.IsLeaving)
    (ht : t.IsLeaving) : e.shutsDown ∨
      ∃ rc view rest, e = .ret rc view ∧ rc < 0 ∧ s.stack = .service :: rest := by
  have hsome : s.context.isSome := by
    by_contra hnone
    exact hl (.inl (by simpa using hnone))
  rcases ht with hgone | ⟨n, hn⟩
  · have htears := step_context hs h hsome hgone
    cases e with
    | block b =>
      cases b with
      | shutdown => exact .inl rfl
      | _ => cases htears
    | deinit q => exact .inl rfl
    | ret rc view =>
      simp only [State.tearsDown] at htears
      split at htears
      · rename_i rest hstack
        exact .inr ⟨rc, view, rest, rfl, by simpa using htears, hstack⟩
      · rename_i n rest hstack
        exact absurd (.inr ⟨n, by rw [hstack]; exact List.mem_cons_self ..⟩) hl
      · cases htears
    | _ => cases htears
  · left
    by_contra hshut
    have hkeeps := (step_invariant_sound h hs
      (fun k => Frame.rpcDestroy n .performShutdown ∈ k.state.stack →
        Frame.rpcDestroy n .performShutdown ∈ s.stack) (fun hf => hf) ?_).2
    · exact hl (.inr ⟨n, hkeeps hn⟩)
    · intro k a k' _ hk ha hact hf
      rcases hact.effects.frames _ hf with hold | ⟨g, hg, cb, status, data, rfl, heq⟩ | hpush
      · exact hk hold
      · cases g with
        | rpcDestroy m next =>
          cases heq
          exact hk hg
        | _ => cases heq
      · cases a with
        | enterRpcDestroy m next =>
          cases hpush
          exact absurd (ha rfl) hshut
        | start | execute | enterClose => cases hpush
        | enter =>
          cases hpush
          cases hact
          simp_all
        | callback | reject | enterDestroy =>
          obtain ⟨_, hpush⟩ := hpush
          cases hpush
        | _ => exact hpush.elim

/-- In a loop that is leaving, the sources of the main connection have been cancelled. -/
def SourcesCancelled (s : State) : Prop := s.IsLeaving → s.sources.Off

theorem SourcesCancelled.step (hs : Sound s.config) (hc : CallsAlive s) (hoff : SourcesCancelled s)
    (h : step s e = some t) : SourcesCancelled t := by
  intro ht
  by_cases hl : s.IsLeaving
  · exact step_off hc (hoff hl) (hl.setsUp hs.wellFormed hc) h
  · have hsome : s.context.isSome := by
      by_contra hnone
      exact hl (.inl (by simpa using hnone))
    rcases step_leaves hs h hl ht with hshut | ⟨rc, view, rest, rfl, hrc, hstack⟩
    · cases e with
      | block b =>
        cases b with
        | shutdown =>
          simp only [NFSKit.step] at h
          split at h
          · exact Option.some.inj h ▸ State.performShutdown_off (.inl hsome)
          · cases h
        | _ => cases hshut
      | deinit q =>
        simp only [NFSKit.step] at h
        split at h
        · exact Option.some.inj h ▸ State.performShutdown_off (.inl hsome)
        · cases h
      | _ => cases hshut
    · simp only [NFSKit.step, State.returnFromCall, hstack, State.serviced, hrc] at h
      exact Option.some.inj h ▸ State.shutdownWithError_off _

theorem sourcesCancelled_of_reachable {timeout : Int}
    (h : Reachable step (State.init timeout) s) : SourcesCancelled s := by
  induction h with
  | refl =>
    intro hl
    exact ⟨rfl, rfl⟩
  | tail h _ hstep ih => exact ih.step (sound_of_reachable h) (callsAlive_of_reachable h) hstep

end NFSKit
