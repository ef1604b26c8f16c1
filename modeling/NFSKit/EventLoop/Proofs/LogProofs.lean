import NFSKit.EventLoop.Holdings
import NFSKit.EventLoop.Proofs.ConvergenceProofs
import NFSKit.Proofs.ClientProofs

/-!
# The boxes of the log handlers

libnfs is given a pointer to the box of the handler that is installed. A box that is replaced or removed is
released, so the box that libnfs knows must be the one that is kept. Only a failing `nfs_service` gives up
the context and leaves the handler where it is.
-/

namespace NFSKit

open Machine

variable {s t u : State} {e : Event} {p q : Prop}

/-! ## What a step does to the handler -/

/-- The log handler stays, or the loop leaves: the handler is removed, and the context given up. -/
def LogKept (leaves : Prop) (s t : State) : Prop :=
  t.logHandler = s.logHandler ∨ leaves ∧ t.logHandler = false ∧ t.context = none

theorem LogKept.congr (h : LogKept p s t) (hlog : s.logHandler = u.logHandler) : LogKept p u t :=
  h.imp_left fun heq => heq.trans hlog

theorem LogKept.mono (h : LogKept p s t) (hpq : p → q) : LogKept q s t :=
  h.imp_right fun hleft => ⟨hpq hleft.1, hleft.2⟩

theorem logHandler_of_outskirts (h : t.outskirts = s.outskirts) : t.logHandler = s.logHandler :=
  congrArg Outskirts.logHandler h

theorem updateWriteSource_logHandler (s : State) : s.updateWriteSource.logHandler = s.logHandler := by
  unfold State.updateWriteSource
  split <;> rfl

theorem destroyContext_logHandler (s : State) (kind : Teardown) :
    (s.destroyContext kind).logHandler = s.logHandler ∧ (s.destroyContext kind).context = none := by
  have hend (u : State) (l : List CallbackData) : (u.endTeardown kind l).logHandler = u.logHandler :=
    logHandler_of_outskirts (State.endTeardown_outskirts u kind l)
  unfold State.destroyContext
  cases kind with
  | performShutdown =>
    dsimp only
    split
    · exact ⟨rfl, rfl⟩
    · rename_i hctx
      exact ⟨hend _ _, (State.endTeardown_context _ _ _).trans hctx⟩
  | shutdownWithError =>
    dsimp only
    split
    · exact ⟨rfl, rfl⟩
    · rename_i hctx
      exact ⟨hend _ _, (State.endTeardown_context _ _ _).trans hctx⟩

theorem afterCleanup_log (s : State) (next : AfterCleanup) :
    LogKept (next = .performShutdown) s (s.afterCleanup next) := by
  cases next with
  | done | getexports => exact .inl rfl
  | performShutdown =>
    unfold State.afterCleanup State.performShutdownRest
    exact .inr ⟨rfl, destroyContext_logHandler _ _⟩

theorem cleanupRpcExports_log (s : State) (next : AfterCleanup) :
    LogKept (next = .performShutdown) s (s.cleanupRpcExports next) := by
  unfold State.cleanupRpcExports
  dsimp only
  split
  · exact .inl rfl
  · exact afterCleanup_log _ next

theorem cleanupRpcExports_done (s : State) : (s.cleanupRpcExports .done).logHandler = s.logHandler :=
  (cleanupRpcExports_log s .done).resolve_right nofun

theorem performShutdown_log (s : State) :
    LogKept (s.context.isSome ∨ s.activeContinuations ≠ []) s s.performShutdown := by
  unfold State.performShutdown
  split
  · exact .inl rfl
  · rename_i hup
    refine (cleanupRpcExports_log _ _).mono fun _ => ?_
    simp only [Bool.and_eq_true, Option.isNone_iff_eq_none, List.isEmpty_iff, not_and_or] at hup
    exact hup.imp_left Option.isSome_iff_ne_none.mpr

theorem scanForTimeouts_logHandler (s : State) : s.scanForTimeouts.logHandler = s.logHandler := by
  have hscan := logHandler_of_outskirts
    (State.foldl_expire_outskirts (s.activeContinuations.filter s.expired) s)
  unfold State.scanForTimeouts
  split
  · rfl
  · dsimp only
    split
    · split
      · exact (cleanupRpcExports_done _).trans hscan
      · exact hscan
    · exact hscan

/-- Of the queue blocks, only `setLogHandler` sets a handler. -/
theorem runBlock_log {b : Block} (h : s.runBlock b = some t) (hb : ∀ handler, b ≠ .setLogHandler handler) :
    LogKept (s.context.isSome ∨ s.activeContinuations ≠ []) s t := by
  cases hplain : b.isPlain with
  | true => exact .inl (logHandler_of_outskirts (State.runBlock_outskirts hplain h))
  | false =>
    cases b with
    | getexports available =>
      refine .inl (Option.some.inj h ▸ ?_)
      unfold State.getexports
      extract_lets caller s' n cb t u
      split
      · rfl
      · split
        · rfl
        · split <;> rfl
    | scanForTimeouts => exact .inl (Option.some.inj h ▸ scanForTimeouts_logHandler s)
    | handleRpcExportsEvent =>
      refine .inl (Option.some.inj h ▸ ?_)
      unfold State.handleRpcExportsEvent
      split <;> rfl
    | shutdown => exact Option.some.inj h ▸ performShutdown_log s
    | configure x =>
      simp only [State.runBlock] at h
      split at h
      · rename_i u hu
        obtain rfl := Option.some.inj h
        obtain ⟨-, rfl⟩ := configure_ok hu
        exact .inl rfl
      · exact .inl (Option.some.inj h ▸ rfl)
    | setLogHandler handler => exact absurd rfl (hb handler)
    | _ => cases hplain

theorem setView_logHandler (s : State) (ctx : Ctx) (view : LibView) :
    (s.setView ctx view).logHandler = s.logHandler := by
  cases ctx <;> rfl

theorem rejected_logHandler (s : State) (site : Site) (cb : CallbackData) (rc : Int) :
    (s.rejected site cb rc).logHandler = s.logHandler := by
  unfold State.rejected
  cases site with
  | issueOperation => exact logHandler_of_outskirts (State.resume_outskirts _ _ _)
  | handleOperation =>
    dsimp only
    rw [State.runCleanup_eq]
    rfl
  | mount => rfl
  | getexports n => exact (cleanupRpcExports_log _ _).resolve_right nofun
  | pending i op =>
    refine (logHandler_of_outskirts (State.drainFrom_outskirts _ _)).trans ?_
    rw [updateWriteSource_logHandler]
    exact logHandler_of_outskirts (State.resume_outskirts _ _ _)

theorem accepted_logHandler (s : State) (site : Site) (cb : CallbackData) :
    (s.accepted site cb).logHandler = s.logHandler := by
  unfold State.accepted
  cases site with
  | issueOperation | handleOperation => exact updateWriteSource_logHandler _
  | mount =>
    dsimp only
    split
    · exact updateWriteSource_logHandler _
    · rfl
  | getexports n =>
    dsimp only
    split <;> rfl
  | pending i op =>
    exact (logHandler_of_outskirts (State.drainFrom_outskirts _ _)).trans (updateWriteSource_logHandler _)

theorem serviced_logHandler (s : State) (rc : Int) : (s.serviced rc).logHandler = s.logHandler := by
  unfold State.serviced
  split
  · exact (destroyContext_logHandler _ _).1
  · extract_lets t
    have ht : t.logHandler = s.logHandler := by
      simp only [t]
      split <;> rfl
    refine (logHandler_of_outskirts (State.issuePendingOperations_outskirts _)).trans ?_
    rw [updateWriteSource_logHandler, ht]

theorem rpcServiced_logHandler (s : State) (rc : Int) : (s.rpcServiced rc).logHandler = s.logHandler := by
  unfold State.rpcServiced
  split
  · exact cleanupRpcExports_done _
  · split
    · exact cleanupRpcExports_done _
    · rfl

theorem returnFromCall_log {rc : Int} {view : LibView} (h : s.returnFromCall rc view = some t) :
    LogKept (∃ n rest, s.stack = .rpcDestroy n .performShutdown :: rest) s t := by
  unfold State.returnFromCall at h
  split at h
  · cases h
  · cases h
  · dsimp only at h
    split at h
    · split at h
      · cases h
      · obtain rfl := Option.some.inj h
        exact .inl ((rejected_logHandler _ _ _ _).trans (setView_logHandler _ _ _))
    · obtain rfl := Option.some.inj h
      refine .inl ?_
      rw [accepted_logHandler, State.enqueueRequest_eq]
      exact setView_logHandler _ _ _
  · obtain rfl := Option.some.inj h
    exact .inl (serviced_logHandler _ rc)
  · obtain rfl := Option.some.inj h
    exact .inl (rpcServiced_logHandler _ rc)
  · obtain rfl := Option.some.inj h
    exact .inl rfl
  · rename_i n next rest hstack
    obtain rfl := Option.some.inj h
    exact (afterCleanup_log _ next).mono fun hnext => ⟨n, rest, by rw [hstack, hnext]⟩
  · obtain rfl := Option.some.inj h
    exact .inl ((logHandler_of_outskirts (State.endTeardown_outskirts _ _ _)).trans rfl)

/-- Only `setLogHandler` sets a handler; what removes it gives up the context. -/
theorem step_log (h : step s e = some t) (he : ∀ handler, e ≠ .block (.setLogHandler handler)) :
    LogKept (s.context.isSome ∨ s.activeContinuations ≠ [] ∨
      ∃ n rest, s.stack = .rpcDestroy n .performShutdown :: rest) s t := by
  cases e with
  | block b =>
    simp only [step] at h
    split at h
    · refine (runBlock_log h fun handler hb => he handler (congrArg Event.block hb)).mono ?_
      exact Or.imp_right .inl
    · cases h
  | callback id status data => exact .inl (logHandler_of_outskirts (State.fireCallback_outskirts h))
  | ret rc view => exact (returnFromCall_log h).mono fun hleaves => .inr (.inr hleaves)
  | tick d => exact Option.some.inj h ▸ .inl rfl
  | releaseBuffer b =>
    simp only [step] at h
    split at h
    · exact Option.some.inj h ▸ .inl rfl
    · cases h
  | deinit q =>
    simp only [step] at h
    split at h
    · refine Option.some.inj h ▸ (performShutdown_log { s with alive := false, onQueue := q }).mono ?_
      exact Or.imp_right .inl
    · cases h

/-! ## The boxes -/

/-- What holds of the boxes: the one that is kept is that of the installed handler, and as long as libnfs may
log, it knows this one or none. -/
structure LogBoxes.Kept (w : Monitored State LogBoxes) : Prop where
  steps : Slot.Steps {} w.notes.slot
  installed : w.state.logHandler = w.notes.box.isSome
  registered : (w.state.context.isSome ∨ ∃ kind conts, Frame.destroy kind conts ∈ w.state.stack) →
    w.notes.registered = w.notes.box

theorem LogBoxes.release_steps (b : LogBoxes) : Slot.Steps b.slot b.release.slot := by
  cases hbox : b.box with
  | none =>
    have hsame : b.release.slot = b.slot := by
      unfold LogBoxes.release LogBoxes.slot
      rw [hbox]
      rfl
    rw [hsame]
  | some n =>
    have hafter : b.release.slot =
        { b.slot with current := none, leaving := none, released := n :: b.released } := by
      unfold LogBoxes.release LogBoxes.slot
      rw [hbox]
      rfl
    rw [hafter]
    exact .discard hbox rfl

theorem LogBoxes.setLogHandler_steps (b : LogBoxes) (live handler : Bool) :
    Slot.Steps b.slot (b.setLogHandler live handler).slot := by
  unfold LogBoxes.setLogHandler
  dsimp only
  split
  · split
    · exact b.release_steps.tail (.acquire b.release.slot rfl)
    · exact b.release_steps
  · exact b.release_steps

/-- `nfs_destroy_context` is called on a loop that has its context. -/
theorem destroys_live (hs : Sound s.config) (h : step s e = some t)
    (ht : t.context.isSome ∨ ∃ kind conts, Frame.destroy kind conts ∈ t.stack) :
    s.context.isSome ∨ ∃ kind conts, Frame.destroy kind conts ∈ s.stack := by
  refine step_invariant_sound h hs (fun k => k.state.context.isSome ∨
    (∃ kind conts, Frame.destroy kind conts ∈ k.state.stack) →
      s.context.isSome ∨ ∃ kind conts, Frame.destroy kind conts ∈ s.stack) id ?_ |>.2 ht
  intro k a k' _ hI _ hact hk'
  rcases hk' with hctx | ⟨kind, conts, hmem⟩
  · exact hI (.inl (hact.context_isSome hctx))
  · rcases hact.effects.frames _ hmem with hold | ⟨g, hg, cb, status, data, -, heq⟩ | hpushed
    · exact hI (.inr ⟨kind, conts, hold⟩)
    · cases g with
      | destroy kind' conts' => exact hI (.inr ⟨kind', conts', hg⟩)
      | _ => cases heq
    · cases a with
      | enterDestroy kind' =>
        cases hact with
        | enterDestroy hctx => exact hI (.inl hctx)
      | enter g =>
        obtain rfl := hpushed
        cases hact with
        | enter hstack hg =>
          rcases hg with hg | ⟨n, hg⟩
          · cases hg
          · cases hg
      | callback g cb status data =>
        obtain ⟨r, hr⟩ := hpushed
        cases hr
      | reject site cb ran =>
        obtain ⟨n, hn⟩ := hpushed
        cases hn
      | _ => cases hpushed

theorem LogBoxes.note_of_ne (he : ∀ handler, e ≠ .block (.setLogHandler handler)) (b : LogBoxes) :
    LogBoxes.note s e t b =
      if s.logHandler && !t.logHandler then { b.release with registered := none } else b := by
  unfold LogBoxes.note
  split
  · rename_i handler
    exact absurd rfl (he handler)
  · rfl

/-- A step that does not set the handler keeps the boxes. -/
theorem LogBoxes.Kept.other {w : Monitored State LogBoxes} (hk : LogBoxes.Kept w) (hs : Sound w.state.config)
    (h : step w.state e = some t) (he : ∀ handler, e ≠ .block (.setLogHandler handler)) :
    LogBoxes.Kept ⟨t, LogBoxes.note w.state e t w.notes⟩ := by
  rw [LogBoxes.note_of_ne he]
  by_cases hremoved : w.state.logHandler && !t.logHandler
  · rw [if_pos hremoved]
    refine ⟨hk.steps.trans w.notes.release_steps, ?_, fun _ => rfl⟩
    simp only [Bool.and_eq_true, Bool.not_eq_true'] at hremoved
    exact hremoved.2
  · rw [if_neg hremoved]
    refine ⟨hk.steps, ?_, fun hlive => hk.registered (destroys_live hs h hlive)⟩
    have hsame : t.logHandler = w.state.logHandler := by
      rcases step_log h he with hsame | ⟨-, hcleared, -⟩
      · exact hsame
      · rw [hcleared, Bool.not_false, Bool.and_true, Bool.not_eq_true] at hremoved
        rw [hcleared, hremoved]
    exact hsame.trans hk.installed

theorem LogBoxes.Kept.setLogHandler {w : Monitored State LogBoxes} (hk : LogBoxes.Kept w)
    (hstack : w.state.stack = []) (handler : Bool) :
    LogBoxes.Kept ⟨w.state.setLogHandler handler, w.notes.setLogHandler w.state.context.isSome handler⟩ := by
  have hsteps := hk.steps.trans (w.notes.setLogHandler_steps w.state.context.isSome handler)
  cases hctx : w.state.context with
  | none =>
    rw [hctx] at hsteps
    refine ⟨hsteps, ?_, ?_⟩
    · unfold State.setLogHandler
      rw [hctx]
      rfl
    · unfold State.setLogHandler
      rw [hctx]
      rintro (hlive | ⟨kind, conts, hmem⟩)
      · rw [show w.state.context = none from hctx] at hlive
        cases hlive
      · rw [show w.state.stack = [] from hstack] at hmem
        cases hmem
  | some ctx =>
    rw [hctx] at hsteps
    refine ⟨hsteps, ?_, fun _ => ?_⟩
    · unfold State.setLogHandler LogBoxes.setLogHandler
      rw [hctx]
      cases handler <;> rfl
    · unfold LogBoxes.setLogHandler
      cases handler <;> rfl

theorem LogBoxes.Kept.step {w : Monitored State LogBoxes} (hk : LogBoxes.Kept w) (hs : Sound w.state.config)
    (h : NFSKit.step w.state e = some t) : LogBoxes.Kept ⟨t, LogBoxes.note w.state e t w.notes⟩ := by
  by_cases he : ∃ handler, e = .block (.setLogHandler handler)
  · obtain ⟨handler, rfl⟩ := he
    simp only [NFSKit.step] at h
    split at h
    · rename_i hidle
      simp only [Bool.and_eq_true, List.isEmpty_iff] at hidle
      obtain rfl := Option.some.inj h
      exact hk.setLogHandler hidle.1 handler
    · cases h
  · exact hk.other hs h fun handler heq => he ⟨handler, heq⟩

theorem LogBoxes.kept_of_reachable {timeout : Int} {w : Monitored State LogBoxes}
    (h : Reachable (monitor NFSKit.step LogBoxes.note) ⟨State.init timeout, {}⟩ w) : LogBoxes.Kept w := by
  refine h.monitored_invariant (P := fun _ _ => True) (I := LogBoxes.Kept) ?_ fun v e t hv hk _ hstep => ?_
  · exact ⟨Relation.ReflTransGen.refl, rfl, fun _ => rfl⟩
  · exact hk.step (sound_of_reachable hv) hstep

/-- Every box of a log handler is released once at most, and all but the one of the installed handler have
been released; and as long as the context lives or a call on it is in progress, so that libnfs may log, the
box that libnfs knows has not been released. -/
theorem log_boxes_accounted {timeout : Int} {w : Monitored State LogBoxes}
    (h : Reachable (monitor step LogBoxes.note) ⟨State.init timeout, {}⟩ w) :
    w.notes.released.reverse ++ w.notes.box.toList = List.range w.notes.made ∧
      w.notes.box.isSome = w.state.logHandler ∧
      ((w.state.context.isSome ∨ ∃ f ∈ w.state.stack, f.ctx = some .nfs) →
        ∀ b, w.notes.registered = some b → w.notes.box = some b ∧ b ∉ w.notes.released) := by
  have hrun : Reachable step (State.init timeout) w.state := Reaches.state (P := fun _ _ => True) h
  have hk := LogBoxes.kept_of_reachable h
  have haccounted := hk.steps.accounted
  refine ⟨?_, hk.installed.symm, fun hlogs b hb => ?_⟩
  · have heq : w.notes.released.reverse ++ [] ++ w.notes.box.toList = List.range w.notes.made := haccounted
    rwa [List.append_nil] at heq
  · have hlive : w.state.context.isSome ∨ ∃ kind conts, Frame.destroy kind conts ∈ w.state.stack := by
      rcases hlogs with hctx | ⟨f, hf, hctx⟩
      · exact .inl hctx
      · cases f with
        | destroy kind conts => exact .inr ⟨kind, conts, hf⟩
        | handOver | service | close => exact .inl (callsAlive_of_reachable hrun _ hf rfl)
        | _ => cases hctx
    have hbox : w.notes.box = some b := (hk.registered hlive).symm.trans hb
    exact ⟨hbox, haccounted.current_not_released hbox⟩

/-- Two handlers, one after the other; then `nfs_service` fails. -/
theorem log_boxes_accounted_service :
    ∃ w, run (monitor step LogBoxes.note) ⟨State.init 60000000000, {}⟩
        [.block (.setLogHandler true), .block (.setLogHandler true), .block .handleIOEvent,
          .ret (-5) {}] = some w ∧
      w.state.context = none ∧ (∃ f ∈ w.state.stack, f.ctx = some .nfs) ∧
      ∀ b, w.notes.registered = some b → w.notes.box = some b ∧ b ∉ w.notes.released := by
  have hrun : ((run (monitor step LogBoxes.note) ⟨State.init 60000000000, {}⟩
      [.block (.setLogHandler true), .block (.setLogHandler true), .block .handleIOEvent,
        .ret (-5) {}]).any fun w =>
      w.state.context = none ∧ (∃ f ∈ w.state.stack, f.ctx = some .nfs)) = true := by
    decide +kernel
  obtain ⟨w, hw, hfacts⟩ := (Option.any_eq_true _ _).mp hrun
  obtain ⟨hctx, hcall⟩ := of_decide_eq_true hfacts
  exact ⟨w, hw, hctx, hcall, (log_boxes_accounted (reachable_of_run hw)).2.2 (.inr hcall)⟩

/-! ## The box that is left -/

/-- On a loop without a context, `performShutdown` destroys no export context either. -/
theorem step_leaving (hs : Sound s.config) (hctx : s.context = none) (h : step s e = some t) {n : Nat}
    (hn : .rpcDestroy n .performShutdown ∈ t.stack) : .rpcDestroy n .performShutdown ∈ s.stack := by
  have hactive : s.activeContinuations = [] := (hs.wellFormed.retired hctx).1
  by_cases hshuts : e.shutsDown
  · cases e with
    | block b =>
      cases b with
      | shutdown =>
        simp only [step] at h
        split at h
        · obtain rfl := Option.some.inj h
          rwa [performShutdown_down hctx hactive] at hn
        · cases h
      | _ => cases hshuts
    | deinit q =>
      simp only [step] at h
      split at h
      · obtain rfl := Option.some.inj h
        rwa [performShutdown_down (s := { s with alive := false, onQueue := q }) hctx hactive] at hn
      · cases h
    | _ => cases hshuts
  · refine step_invariant_sound h hs (fun k => .rpcDestroy n .performShutdown ∈ k.state.stack →
      .rpcDestroy n .performShutdown ∈ s.stack) id ?_ |>.2 hn
    intro k a k' _ hI ha hact hmem
    rcases hact.effects.frames _ hmem with hold | ⟨g, hg, cb, status, data, -, heq⟩ | hpushed
    · exact hI hold
    · cases g with
      | rpcDestroy =>
        cases heq
        exact hI hg
      | _ => cases heq
    · cases a with
      | enterRpcDestroy m next =>
        cases hpushed
        exact absurd (ha rfl) hshuts
      | enter g =>
        obtain rfl := hpushed
        cases hact with
        | enter hstack hg =>
          rcases hg with hg | ⟨m, hg⟩
          · cases hg
          · cases hg
      | callback g cb status data =>
        obtain ⟨r, hr⟩ := hpushed
        cases hr
      | reject site cb ran =>
        obtain ⟨m, hm⟩ := hpushed
        cases hm
      | enterDestroy kind =>
        obtain ⟨conts, hconts⟩ := hpushed
        cases hconts
      | _ => cases hpushed

/-- A step that gives the context up leaves the call in progress that destroys it. -/
theorem step_gone (hs : Sound s.config) (hctx : s.context.isSome) (h : step s e = some t)
    (hgone : t.context = none) : ∃ kind conts, Frame.destroy kind conts ∈ t.stack := by
  have hkeeps := (step_invariant_sound h hs (fun k => k.state.context = s.context ∨
    ∃ kind conts, Frame.destroy kind conts ∈ k.state.stack) (.inl rfl) ?_).2
  · refine hkeeps.resolve_left fun heq => ?_
    have heq : t.context = s.context := heq
    rw [← heq, hgone] at hctx
    cases hctx
  intro k a k' _ hk ha hact
  rcases hk with heq | ⟨kind, conts, hmem⟩
  · rcases hact.rarely.2.1 with heq' | ⟨-, kind, rfl⟩
    · exact .inl (heq'.trans heq)
    · cases hact with
      | enterDestroy => exact .inr ⟨kind, _, List.mem_cons_self ..⟩
  · rcases hact.destroying_mem rfl hmem with hkept | hleaves
    · exact .inr ⟨kind, conts, hkept⟩
    · -- a destruction that is over in this step had begun before it
      obtain rfl := Action.leaves_destroy hleaves
      obtain ⟨hstate, -⟩ := ha
      rw [hstate] at hmem
      have hnone : s.context = none := hs.ending.destroyed kind conts hmem
      rw [hnone] at hctx
      cases hctx

/-- Without a context no `performShutdown` is under way. -/
theorem not_leaving_of_reachable {timeout : Int} (h : Reachable step (State.init timeout) s)
    (hgone : s.context = none) (n : Nat) : .rpcDestroy n .performShutdown ∉ s.stack := by
  induction h with
  | refl => cases hgone
  | @tail u v e hrun _ hstep ih =>
    have hs := sound_of_reachable hrun
    cases hctx : u.context with
    | none =>
      intro hn
      exact ih hctx (step_leaving hs hctx hstep hn)
    | some ctx =>
      intro hn
      obtain ⟨kind, conts, hmem⟩ := step_gone hs (by rw [hctx]; rfl) hstep hgone
      have hnested := (sound_of_reachable (hrun.tail trivial hstep)).wellFormed.nested
      cases hnested.eq_of_mem hn hmem rfl rfl

/-- The box of a handler that is still installed when the context has been given up, as a failing
`nfs_service` leaves it, stays: neither the end of the teardown nor `shutdown()` nor the end of the loop
releases it, nor anything else but `setLogHandler`. -/
theorem log_box_left {timeout : Int} {w w' : Monitored State LogBoxes}
    (h : Reachable (monitor step LogBoxes.note) ⟨State.init timeout, {}⟩ w)
    (hctx : w.state.context = none) {b : Nat} (hb : w.notes.box = some b)
    (h' : Reaches (monitor step LogBoxes.note) (fun _ e => ∀ handler, e ≠ .block (.setLogHandler handler))
      w w') :
    w'.notes.box = some b ∧ b ∉ w'.notes.released := by
  have hrun : Reachable step (State.init timeout) w.state := Reaches.state (P := fun _ _ => True) h
  have hkept : w'.state.context = none ∧ w'.notes = w.notes := by
    refine h'.monitored_invariant
      (P := fun (_ : State) (e : Event) => ∀ handler, e ≠ .block (.setLogHandler handler))
      (I := fun v => v.state.context = none ∧ v.notes = w.notes) ⟨hctx, rfl⟩ fun v e t hv hI he hstep => ?_
    obtain ⟨hctx, hnotes⟩ := hI
    have hreach := hrun.trans hv.reachable
    have hactive : v.state.activeContinuations = [] := ((sound_of_reachable hreach).wellFormed.retired hctx).1
    refine ⟨(step_noContext (contextsSafe_of_reachable hreach) hctx hstep).1, ?_⟩
    dsimp only
    rw [LogBoxes.note_of_ne he]
    have hsame : t.logHandler = v.state.logHandler := by
      refine (step_log hstep he).resolve_right ?_
      rintro ⟨hlive | hwaiting | ⟨n, rest, hleaving⟩, -⟩
      · rw [hctx] at hlive
        cases hlive
      · exact hwaiting hactive
      · exact not_leaving_of_reachable hreach hctx n (hleaving ▸ List.mem_cons_self ..)
    rw [hsame, if_neg (by simp), hnotes]
  obtain ⟨-, hnotes⟩ := hkept
  rw [hnotes]
  exact ⟨hb, (LogBoxes.kept_of_reachable h).steps.accounted.current_not_released hb⟩

/-- `nfs_service` fails on a mounted loop; from its return on, whatever the callbacks in
`nfs_destroy_context`, a shutdown and the drop of the last reference do, the box stays. -/
theorem log_box_left_deinit :
    ∃ w w', run (monitor step LogBoxes.note) ⟨State.init 60000000000, {}⟩
        (mountEvents ++ [.block (.setLogHandler true), .block Block.stat, .ret 0 .connected,
          .block .handleIOEvent, .ret (-5) {}]) = some w ∧
      w.state.stack ≠ [] ∧
      run (monitor step LogBoxes.note) w
        [.callback 2 (-14) none, .ret 0 {}, .block .shutdown, .deinit true] = some w' ∧
      w'.state.alive = false ∧ w'.notes.box = some 0 ∧ 0 ∉ w'.notes.released := by
  have hrun : ((run (monitor step LogBoxes.note) ⟨State.init 60000000000, {}⟩
      (mountEvents ++ [.block (.setLogHandler true), .block Block.stat, .ret 0 .connected,
        .block .handleIOEvent, .ret (-5) {}])).any fun w =>
      w.state.stack ≠ [] ∧ w.state.context = none ∧ w.notes.box = some 0 ∧
        ((run (monitor step LogBoxes.note) w
          [.callback 2 (-14) none, .ret 0 {}, .block .shutdown, .deinit true]).any fun w' =>
          w'.state.alive = false) ∧
        meets (monitor step LogBoxes.note)
          (fun _ e => decide (∀ handler, e ≠ .block (.setLogHandler handler))) w
          [.callback 2 (-14) none, .ret 0 {}, .block .shutdown, .deinit true]) = true := by
    decide +kernel
  obtain ⟨w, hw, hfacts⟩ := (Option.any_eq_true _ _).mp hrun
  obtain ⟨hstack, hctx, hbox, hlater, hmeets⟩ := of_decide_eq_true hfacts
  obtain ⟨w', hw', halive⟩ := (Option.any_eq_true _ _).mp hlater
  exact ⟨w, w', hw, hstack, hw', of_decide_eq_true halive, log_box_left (reachable_of_run hw) hctx hbox
    (reaches_of_run (fun _ _ => of_decide_eq_true) hw' hmeets)⟩

end NFSKit
