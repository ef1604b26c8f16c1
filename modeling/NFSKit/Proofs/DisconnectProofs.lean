import NFSKit.EventLoop.Conditions
import NFSKit.EventLoop.Proofs.DeliveryProofs
import NFSKit.EventLoop.Proofs.QueryProofs
import NFSKit.EventLoop.Proofs.TeardownProofs
import NFSKit.EventLoop.Proofs.WatchProofs

/-!
# Disconnecting

`disconnect()` submits an umount and does nothing else. What stops the loop is that libnfs disconnects for
an umount: the `nfs_service` that has answered it fails, and `handleIOEvent` takes that for an error and
runs `shutdownWithError`. This gives up the context, and from then on the loop hands nothing to libnfs and
every call throws; but unlike `performShutdown` it leaves the sources of an export query alone.
-/

namespace NFSKit

open Machine

variable {s t : State} {k k' : Config} {a : Action} {e : Event}

/-- Without a context, an operation is answered with an error at once. -/
theorem runBlock_noContext {b : Block} (hctx : s.context = none) (hb : b.isOperation)
    (h : s.runBlock b = some t) :
    ∃ e, t = s.newCaller.resumeContinuation s.nextCaller (.failure e) := by
  have hctx' : s.newCaller.context = none := hctx
  have submitted {type : OperationType} {handler : DataHandler}
      (h : some (s.submit type handler) = some t) :
      ∃ e, t = s.newCaller.resumeContinuation s.nextCaller (.failure e) := by
    refine ⟨.ENOTCONN, (Option.some.inj h).symm.trans ?_⟩
    unfold State.submit
    dsimp only
    rw [hctx']
  have handle {op : State.HandleOperation} {id : Nat} (h : some (s.handleOperation op id) = some t) :
      ∃ e, t = s.newCaller.resumeContinuation s.nextCaller (.failure e) := by
    obtain rfl := Option.some.inj h
    unfold State.handleOperation
    dsimp only
    split
    · exact ⟨_, rfl⟩
    · rw [hctx']
      exact ⟨_, rfl⟩
  cases b with
  | submit => exact submitted h
  | submitWithStatus => exact submitted h
  | mount =>
    refine ⟨.ENOTCONN, (Option.some.inj h).symm.trans ?_⟩
    unfold State.mount
    dsimp only
    rw [hctx']
  | getexports =>
    refine ⟨.ENOTCONN, (Option.some.inj h).symm.trans ?_⟩
    unfold State.getexports
    dsimp only
    rw [hctx']
  | preadIntoBuffer =>
    simp only [State.runBlock] at h
    split at h
    · cases h
    · exact handle h
  | closeFile | readFile | writeFile | preadFile | pwriteFile | fsync | fstat | ftruncate
  | lseek => exact handle h
  | _ => cases hb

theorem configure_noContext (hctx : s.context = none) (x : Setting) :
    s.configure x = .error .ENODATA := by
  simp [State.configure, hctx]

theorem report_noContext (hctx : s.context = none) {α : Type} (read : Ctx → α) :
    s.report read = .error .ENODATA := by
  simp [State.report, hctx]

/-- A loop whose context has gone has stopped when nobody is left to be resumed. -/
theorem stopped_of_noContext {timeout : Int} (h : Reachable step (State.init timeout) s)
    (hctx : s.context = none) (hexports : s.exports.Off)
    (hawaits : ∀ f ∈ s.stack, ∀ cb ∈ f.awaits, s.outcomes cb.caller ≠ []) : s.Stopped := by
  have hs := sound_of_reachable h
  have retires {t : State} (ht : Reachable step s t) : s.Retires t .nfs :=
    retires_of_reachable h hctx ht
  constructor
  · exact (resumption_of_reachable h).2.answered hs.wellFormed hctx hawaits
  · exact (hs.wellFormed.retired hctx).2
  · exact ⟨sourcesCancelled_of_reachable h (.inl hctx), hexports⟩
  · intro t ht
    exact ((retires ht).uses rfl).1
  · intro t ht b u hb hstep
    simp only [step] at hstep
    split at hstep
    · obtain ⟨e, rfl⟩ := runBlock_noContext (retires ht).destroyed hb hstep
      have hfresh : t.outcomes t.nextCaller = [] :=
        ((resumption_of_reachable (h.trans ht)).1.fresh t.nextCaller (le_refl _)).1
      refine ⟨e, ?_⟩
      simp [State.resumeContinuation, State.newCaller, hfresh]
    · cases hstep
  · intro t ht x
    exact ⟨_, configure_noContext (retires ht).destroyed x⟩
  · intro t ht α read
    exact ⟨_, report_noContext (retires ht).destroyed read⟩

/-! ## Umounts -/

/-- An umount has succeeded: its caller has been resumed, or its completion hook is still running. -/
def State.Unmounted (s : State) : Prop :=
  s.Disconnected ∨ ∃ cb v, Frame.completionHook cb (.success v) ∈ s.stack ∧ cb.entry = .submit .umount

/-- An action that makes an umount succeed is the callback of one. -/
theorem Act.unmounted (hk : Sound k) (h : Act k a k') (hu : k'.state.Unmounted) :
    k.state.Unmounted ∨ ∃ f cb status data, a = .callback f cb status data ∧ 0 ≤ status ∧
      cb ∈ k.state.created ∧ cb.entry = .submit .umount := by
  rcases hu with ⟨cb, hcb, hentry, hsuccess⟩ | ⟨cb, v, hf, hentry⟩
  · left
    have hold : cb ∈ k.state.created := by
      rw [h.effects.created] at hcb
      rcases List.mem_append.mp hcb with hmade | hold
      · exact absurd hsuccess (h.made_unanswered hk (Option.mem_toList.mp hmade)).1
      · exact hold
    cases h.results cb.caller with
    | same heq => exact .inl ⟨cb, hold, hentry, heq ▸ hsuccess⟩
    | failed r heq hr =>
      rw [heq, List.mem_append, List.mem_singleton] at hsuccess
      rcases hsuccess with hsuccess | rfl
      · exact .inl ⟨cb, hold, hentry, hsuccess⟩
      · cases hr
    | immediate r heq hi =>
      have hlt := hk.wellFormed.caller_lt cb hold
      omega
    | hooked c r rest heq hi hstack =>
      rw [heq, List.mem_append, List.mem_singleton] at hsuccess
      rcases hsuccess with hsuccess | rfl
      · exact .inl ⟨cb, hold, hentry, hsuccess⟩
      · have hmem : Frame.completionHook c (.success .void) ∈ k.state.stack :=
          hstack ▸ List.mem_cons_self ..
        obtain rfl := hk.wellFormed.caller_inj c (hook_created hk.wellFormed hmem) cb hold hi.symm
        exact .inr ⟨c, .void, hmem, hentry⟩
  · rcases h.hook_mem hf with hold | ⟨f, status, data, rfl, u, hresult⟩
    · exact .inl (.inr ⟨cb, v, hold, hentry⟩)
    · refine .inr ⟨f, cb, status, data, rfl, ?_, h.callback_created hk, hentry⟩
      by_contra hneg
      have hfailed : (u.settle cb status data).1 = .failure (.ofCode (-status)) := by
        unfold State.settle
        dsimp only
        rw [hentry, if_neg (by simp), if_pos (not_le.mp hneg)]
      rw [hfailed] at hresult
      cases hresult

/-- A step after which an umount has succeeded is taken inside `nfs_service`. -/
theorem step_unmounts (hs : Sound s.config) (hunmounts : UnmountsInService s e)
    (h : step s e = some t) (hbefore : ¬ s.Unmounted) (ht : t.Unmounted) :
    e.callsBack ∧ s.stack.head? = some .service := by
  have hanswered := (step_invariant_sound h hs
    (fun k => k.state.Unmounted → e.callsBack ∧ s.stack.head? = some .service)
    (fun hu => absurd hu hbefore) ?_).2
  · exact hanswered ht
  · intro k a k' hk hi ha hact hu
    rcases hact.unmounted hk hu with hold | ⟨f, cb, status, data, rfl, hstatus, hcb, hentry⟩
    · exact hi hold
    · obtain ⟨heq, rfl⟩ := ha
      rw [heq] at hcb
      exact ⟨rfl, hunmounts.1 cb hcb hentry (by simp [Event.succeeds, hstatus])⟩

/-! ## The export query of a loop without a context -/

/-- The context has gone, no source of an export query is left, and no call is in progress after which
one would be made. -/
structure State.Silent (s : State) : Prop where
  context : s.context = none
  exports : s.exports.Off
  calls : ∀ n, (n, false) ∉ s.rpcCalls

namespace State

theorem exportsOff_of_outskirts (h : t.outskirts = s.outskirts) (hoff : s.exports.Off) :
    t.exports.Off := by
  have hread := congrArg (fun o => o.exports.rpcExportsReadSource) h
  have hwrite := congrArg (fun o => o.exports.rpcExportsWriteSource) h
  exact ⟨hread.trans hoff.1, hwrite.trans hoff.2⟩

theorem destroyContext_exportsOff (hoff : s.exports.Off) (kind : Teardown) :
    (s.destroyContext kind).exports.Off := by
  unfold destroyContext
  cases kind with
  | performShutdown =>
    dsimp only
    split
    · exact hoff
    · exact exportsOff_of_outskirts (endTeardown_outskirts _ _ _) hoff
  | shutdownWithError =>
    dsimp only
    split
    · exact hoff
    · exact exportsOff_of_outskirts (endTeardown_outskirts _ _ _) hoff

theorem afterCleanup_exportsOff (hoff : s.exports.Off) (next : AfterCleanup) :
    (s.afterCleanup next).exports.Off := by
  unfold afterCleanup
  cases next with
  | performShutdown =>
    dsimp only
    unfold performShutdownRest
    apply destroyContext_exportsOff
    exact hoff
  | _ => exact hoff

theorem cleanupRpcExports_exportsOff (s : State) (next : AfterCleanup) :
    (s.cleanupRpcExports next).exports.Off := by
  obtain ⟨dropped, heq⟩ := s.exports.cancelRpcExportsSources_eq
  unfold cleanupRpcExports
  rw [heq]
  dsimp only
  split
  · exact ⟨rfl, rfl⟩
  · exact afterCleanup_exportsOff ⟨rfl, rfl⟩ next

theorem performShutdown_exportsOff (hoff : s.exports.Off) : s.performShutdown.exports.Off := by
  unfold performShutdown
  split
  · exact hoff
  · exact cleanupRpcExports_exportsOff _ _

theorem scanForTimeouts_exportsOff (hoff : s.exports.Off) : s.scanForTimeouts.exports.Off := by
  unfold scanForTimeouts
  split
  · exact hoff
  · have hscan : ((s.activeContinuations.filter s.expired).foldl expire s).exports.Off :=
      exportsOff_of_outskirts (foldl_expire_outskirts _ s) hoff
    dsimp only
    split
    · split
      · exact cleanupRpcExports_exportsOff _ _
      · exact hscan
    · exact hscan

end State

/-- A context that is given up leaves no call behind after which sources would be made. -/
theorem ExportsClosed.calls (h : ExportsClosed s t) (hcalls : ∀ n, (n, false) ∉ s.rpcCalls) (n : Nat) :
    (n, false) ∉ t.rpcCalls := by
  cases h with
  | kept _ _ h₃ => exact h₃ ▸ hcalls n
  | closed m _ _ _ _ h₅ =>
    rw [h₅]
    simp

/-- Without a context and without sources of the query, no block makes any. -/
theorem runBlock_silent {b : Block} (hs : s.Silent) (hstack : s.stack = [])
    (hb : b ≠ .handleRpcExportsEvent) (h : s.runBlock b = some t) :
    t.exports.Off ∧ ∀ n, (n, false) ∉ t.rpcCalls := by
  by_cases hplain : b.isPlain
  · have houtskirts := State.runBlock_outskirts hplain h
    refine ⟨State.exportsOff_of_outskirts houtskirts hs.exports, ?_⟩
    exact (ExportsClosed.of_outskirts houtskirts).calls hs.calls
  · cases b with
    | getexports available =>
      obtain ⟨error, rfl⟩ := runBlock_noContext hs.context rfl h
      exact ⟨hs.exports, hs.calls⟩
    | scanForTimeouts =>
      obtain rfl := Option.some.inj h
      exact ⟨State.scanForTimeouts_exportsOff hs.exports, (scanForTimeouts_exports hstack).calls hs.calls⟩
    | handleRpcExportsEvent => exact absurd rfl hb
    | shutdown =>
      obtain rfl := Option.some.inj h
      exact ⟨State.performShutdown_exportsOff hs.exports, (performShutdown_exports hstack).calls hs.calls⟩
    | configure x =>
      simp only [State.runBlock, configure_noContext hs.context] at h
      obtain rfl := Option.some.inj h
      exact ⟨hs.exports, hs.calls⟩
    | setLogHandler handler =>
      obtain rfl := Option.some.inj h
      unfold State.setLogHandler
      rw [hs.context]
      exact ⟨hs.exports, hs.calls⟩
    | _ => exact absurd rfl hplain

/-- The calls that can return without a context are those that destroy one. -/
theorem returnFromCall_silent {rc : Int} {view : LibView} (hs : s.Silent) (hc : CallsAlive s)
    (h : s.returnFromCall rc view = some t) :
    t.exports.Off ∧ ∀ n, (n, false) ∉ t.rpcCalls := by
  have gone {f : Frame} {rest : List Frame} (hstack : s.stack = f :: rest) (hneeds : f.needsContext) :
      False := by
    have hsome := hc f (hstack ▸ List.mem_cons_self ..) hneeds
    rw [hs.context] at hsome
    cases hsome
  have rest_calls {f : Frame} {rest : List Frame} (hstack : s.stack = f :: rest) (n : Nat) :
      (n, false) ∉ rest.filterMap Frame.rpcCall := by
    intro hmem
    refine hs.calls n ?_
    rw [rpcCalls_cons hstack]
    exact List.mem_append_right _ hmem
  unfold State.returnFromCall at h
  split at h
  · cases h
  · cases h
  · rename_i site cb ran rest hstack
    exact (gone hstack rfl).elim
  · rename_i rest hstack
    exact (gone hstack rfl).elim
  · rename_i n rest hstack
    refine absurd ?_ (hs.calls n)
    rw [rpcCalls_cons hstack]
    exact List.mem_cons_self ..
  · rename_i fh rest hstack
    exact (gone hstack rfl).elim
  · rename_i m next rest hstack
    obtain rfl := Option.some.inj h
    have hoff : (({ s with stack := rest } : State).dropRequests (.rpc m)).exports.Off := hs.exports
    exact ⟨State.afterCleanup_exportsOff hoff next, (afterCleanup_exports _ next).calls (rest_calls hstack)⟩
  · rename_i kind conts rest hstack
    obtain rfl := Option.some.inj h
    have houtskirts := State.endTeardown_outskirts (({ s with stack := rest } : State).dropRequests .nfs)
      kind conts
    refine ⟨State.exportsOff_of_outskirts houtskirts hs.exports, ?_⟩
    exact (ExportsClosed.of_outskirts houtskirts).calls (rest_calls hstack)

theorem State.Silent.step (hs : s.Silent) (hc : ContextsSafe s) (hfires : FiresFromSources s e)
    (h : step s e = some t) : t.Silent := by
  have hrest : t.exports.Off ∧ ∀ n, (n, false) ∉ t.rpcCalls := by
    cases e with
    | block b =>
      simp only [NFSKit.step] at h
      split at h
      · rename_i hidle
        simp only [Bool.and_eq_true, List.isEmpty_iff] at hidle
        refine runBlock_silent hs hidle.1 ?_ h
        rintro rfl
        exact hfires rfl hs.exports
      · cases h
    | callback id status data =>
      have houtskirts := State.fireCallback_outskirts h
      refine ⟨State.exportsOff_of_outskirts houtskirts hs.exports, ?_⟩
      exact (ExportsClosed.of_outskirts houtskirts).calls hs.calls
    | ret rc view => exact returnFromCall_silent hs hc.alive h
    | tick d =>
      obtain rfl := Option.some.inj h
      exact ⟨hs.exports, hs.calls⟩
    | releaseBuffer b =>
      simp only [NFSKit.step] at h
      split at h
      · obtain rfl := Option.some.inj h
        exact ⟨hs.exports, hs.calls⟩
      · cases h
    | deinit q =>
      simp only [NFSKit.step] at h
      split at h
      · rename_i hidle
        simp only [Bool.and_eq_true, List.isEmpty_iff] at hidle
        obtain rfl := Option.some.inj h
        have hclosed : ExportsClosed { s with alive := false, onQueue := q } _ :=
          performShutdown_exports hidle.1.1
        exact ⟨State.performShutdown_exportsOff hs.exports, hclosed.calls hs.calls⟩
      · cases h
  exact ⟨(step_noContext hc hs.context h).1, hrest.1, hrest.2⟩

/-! ## Runs -/

/-- The `nfs_service` that fails gives up the context. -/
theorem serviceFailed_silent {rc : Int} {view : LibView} (hnested : NestedAbove s.stack)
    (hstack : s.stack.head? = some .service) (hrc : rc < 0) (hoff : s.exports.Off)
    (hctx : s.context.isSome) (h : step s (.ret rc view) = some t) : t.Silent := by
  obtain ⟨rest, hrest⟩ := List.head?_eq_some_iff.mp hstack
  rw [hrest] at hnested
  obtain rfl := hnested.rest_eq_nil rfl
  obtain ⟨ctx, hsome⟩ := Option.isSome_iff_exists.mp hctx
  simp only [step, State.returnFromCall, hrest, State.setView, State.serviced, hrc, if_true,
    State.shutdownWithError, State.destroyContext, hsome] at h
  obtain rfl := Option.some.inj h
  refine ⟨rfl, hoff, ?_⟩
  intro n hn
  cases hn

/-- In every run in which libnfs disconnects for an umount, Dispatch runs the handlers of live sources
only, and no sources of an export query are left when the `nfs_service` of the umount returns: once an
umount has succeeded, that `nfs_service` is still in progress or the loop has given up its context. -/
theorem unmounted_of_reaches {timeout : Int}
    (h : Reaches step (fun u e => UnmountsInService u e ∧ FiresFromSources u e ∧ LeavesNoQuery u e)
      (State.init timeout) s) (hu : s.Unmounted) : .service ∈ s.stack ∨ s.Silent := by
  induction h with
  | refl =>
    rcases hu with ⟨cb, hcb, -⟩ | ⟨cb, v, hf, -⟩
    · cases hcb
    · cases hf
  | @tail u v e hrun hP hstep ih =>
    obtain ⟨hunmounts, hfires, hleaves⟩ := hP
    have hs := sound_of_reachable hrun.reachable
    have hc := contextsSafe_of_reachable hrun.reachable
    have stays (hservice : .service ∈ u.stack)
        (hreturns : e.returns → u.stack.head? = some .service → v.Silent) :
        .service ∈ v.stack ∨ v.Silent := by
      rcases step_service hs.wellFormed.nested hservice hstep with hstill | ⟨hret, hhead⟩
      · exact .inl hstill
      · exact .inr (hreturns hret hhead)
    by_cases hbefore : u.Unmounted
    · rcases ih hbefore with hservice | hsilent
      · refine stays hservice fun hret hhead => ?_
        -- no completion hook is left below the call that returns
        have hdisconnected : u.Disconnected := by
          rcases hbefore with hdone | ⟨cb, value, hf, -⟩
          · exact hdone
          · obtain ⟨rest, hrest⟩ := List.head?_eq_some_iff.mp hhead
            have hnested : NestedAbove u.stack := hs.wellFormed.nested
            rw [hrest] at hnested hf
            rw [hnested.rest_eq_nil rfl, List.mem_singleton] at hf
            cases hf
        cases e with
        | ret rc view =>
          have hrc := hunmounts.2 rc rfl hhead hdisconnected
          have hctx := callsAlive_of_reachable hrun.reachable _ hservice rfl
          exact serviceFailed_silent hs.wellFormed.nested hhead hrc (hleaves rfl hhead hdisconnected)
            hctx hstep
        | _ => cases hret
      · exact .inr (hsilent.step hc hfires hstep)
    · obtain ⟨hcallback, hhead⟩ := step_unmounts hs hunmounts hstep hbefore hu
      refine stays (List.mem_of_mem_head? hhead) fun hret => ?_
      cases e with
      | ret => cases hcallback
      | _ => cases hret

/-- The events of a client that connects, submits whatever `asked` starts and disconnects; libnfs answers
the umount in an `nfs_service` that fails, and the context is destroyed. -/
def disconnectEvents (asked : List Event) (id : Nat) : List Event :=
  [.block .mount, .ret 0 { fd := 5, socketIno := 1 }, .block .handleIOEvent, .callback 1 0 none,
    .ret 0 { fd := 5, socketIno := 1 }] ++ asked ++
  [.block .disconnect, .ret 0 { fd := 5, socketIno := 1 }, .block .handleIOEvent,
    .callback id 0 none, .ret (-1) {}, .ret 0 {}]

end NFSKit
