import NFSKit.EventLoop.Conditions
import NFSKit.EventLoop.Proofs.ExportsProofs
import NFSKit.EventLoop.Proofs.HandleProofs
import NFSKit.EventLoop.Proofs.SourcesProofs

/-!
# Teardown

Between the start of a teardown and the moment the loop gives up its context, the only libnfs call is
the destruction of an export context in `performShutdown`. Its callbacks complete the export query and
drain the queue, so an operation can be handed over there.
-/

namespace NFSKit

open Machine

variable {s s' t : State} {k k' : Config} {a : Action} {e : Event}

/-! ## Phases of a teardown -/

/-- Where a teardown is that has started and has not given up the context yet. -/
inductive TeardownPhase (k : Config) : Prop where
  | starting (kind : Teardown) (hmode : k.mode = .tearingDown kind) (hstack : k.state.stack = []) :
      TeardownPhase k
  /-- `rpc_destroy_context` is running. -/
  | destroying (n : Nat) (hmode : k.mode = .idle)
      (hstack : k.state.stack = [.rpcDestroy n .performShutdown]) : TeardownPhase k
  /-- It has called back the export query, and the queue is drained. -/
  | draining (n : Nat) (cb : CallbackData) (r : Outcome) (i : Nat) (hmode : k.mode = .draining i)
      (hstack : k.state.stack = [.completionHook cb r, .rpcDestroy n .performShutdown])
      (hfull : ∀ op ∈ k.state.pendingOperations, k.state.hasCapacity op.category = false) :
      TeardownPhase k
  | finishing (n : Nat) (cb : CallbackData) (r : Outcome) (hmode : k.mode = .finishing)
      (hstack : k.state.stack = [.completionHook cb r, .rpcDestroy n .performShutdown]) :
      TeardownPhase k

namespace TeardownPhase

/-- Outside of every call, only the start of a teardown is possible. -/
theorem of_nil (h : TeardownPhase k) (hstack : k.state.stack = []) : ∃ kind, k.mode = .tearingDown kind := by
  cases h with
  | starting kind hmode => exact ⟨kind, hmode⟩
  | destroying n _ hstack' | draining n cb r i _ hstack' | finishing n cb r _ hstack' =>
    rw [hstack'] at hstack
    cases hstack

/-- Between two actions of other code, `rpc_destroy_context` is running. -/
theorem of_idle (h : TeardownPhase ⟨s, .idle⟩) : ∃ n, s.stack = [.rpcDestroy n .performShutdown] := by
  cases h with
  | destroying n _ hstack => exact ⟨n, hstack⟩
  | starting _ hmode | draining _ _ _ _ hmode | finishing _ _ _ hmode => cases hmode

theorem not_nil {p : Prop} (h : TeardownPhase ⟨s, .idle⟩) (hstack : s.stack = []) : p := by
  obtain ⟨kind, hmode⟩ := h.of_nil hstack
  cases hmode

/-- The call in progress is the innermost one. -/
theorem head_eq (h : TeardownPhase ⟨s, .idle⟩) {f : Frame} {rest : List Frame}
    (hstack : s.stack = f :: rest) : (∃ n, f = .rpcDestroy n .performShutdown) ∧ rest = [] := by
  obtain ⟨n, hn⟩ := h.of_idle
  rw [hn] at hstack
  cases hstack
  exact ⟨⟨n, rfl⟩, rfl⟩

theorem idle (h : TeardownPhase ⟨s, .idle⟩) (hstack : s'.stack = s.stack) :
    TeardownPhase ⟨s', .idle⟩ := by
  obtain ⟨n, hn⟩ := h.of_idle
  exact .destroying n rfl (hstack.trans hn)

end TeardownPhase

/-- What a reply is worth does not depend on the state. -/
theorem replySucceeds_eq (s t : State) (cb : CallbackData) (status : Int) (data : Option Value) :
    s.replySucceeds cb status data = t.replySucceeds cb status data := by
  have hhandler : (s.dataHandler cb status data).1 = (t.dataHandler cb status data).1 := by
    unfold State.dataHandler
    cases cb.dataHandler with
    | unwrap => cases data <;> rfl
    | takeBuffer =>
      dsimp only
      split <;> rfl
    | exports =>
      dsimp only
      split <;> rfl
    | _ => rfl
  unfold State.replySucceeds State.settle
  dsimp only
  rw [hhandler]
  split
  · split <;> rfl
  · split <;> rfl

/-- The capacity after a completion depends on the counts and the controllers only. -/
theorem recordCompletion_hasCapacity (hcount : t.inFlightCount = s.inFlightCount)
    (hbulk : t.bulkController = s.bulkController)
    (hmetadata : t.metadataController = s.metadataController) (c d : OperationCategory) (ok : Bool) :
    (t.recordCompletion c ok).hasCapacity d = (s.recordCompletion c ok).hasCapacity d := by
  rw [State.recordCompletion_eq, State.recordCompletion_eq]
  unfold Core.hasCapacity Core.controller
  simp only [hcount, hbulk, hmetadata]

/-- Nothing has been handed over since a teardown has started. -/
structure TornDown (k : Config) : Prop where
  phase : k.state.teardownStarted → k.state.context.isSome → TeardownPhase k
  handOvers : ∀ h ∈ k.state.handOvers, h.tornDown = false

theorem TornDown.act {u : State} (ht : TornDown k) (hfull : ShutsDownFull u e)
    (ha : Allowed u e k a) (h : Act k a k') : TornDown k' where
  phase := by
    intro hstarted hctx
    have hphase (hstarted : k.state.teardownStarted) : TeardownPhase k :=
      ht.phase hstarted (h.context_isSome hctx)
    cases h with
    | silent hcore =>
      rw [hcore] at hstarted
      cases hphase hstarted with
      | starting kind hmode hstack => exact .starting kind hmode (by rw [hcore]; exact hstack)
      | destroying n hmode hstack => exact .destroying n hmode (by rw [hcore]; exact hstack)
      | draining n cb r i hmode hstack hfull =>
        exact .draining n cb r i hmode (by rw [hcore]; exact hstack) (by rw [hcore]; exact hfull)
      | finishing n cb r hmode hstack => exact .finishing n cb r hmode (by rw [hcore]; exact hstack)
    | startTeardown hstack => exact .starting _ rfl hstack
    | deinit hstack | start hstack | enqueue _ _ _ _ _ _ _ _ _ hstack | enterClose hstack
    | enter hstack => exact (hphase hstarted).not_nil hstack
    | expire hstack =>
      dsimp only [State.expire] at hstarted
      rw [State.resume_eq, State.recordCompletion_eq] at hstarted
      exact (hphase hstarted).not_nil hstack
    | leave hstack hevent =>
      obtain ⟨⟨n, rfl⟩, -⟩ := (hphase hstarted).head_eq hstack
      cases hevent
    | @callback s s₁ s₂ f rest cb status data halive hstack htake hnote =>
      obtain ⟨out, fhs, dirs, b, r, htaken, heq⟩ := State.callback_eq htake hnote
      rw [State.recordCompletion_eq, heq] at hstarted
      obtain ⟨⟨n, rfl⟩, rfl⟩ := (hphase hstarted).head_eq hstack
      obtain ⟨rfl, rfl⟩ := ha
      have hmem : (cb.operationCategory, s.replySucceeds cb status data) ∈
          completions s (.callback cb.continuationID status data) := by
        rcases htaken with ⟨hcall, -⟩ | ⟨q, hq, rfl, -, -⟩
        · cases hcall
        · refine List.mem_map.mpr ⟨q, List.mem_filter.mpr ⟨hq, ?_⟩, rfl⟩
          simp
      have hnone := hfull halive (by simp [hstack, Frame.isShutdownCleanup]) _ hmem
      rw [heq, replySucceeds_eq s₂ s]
      refine .draining n cb r 0 rfl ?_ ?_
      · rw [State.recordCompletion_eq]
        rfl
      · intro op hop
        rw [State.recordCompletion_eq] at hop
        have hnone : (s.recordCompletion cb.operationCategory
          (s.replySucceeds cb status data)).hasCapacity op.category = false := hnone op hop
        refine (recordCompletion_hasCapacity (s := s) ?_ ?_ ?_ _ _ _).trans hnone <;> rfl
    | callbackDead _ hstack htake hnote =>
      obtain ⟨out, fhs, dirs, b, r, -, heq⟩ := State.callback_eq htake hnote
      rw [heq] at hstarted ⊢
      obtain ⟨⟨n, rfl⟩, rfl⟩ := (hphase hstarted).head_eq hstack
      exact .finishing n _ r rfl rfl
    | skip =>
      cases hphase hstarted with
      | draining n cb r j hmode hstack hfull =>
        exact .draining n cb r _ rfl hstack hfull
      | starting _ hmode | destroying _ hmode | finishing _ _ _ hmode => cases hmode
    | execute _ hop hcap =>
      cases hphase hstarted with
      | draining n cb r j hmode hstack hfull =>
        have hno := hfull _ (List.mem_of_getElem? hop)
        rw [hcap] at hno
        cases hno
      | starting _ hmode | destroying _ hmode | finishing _ _ _ hmode => cases hmode
    | drained =>
      cases hphase hstarted with
      | draining n cb r j hmode hstack => exact .finishing n cb r rfl hstack
      | starting _ hmode | destroying _ hmode | finishing _ _ _ hmode => cases hmode
    | @finishHook s =>
      obtain ⟨stack, resumed, outcomes, failed, heq⟩ := State.finishHook_eq s
      rw [heq] at hstarted
      cases hphase hstarted with
      | finishing n cb r hmode hstack =>
        refine .destroying n rfl ?_
        have hstack : s.stack = _ := hstack
        unfold State.finishHook
        rw [hstack]
        dsimp only
        rw [State.resume_stack]
      | starting _ hmode | destroying _ hmode | draining _ _ _ _ hmode => cases hmode
    | accept hstack =>
      rw [State.enqueueRequest_eq] at hstarted
      split at hstarted <;>
      · obtain ⟨⟨n, hn⟩, -⟩ := (hphase hstarted).head_eq hstack
        cases hn
    | reject hstack | rejectPending hstack =>
      rw [State.resume_eq] at hstarted
      obtain ⟨⟨n, hn⟩, -⟩ := (hphase hstarted).head_eq hstack
      cases hn
    | rejectRaw hstack | rejectHandle hstack | rejectExports hstack | exportsFailed hstack =>
      obtain ⟨⟨n, hn⟩, -⟩ := (hphase hstarted).head_eq hstack
      cases hn
    | @enterRpcDestroy s n next hstack =>
      obtain ⟨kind, hmode⟩ := (hphase hstarted).of_nil hstack
      cases next with
      | performShutdown => exact .destroying n rfl (congrArg (List.cons _) hstack)
      | done | getexports => cases hmode
    | leaveRpcDestroy hstack =>
      obtain ⟨⟨n, hn⟩, rfl⟩ := (hphase hstarted).head_eq hstack
      cases hn
      exact .starting .performShutdown rfl rfl
    | leaveDestroy hstack =>
      obtain ⟨bulk, metadata, counts, heq⟩ := State.endTeardown_eq
        ((State.leaveTo _ _).dropRequests .nfs) _ _
      rw [heq, State.foldl_resume_eq] at hstarted
      obtain ⟨⟨n, hn⟩, -⟩ := (hphase hstarted).head_eq hstack
      cases hn
    | enterDestroy => cases hctx
    | @teardownNow s kind hnone =>
      obtain ⟨bulk, metadata, counts, heq⟩ :=
        State.endTeardown_eq (s.clearRegistries kind) kind s.activeContinuations
      rw [heq, State.foldl_resume_eq] at hctx
      cases kind <;>
      · have hctx : s.context.isSome := hctx
        rw [hnone] at hctx
        cases hctx
    | alreadyDown hnone =>
      have hctx : Option.isSome _ := hctx
      rw [hnone] at hctx
      cases hctx
    | _ => exact (hphase hstarted).idle rfl
  handOvers := by
    intro x hx
    rcases h.rarely.2.2 with heq | ⟨site, cb, rfl⟩ | ⟨i, op, rfl⟩
    · exact ht.handOvers x (heq ▸ hx)
    · cases h with
      | @start s site cb hstack hctx =>
        have hnot : s.teardownStarted = false := by
          rw [Bool.eq_false_iff]
          intro hstarted
          exact (ht.phase hstarted hctx).not_nil hstack
        rcases List.mem_cons.mp hx with rfl | hx
        · exact hnot
        · exact ht.handOvers x hx
    · cases h with
      | @execute s i op hctx hop hcap =>
        have hnot : s.teardownStarted = false := by
          rw [Bool.eq_false_iff]
          intro hstarted
          cases ht.phase hstarted hctx with
          | draining n cb r j hmode hstack hfull =>
            have hno : s.hasCapacity op.category = false := hfull op (List.mem_of_getElem? hop)
            rw [hcap] at hno
            cases hno
          | starting _ hmode | destroying _ hmode | finishing _ _ _ hmode => cases hmode
        rcases List.mem_cons.mp hx with rfl | hx
        · exact hnot
        · exact ht.handOvers x hx

theorem tornDown_init (timeout : Int) : TornDown (State.init timeout).config where
  phase := by
    intro hstarted
    cases hstarted
  handOvers := fun _ h => by cases h

/-! ## Destroyed contexts -/

/-- At most one call starts its queue block. -/
theorem NestedAbove.countP_le {l : List Frame} (h : NestedAbove l) :
    l.countP (fun f => !f.nested) ≤ 1 := by
  induction l with
  | nil => simp
  | cons f l ih =>
    rcases h.1 with hf | rfl
    · rw [List.countP_cons_of_neg (by simp [hf])]
      exact ih h.tail
    · exact List.countP_le_length

/-- The call that starts its queue block is the only one that does. -/
theorem NestedAbove.eq_of_mem {l : List Frame} (h : NestedAbove l) {f g : Frame} (hf : f ∈ l) (hg : g ∈ l)
    (hf' : f.nested = false) (hg' : g.nested = false) : f = g := by
  induction l with
  | nil => cases hf
  | cons x l ih =>
    rcases h.1 with hx | rfl
    · have below {y : Frame} (hy : y ∈ x :: l) (hy' : y.nested = false) : y ∈ l := by
        refine (List.mem_cons.mp hy).resolve_left ?_
        rintro rfl
        rw [hx] at hy'
        cases hy'
      exact ih h.tail (below hf hf') (below hg hg')
    · rw [List.mem_singleton] at hf hg
      rw [hf, hg]

theorem Frame.noteCallback_destroys {f : Frame} (h : f.destroys) (i : Nat) : f.noteCallback i = f := by
  cases f <;> first | rfl | cases h

/-- The action is the return of the call `f` that destroys a context. -/
def Action.leaves : Action → Frame → Prop
  | .leaveRpcDestroy n next, f => f = .rpcDestroy n next
  | .leaveDestroy kind conts, f => f = .destroy kind conts
  | _, _ => False

theorem Action.leaves_destroy {kind : Teardown} {conts : List CallbackData}
    (h : a.leaves (.destroy kind conts)) : a = .leaveDestroy kind conts := by
  cases a with
  | leaveRpcDestroy => cases h
  | leaveDestroy =>
    cases h
    rfl
  | _ => exact h.elim

/-- A call that destroys a context stays in progress until it returns. -/
theorem Act.destroying_mem (h : Act k a k') {f : Frame} (hd : f.destroys) (hf : f ∈ k.state.stack) :
    f ∈ k'.state.stack ∨ a.leaves f := by
  have idle {p : Prop} (hstack : k.state.stack = []) : p := by
    rw [hstack] at hf
    cases hf
  have below {g : Frame} {rest : List Frame} (hstack : k.state.stack = g :: rest)
      (hg : g.destroys = false) : f ∈ rest := by
    rw [hstack] at hf
    refine (List.mem_cons.mp hf).resolve_left ?_
    rintro rfl
    rw [hd] at hg
    cases hg
  have left {g : Frame} {rest : List Frame} (hstack : k.state.stack = g :: rest) :
      f ∈ rest ∨ f = g := by
    rw [hstack] at hf
    exact (List.mem_cons.mp hf).symm
  have noted {g : Frame} {rest : List Frame} {c : CallbackData} {r : Outcome}
      (hstack : k.state.stack = g :: rest) :
      f ∈ .completionHook c r :: g.noteCallback c.caller :: rest := by
    refine List.mem_cons_of_mem _ ?_
    rcases left hstack with hrest | rfl
    · exact List.mem_cons_of_mem _ hrest
    · rw [Frame.noteCallback_destroys hd]
      exact List.mem_cons_self ..
  cases h with
  | silent hcore =>
    left
    rw [hcore]
    exact hf
  | start hstack | enqueue _ _ _ _ _ _ _ _ _ hstack | enterClose hstack | enter hstack
  | expire hstack | startTeardown hstack | enterRpcDestroy hstack | enterDestroy _ hstack
  | teardownNow _ hstack => exact idle hstack
  | execute => exact .inl (List.mem_cons_of_mem _ hf)
  | @leave s g rest m hstack hevent =>
    exact .inl (below hstack (by cases g <;> first | rfl | cases hevent))
  | callback _ hstack htake hnote =>
    obtain ⟨out, fhs, dirs, b, r, -, heq⟩ := State.callback_eq htake hnote
    rw [State.recordCompletion_eq, heq]
    exact .inl (noted hstack)
  | callbackDead _ hstack htake hnote =>
    obtain ⟨out, fhs, dirs, b, r, -, heq⟩ := State.callback_eq htake hnote
    rw [heq]
    exact .inl (noted hstack)
  | @finishHook s =>
    left
    unfold State.finishHook
    split
    · rename_i hstack
      rw [State.resume_stack]
      exact below hstack rfl
    · exact hf
  | accept hstack =>
    rw [State.enqueueRequest_eq]
    split <;> exact .inl (below hstack rfl)
  | reject hstack | rejectPending hstack =>
    left
    rw [State.resume_stack]
    exact below hstack rfl
  | rejectRaw hstack | rejectHandle hstack => exact .inl (below hstack rfl)
  | rejectExports hstack => exact .inl (List.mem_cons_of_mem _ (below hstack rfl))
  | leaveRpcDestroy hstack | exportsFailed hstack => exact left hstack
  | @leaveDestroy s kind conts rest hstack =>
    rcases left hstack with hrest | heq
    · left
      rw [State.endTeardown_stack]
      exact hrest
    · exact .inr heq
  | _ => exact .inl hf

theorem Frame.ctx_rpc {f : Frame} {n : Nat} (h : f.ctx = some (.rpc n)) :
    ∃ b, f.rpcCall = some (n, b) := by
  cases f with
  | handOver site cb ran =>
    cases site with
    | getexports m =>
      obtain rfl : m = n := by simpa [Frame.ctx, Site.ctx] using h
      exact ⟨false, rfl⟩
    | _ => simp [Frame.ctx, Site.ctx] at h
  | rpcService m =>
    obtain rfl : m = n := by simpa [Frame.ctx] using h
    exact ⟨false, rfl⟩
  | rpcDestroy m next =>
    obtain rfl : m = n := by simpa [Frame.ctx] using h
    exact ⟨true, rfl⟩
  | completionHook | service | close | destroy => simp [Frame.ctx] at h

theorem Frame.ctx_of_rpcCall {f : Frame} {n : Nat} {b : Bool} (h : f.rpcCall = some (n, b)) :
    f.ctx = some (.rpc n) := by
  cases f with
  | handOver site cb ran =>
    cases site with
    | getexports m =>
      cases h
      rfl
    | _ => cases h
  | rpcService | rpcDestroy =>
    cases h
    rfl
  | _ => cases h

theorem mem_rpcCalls {f : Frame} {n : Nat} {b : Bool} (hf : f ∈ s.stack)
    (h : f.rpcCall = some (n, b)) : (n, b) ∈ s.rpcCalls :=
  List.mem_filterMap.mpr ⟨f, hf, h⟩

/-- What holds of the contexts in every reachable state. -/
structure ContextsSafe (s : State) : Prop where
  sound : Sound s.config
  alive : CallsAlive s
  exports : ExportContexts s

theorem contextsSafe_of_reachable {timeout : Int} (h : Reachable step (State.init timeout) s) :
    ContextsSafe s := by
  refine ⟨sound_of_reachable h, callsAlive_of_reachable h, ?_⟩
  induction h with
  | refl => exact exportContexts_init timeout
  | tail h _ hstep ih => exact ih.step (sound_of_reachable h).wellFormed hstep

namespace ContextsSafe

/-- A call that destroys a context makes it a destroyed one. -/
theorem destroyed_of_mem (hc : ContextsSafe s) {f : Frame} (hf : f ∈ s.stack) (hd : f.destroys)
    {c : Ctx} (hctx : f.ctx = some c) : s.Destroyed c := by
  cases f with
  | rpcDestroy n next =>
    obtain rfl : Ctx.rpc n = c := Option.some.inj hctx
    obtain ⟨hnone, hlt⟩ := hc.exports.destroying n (mem_rpcCalls hf rfl)
    exact ⟨hlt, by simp [hnone]⟩
  | destroy kind conts =>
    obtain rfl : Ctx.nfs = c := Option.some.inj hctx
    exact hc.sound.ending.destroyed kind conts hf
  | _ => cases hd

/-- The calls on a destroyed context destroy it. -/
theorem destroys (hc : ContextsSafe s) {c : Ctx} (h : s.Destroyed c) {f : Frame} (hf : f ∈ s.stack)
    (hctx : f.ctx = some c) : f.destroys := by
  cases c with
  | nfs =>
    have hidle : f.needsContext = false := by
      rw [Bool.eq_false_iff]
      intro hneeds
      have hsome := hc.alive f hf hneeds
      have hnone : s.context = none := h
      rw [hnone] at hsome
      cases hsome
    cases f with
    | destroy => rfl
    | handOver | service | close => cases hidle
    | completionHook | rpcService | rpcDestroy => simp [Frame.ctx] at hctx
  | rpc n =>
    obtain ⟨b, hcall⟩ := Frame.ctx_rpc hctx
    cases b with
    | false => exact absurd (hc.exports.current n (mem_rpcCalls hf hcall)) h.2
    | true =>
      cases f with
      | rpcDestroy => rfl
      | handOver site => cases site <;> simp [Frame.rpcCall] at hcall
      | _ => simp [Frame.rpcCall] at hcall

/-- A destroyed context is destroyed by one call at most. -/
theorem once (hc : ContextsSafe s) {c : Ctx} (h : s.Destroyed c) :
    s.stack.countP (fun f => f.ctx = some c) ≤ 1 := by
  refine le_trans (List.countP_mono_left ?_) hc.sound.wellFormed.nested.countP_le
  intro f hf hctx
  have hd := hc.destroys h hf (by simpa using hctx)
  cases f with
  | rpcDestroy | destroy => rfl
  | _ => cases hd

end ContextsSafe

/-- What an action does without a context: no call on it begins. -/
theorem Act.noContext {u : State} (hc : CallsAlive k.state) (ha : Allowed u e k a) (h : Act k a k')
    (hctx : k.state.context = none) :
    k'.state.context = none ∧ k'.state.handOvers = k.state.handOvers ∧
      k'.state.closedHandles = k.state.closedHandles ∧ k'.state.closedDirs = k.state.closedDirs ∧
      ∀ f ∈ k'.state.stack, f.ctx = some .nfs → f ∈ k.state.stack := by
  have absent (hsome : k.state.context.isSome) {p : Prop} : p := by
    rw [hctx] at hsome
    cases hsome
  have hgone : k'.state.context = none := by
    rcases h.rarely.2.1 with hsame | ⟨hgone, -⟩
    · exact hsame.trans hctx
    · exact hgone
  refine ⟨hgone, ?_, ?_, ?_, ?_⟩
  · rcases h.handed with heq | ⟨x, -, hsome, -⟩
    · exact heq
    · exact absent hsome
  · cases h.handles with
    | kept _ _ hclosed | registered _ _ _ _ _ _ hclosed | read _ _ _ _ _ hclosed => exact hclosed
    | closed _ _ _ _ _ _ _ _ _ hsome => exact absent hsome
  · cases h.handles with
    | kept _ _ _ _ _ hdirs | registered _ _ _ _ _ _ _ _ _ hdirs => exact hdirs
    | closed _ _ _ _ _ _ _ _ _ hsome => exact absent hsome
    | read _ _ _ _ _ _ _ _ hdirs =>
      rcases hdirs with ⟨-, hsome⟩ | ⟨-, hdirs⟩
      · exact absent hsome
      · exact hdirs
  · intro f hf hnfs
    have hneeds := (hc.act ha h) f hf
    rcases h.effects.frames f hf with hold | ⟨g, hg, cb, status, data, rfl, rfl⟩ | hpush
    · exact hold
    · cases g with
      | handOver site c ran => exact absent (hc _ hg rfl)
      | _ => exact hg
    · cases a with
      | start | execute | enterClose =>
        cases hpush
        have hsome := hneeds rfl
        rw [hgone] at hsome
        cases hsome
      | enter g =>
        obtain rfl : f = g := hpush
        cases f with
        | rpcService => simp [Frame.ctx] at hnfs
        | service =>
          have hsome := hneeds rfl
          rw [hgone] at hsome
          cases hsome
        | _ =>
          cases h
          simp_all
      | callback =>
        obtain ⟨r, rfl⟩ := hpush
        simp [Frame.ctx] at hnfs
      | reject =>
        obtain ⟨n, rfl⟩ := hpush
        simp [Frame.ctx] at hnfs
      | enterRpcDestroy =>
        cases hpush
        simp [Frame.ctx] at hnfs
      | enterDestroy =>
        cases h with
        | enterDestroy hsome => exact absent hsome
      | _ => exact hpush.elim

/-- A step without a context. -/
theorem step_noContext (hc : ContextsSafe s) (hctx : s.context = none) (h : step s e = some t) :
    t.context = none ∧ t.handOvers = s.handOvers ∧ t.closedHandles = s.closedHandles ∧
      t.closedDirs = s.closedDirs ∧ ∀ f ∈ t.stack, f.ctx = some .nfs → f ∈ s.stack := by
  refine (step_invariant_sound h hc.sound
    (fun k => CallsAlive k.state ∧ k.state.context = none ∧ k.state.handOvers = s.handOvers ∧
      k.state.closedHandles = s.closedHandles ∧ k.state.closedDirs = s.closedDirs ∧
      ∀ f ∈ k.state.stack, f.ctx = some .nfs → f ∈ s.stack)
    ⟨hc.alive, hctx, rfl, rfl, rfl, fun _ hf _ => hf⟩ ?_).2.2
  intro k a k' _ ⟨halive, hnone, hhand, hclosed, hdirs, hframes⟩ ha hact
  obtain ⟨hgone, hhand', hclosed', hdirs', hframes'⟩ := hact.noContext halive ha hnone
  exact ⟨halive.act ha hact, hgone, hhand'.trans hhand, hclosed'.trans hclosed, hdirs'.trans hdirs,
    fun f hf hnfs => hframes f (hframes' f hf hnfs) hnfs⟩

/-- A destroyed export context stays destroyed, and no call on it begins. -/
theorem step_rpc (hc : ContextsSafe s) {n : Nat} (hd : s.Destroyed (.rpc n))
    (h : step s e = some t) :
    t.Destroyed (.rpc n) ∧ ∀ b, (n, b) ∈ t.rpcCalls → (n, b) ∈ s.rpcCalls := by
  obtain ⟨hlt, hne⟩ := hd
  have hnested : NestedAbove s.stack := hc.sound.wellFormed.nested
  cases step_exports hnested h with
  | kept hctx hnext hcalls =>
    refine ⟨⟨by omega, by rwa [hctx]⟩, fun b hb => ?_⟩
    rwa [← hcalls]
  | entered m hctx hctx' hnext _ hcalls' =>
    rw [hctx] at hne
    refine ⟨⟨by omega, by rwa [hctx']⟩, fun b hb => ?_⟩
    rw [hcalls', List.mem_singleton] at hb
    cases hb
    exact absurd rfl hne
  | opened _ hctx' hnext _ hcalls' =>
    refine ⟨⟨by omega, ?_⟩, fun b hb => ?_⟩
    · rw [hctx']
      intro heq
      obtain rfl := Option.some.inj heq
      omega
    · rw [hcalls', List.mem_singleton] at hb
      cases hb
      omega
  | left c hctx hnext _ hcalls' =>
    refine ⟨⟨by omega, by rwa [hctx]⟩, fun b hb => ?_⟩
    rw [hcalls'] at hb
    cases hb
  | closed m hctx hctx' hnext _ hcalls' =>
    rw [hctx] at hne
    refine ⟨⟨by omega, by simp [hctx']⟩, fun b hb => ?_⟩
    rw [hcalls', List.mem_singleton] at hb
    cases hb
    exact absurd rfl hne

/-- A destroyed context is left alone by every step. -/
theorem State.Retires.step {u : State} {c : Ctx} (hr : s.Retires t c) (hc : ContextsSafe t)
    (hc' : ContextsSafe u) (h : NFSKit.step t e = some u) : s.Retires u c := by
  have hd : u.Destroyed c := by
    cases c with
    | nfs => exact (step_noContext hc hr.destroyed h).1
    | rpc n => exact (step_rpc hc hr.destroyed h).1
  constructor
  · exact hd
  · intro f hf hctx
    exact hc'.destroys hd hf hctx
  · exact hc'.once hd
  · intro hidle f hf hctx
    have hidle := hr.returned hidle
    cases c with
    | nfs => exact hidle f ((step_noContext hc hr.destroyed h).2.2.2.2 f hf hctx) hctx
    | rpc n =>
      obtain ⟨b, hcall⟩ := Frame.ctx_rpc hctx
      have hmem := (step_rpc hc hr.destroyed h).2 b (mem_rpcCalls hf hcall)
      obtain ⟨g, hg, hcall'⟩ := List.mem_filterMap.mp hmem
      exact hidle g hg (Frame.ctx_of_rpcCall hcall')
  · rintro rfl
    have hnone : t.context = none := hr.destroyed
    obtain ⟨-, hhand, hclosed, hdirs, -⟩ := step_noContext hc hnone h
    obtain ⟨hhand', hclosed', hdirs', hsettings⟩ := hr.uses rfl
    refine ⟨hhand.trans hhand', hclosed.trans hclosed', hdirs.trans hdirs', ?_⟩
    rcases step_settings h with heq | ⟨x, -, hx⟩
    · exact heq.trans hsettings
    · simp [State.configure, hnone] at hx

theorem ContextsSafe.retires {c : Ctx} (hc : ContextsSafe s) (h : s.Destroyed c) :
    s.Retires s c where
  destroyed := h
  calls := fun _ hf hctx => hc.destroys h hf hctx
  once := hc.once h
  returned := fun hidle => hidle
  uses := fun _ => ⟨rfl, rfl, rfl, rfl⟩

/-- A context whose destruction has begun is left alone from then on. -/
theorem retires_of_reachable {timeout : Int} (h : Reachable step (State.init timeout) s) {c : Ctx}
    (hd : s.Destroyed c) (ht : Reachable step s t) : s.Retires t c := by
  induction ht with
  | refl => exact (contextsSafe_of_reachable h).retires hd
  | tail ht _ hstep ih =>
    have hbefore := h.trans ht
    exact ih.step (contextsSafe_of_reachable hbefore)
      (contextsSafe_of_reachable (hbefore.tail trivial hstep)) hstep

/-- In a run in which the destruction of the export context never leaves capacity to a queued operation,
nothing is handed to libnfs once a teardown has started. In every run, a context whose destruction has
begun is left alone from then on. -/
theorem teardown_final {timeout : Int} (h : Reaches step ShutsDownFull (State.init timeout) s) :
    (∀ x ∈ s.handOvers, x.tornDown = false) ∧
      (∀ f ∈ s.stack, f.destroys → ∀ c, f.ctx = some c → s.Destroyed c) ∧
      ∀ c, s.Destroyed c → ∀ t, Reachable step s t → s.Retires t c := by
  refine ⟨?_, ?_, ?_⟩
  · exact (run_invariant_init h TornDown (tornDown_init timeout)
      fun _ _ _ _ _ hfull _ ht ha hact => ht.act hfull ha hact).2.handOvers
  · intro f hf hd c hctx
    exact (contextsSafe_of_reachable h.reachable).destroyed_of_mem hf hd hctx
  · intro c hd t ht
    exact retires_of_reachable h.reachable hd ht

/-- A mounted loop with an export query, four operations in flight and one in the queue is shut down. -/
theorem teardown_final_exports :
    ∃ s, Reaches step ShutsDownFull (State.init 60000000000) s ∧ s.handOvers.length = 6 ∧
      s.context = none ∧ (∀ x ∈ s.handOvers, x.tornDown = false) ∧
      ∀ t, Reachable step s t → s.Retires t .nfs ∧ s.Retires t (.rpc 0) := by
  have hrun : ((run step (State.init 60000000000)
      (mountEvents ++ [.block Block.stat, .ret 0 .connected, .block Block.stat, .ret 0 .connected,
        .block Block.stat, .ret 0 .connected, .block Block.stat, .ret 0 .connected,
        .block (.getexports true), .ret 0 .connected, .block Block.unlink, .block .shutdown,
        .callback 6 (-14) none, .ret 0 {}, .callback 2 (-14) none, .callback 3 (-14) none,
        .callback 4 (-14) none, .callback 5 (-14) none, .ret 0 {}])).any fun s =>
      s.handOvers.length = 6 ∧ s.context = none ∧ 0 < s.nextRpc ∧
        s.exports.rpcExportsCtx = none) = true := by
    decide +kernel
  have hmeets : meets step (fun s e => decide (ShutsDownFull s e)) (State.init 60000000000)
      (mountEvents ++ [.block Block.stat, .ret 0 .connected, .block Block.stat, .ret 0 .connected,
        .block Block.stat, .ret 0 .connected, .block Block.stat, .ret 0 .connected,
        .block (.getexports true), .ret 0 .connected, .block Block.unlink, .block .shutdown,
        .callback 6 (-14) none, .ret 0 {}, .callback 2 (-14) none, .callback 3 (-14) none,
        .callback 4 (-14) none, .callback 5 (-14) none, .ret 0 {}]) = true := by
    decide +kernel
  obtain ⟨s, hs, hfacts⟩ := (Option.any_eq_true _ _).mp hrun
  obtain ⟨hsix, hctx, hrpc, hexports⟩ := of_decide_eq_true hfacts
  have hreaches := reaches_of_run (fun _ _ => of_decide_eq_true) hs hmeets
  obtain ⟨hnone, -, hretires⟩ := teardown_final hreaches
  refine ⟨s, hreaches, hsix, hctx, hnone, fun t ht => ?_⟩
  exact ⟨hretires .nfs hctx t ht, hretires (.rpc 0) ⟨hrpc, by simp [hexports]⟩ t ht⟩

/-- Two failed stats have brought the depth of a mounted loop down to one, and a third stat is in flight.
`rpc_destroy_context` in `performShutdown` calls back the export query, which leaves capacity to a queued
unlink: the unlink is handed to libnfs. -/
theorem handOver_in_teardown :
    ∃ s, run step (State.init 60000000000)
      (mountEvents ++ [.block Block.stat, .ret 0 .connected, .block Block.stat, .ret 0 .connected,
        .block .handleIOEvent, .callback 2 (-2) none, .callback 3 (-2) none, .ret 0 .connected,
        .block Block.stat, .ret 0 .connected, .block (.getexports true), .ret 0 .connected,
        .block Block.unlink, .block .shutdown, .callback 5 (-14) none]) = some s ∧
      ∃ x ∈ s.handOvers, x.tornDown ∧ x.cb.entry = .submit .unlink := by
  have hrun : ((run step (State.init 60000000000)
      (mountEvents ++ [.block Block.stat, .ret 0 .connected, .block Block.stat, .ret 0 .connected,
        .block .handleIOEvent, .callback 2 (-2) none, .callback 3 (-2) none, .ret 0 .connected,
        .block Block.stat, .ret 0 .connected, .block (.getexports true), .ret 0 .connected,
        .block Block.unlink, .block .shutdown, .callback 5 (-14) none])).any fun s =>
      ∃ x ∈ s.handOvers, x.tornDown ∧ x.cb.entry = .submit .unlink) = true := by
    decide +kernel
  obtain ⟨s, hs, hfacts⟩ := (Option.any_eq_true _ _).mp hrun
  exact ⟨s, hs, of_decide_eq_true hfacts⟩

end NFSKit
