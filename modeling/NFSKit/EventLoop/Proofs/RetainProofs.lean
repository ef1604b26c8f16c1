import NFSKit.EventLoop.Proofs.TeardownProofs

/-!
# References to the `CallbackData` objects

A reference is retained when an operation is handed over or queued, and released where its request
ends: in its callback or when libnfs refuses it. The requests of the queue that a teardown clears end
without it.
-/

namespace NFSKit

open Machine Counting

variable {s s' t : State} {k k' : Config} {a : Action} {e : Event}

/-- How many references to `cb` are retained beyond those its requests will release. -/
def State.balance (s : State) (cb : CallbackData) : Int := s.retained cb.caller - s.requests cb

/-- Requests that end without a release. -/
theorem State.balance_add {cb : CallbackData} {n : Nat}
    (hretained : s'.retained cb.caller = s.retained cb.caller)
    (hrequests : s'.requests cb + n = s.requests cb) : s'.balance cb = s.balance cb + n := by
  unfold State.balance
  omega

/-! ## What becomes of the requests, exactly -/

theorem requests_leave {f : Frame} {rest : List Frame} (hstack : s.stack = f :: rest)
    (hf : f.inCall = none) (cb : CallbackData) : (s.leaveTo rest).requests cb = s.requests cb := by
  rw [Core.requests_cons hstack, hf]
  unfold Core.requests State.leaveTo
  simp

/-- A refused operation is requested once less. -/
theorem requests_refused {site : Site} {cb : CallbackData} {ran : List Nat} {rest : List Frame}
    (hstack : s.stack = .handOver site cb ran :: rest) (hran : cb.caller ∉ ran) (c : CallbackData) :
    (s.leaveTo rest).requests c + (if cb = c then 1 else 0) = s.requests c := by
  rw [Core.requests_cons hstack, Frame.inCall_eq_some.mpr ⟨hran, rfl⟩]
  unfold Core.requests State.leaveTo
  simp only [Option.toList_some, List.count_singleton, beq_iff_eq]
  omega

/-- An accepted operation is requested as before, unless its callback has run. -/
theorem requests_accepted {site : Site} {cb : CallbackData} {ran : List Nat} {rest : List Frame}
    (hstack : s.stack = .handOver site cb ran :: rest) (ctx : Ctx) (c : CallbackData) :
    ((s.leaveTo rest).enqueueRequest ctx cb ran).requests c = s.requests c := by
  rw [State.enqueueRequest_eq, Core.requests_cons hstack]
  unfold Core.requests State.leaveTo
  by_cases hran : cb.caller ∈ ran
  · simp [hran, Frame.inCall]
  · simp [hran, Frame.inCall, List.countP_append, List.countP_cons, List.count_singleton]
    omega

/-- A request that is called back is gone, and the others are left alone. -/
theorem requests_callback {f : Frame} {rest : List Frame} {cb : CallbackData} {out : List Request}
    (hw : WellFormed s) (hstack : s.stack = f :: rest) (htaken : s.Taken f cb out)
    (c : CallbackData) :
    s.pendingOperations.countP (fun op => op.cbData = c) + out.countP (fun r => r.cb = c) +
      ((f.noteCallback cb.caller :: rest).filterMap Frame.inCall).count c +
      (if cb = c then 1 else 0) = s.requests c := by
  have hnote : ((f.noteCallback cb.caller :: rest).filterMap Frame.inCall).count c =
      (f.noteCallback cb.caller).inCall.toList.count c +
        (rest.filterMap Frame.inCall).count c := by
    cases hf : (f.noteCallback cb.caller).inCall with
    | none =>
      rw [List.filterMap_cons_none hf]
      simp
    | some d =>
      rw [List.filterMap_cons_some hf, List.count_cons, Option.toList_some, List.count_singleton]
      omega
  rw [Core.requests_cons hstack, hnote]
  obtain ⟨hcall, rfl⟩ | ⟨q, hq, rfl, -, rfl⟩ := htaken
  · have hgone : (f.noteCallback cb.caller).inCall = none := by
      cases f with
      | handOver site d ran =>
        obtain ⟨-, rfl⟩ := Frame.inCall_eq_some.mp hcall
        simp [Frame.noteCallback, Frame.inCall]
      | _ => rfl
    rw [hgone, hcall, Option.toList_some, List.count_singleton]
    simp only [Option.toList_none, List.count_nil, beq_iff_eq]
    omega
  · have herase := countP_eq_countP_erase_add (fun r => r.cb = c) hq
    -- the operation being handed over is another one
    have hsame : (f.noteCallback q.cb.caller).inCall = f.inCall := by
      cases f with
      | handOver site d ran =>
        have hne : d.caller ∉ ran → d.caller ≠ q.cb.caller := by
          intro hran heq
          have hdmem := Frame.mem_holds_handOver site hran
          have hcount := Core.tokens_cons hstack d
          have hpos : 0 < (Frame.handOver site d ran).holds.count d := List.count_pos_iff.mpr hdmem
          have hout : 0 < s.outstanding.countP (fun r => r.cb = q.cb) :=
            List.countP_pos_iff.mpr ⟨q, hq, by simp⟩
          have hq' : 0 < s.tokens q.cb := by
            unfold Core.tokens
            omega
          have hd : d ∈ s.created := hw.tokens_created d (by omega)
          obtain rfl := hw.caller_inj d hd q.cb (hw.tokens_created _ hq') heq
          have hone := hw.tokens_le q.cb
          omega
        simp only [Frame.noteCallback, Frame.inCall, List.mem_cons]
        by_cases hran : d.caller ∈ ran
        · simp [hran]
        · simp [hran, hne hran]
      | _ => rfl
    rw [hsame]
    simp only [decide_eq_true_eq] at herase
    omega

/-! ## The balance -/

/-- What an action does to the references to `cb` and its requests. -/
inductive Balanced (s s' : State) (cb : CallbackData) : Action → Prop where
  | kept {a : Action} (hbalance : s'.balance cb = s.balance cb)
      (hretained : s'.retained cb.caller ≤ s.retained cb.caller) : Balanced s s' cb a
  /-- A destroyed context drops its requests. -/
  | dropped {a : Action} (f : Frame) (c : Ctx) (hstack : s.stack.head? = some f) (hf : f.destroys)
      (hctx : f.ctx = some c) (ha : (∃ n next, a = .leaveRpcDestroy n next) ∨
        ∃ kind conts, a = .leaveDestroy kind conts)
      (hbalance : s'.balance cb = s.balance cb +
        s.outstanding.countP (fun r => r.cb = cb ∧ r.ctx = c))
      (hretained : s'.retained cb.caller = s.retained cb.caller) : Balanced s s' cb a
  /-- The queue is cleared. -/
  | cleared {kind : Teardown} (hbalance : s'.balance cb = s.balance cb +
      s.pendingOperations.countP (fun op => op.cbData = cb))
      (hretained : s'.retained cb.caller = s.retained cb.caller) :
      Balanced s s' cb (.enterDestroy kind)

/-- Nothing that matters here changes. -/
theorem Balanced.same {cb : CallbackData} (hretained : s'.retained = s.retained)
    (hrequests : s'.requests cb = s.requests cb) : Balanced s s' cb a :=
  .kept (by unfold State.balance; rw [hretained, hrequests]) (by rw [hretained])

/-- A reference is released together with a request. -/
theorem Balanced.released {cb c : CallbackData} (hw : WellFormed s) (hcb : cb ∈ s.created)
    (hc : c ∈ s.created)
    (hretained : s'.retained = Function.update s.retained c.caller (s.retained c.caller - 1))
    (hrequests : s'.requests cb + (if c = cb then 1 else 0) = s.requests cb) :
    Balanced s s' cb a := by
  by_cases heq : c = cb
  · subst heq
    rw [if_pos rfl] at hrequests
    refine .kept ?_ ?_
    · unfold State.balance
      rw [hretained, Function.update_self]
      omega
    · rw [hretained, Function.update_self]
      omega
  · rw [if_neg heq] at hrequests
    have hne : cb.caller ≠ c.caller := fun h => heq (hw.caller_inj cb hcb c hc h).symm
    refine .kept ?_ ?_
    · unfold State.balance
      rw [hretained, Function.update_of_ne hne]
      omega
    · rw [hretained, Function.update_of_ne hne]

/-- The requests of a destroyed context are dropped. -/
theorem requests_drop (s : State) (ctx : Ctx) (cb : CallbackData) :
    (s.dropRequests ctx).requests cb +
      s.outstanding.countP (fun r => r.cb = cb ∧ r.ctx = ctx) = s.requests cb := by
  have hsplit : (s.outstanding.filter (·.ctx ≠ ctx)).countP (fun r => r.cb = cb) +
      s.outstanding.countP (fun r => r.cb = cb ∧ r.ctx = ctx) =
        s.outstanding.countP (fun r => r.cb = cb) := by
    induction s.outstanding with
    | nil => rfl
    | cons r l ih =>
      by_cases hctx : r.ctx = ctx
      · by_cases hcb : r.cb = cb <;> simp [hctx, hcb] at ih ⊢ <;> omega
      · by_cases hcb : r.cb = cb <;> simp [hctx, hcb] at ih ⊢ <;> omega
  unfold Core.requests State.dropRequests
  dsimp only
  omega

/-- A cleared queue requests nothing. -/
theorem requests_clear (s : State) (kind : Teardown) (conts : List CallbackData) (cb : CallbackData) :
    ({ s.clearRegistries kind with
        context := none, stack := .destroy kind conts :: s.stack } : State).requests cb +
      s.pendingOperations.countP (fun op => op.cbData = cb) = s.requests cb := by
  have hcalls : (Frame.destroy kind conts :: s.stack).filterMap Frame.inCall =
      s.stack.filterMap Frame.inCall := List.filterMap_cons_none rfl
  unfold Core.requests
  cases kind <;>
  · dsimp only [State.clearRegistries]
    rw [hcalls, List.countP_nil]
    omega

theorem Act.balanced (hk : Sound k) (h : Act k a k') {cb : CallbackData}
    (hcb : cb ∈ k.state.created) : Balanced k.state k'.state cb a := by
  have hw := hk.wellFormed
  have hlt := hw.caller_lt cb hcb
  cases h with
  | silent hcore => exact .same (by rw [hcore]) (by rw [hcore])
  | @leave s f rest m hstack hevent =>
    refine .same rfl (requests_leave hstack ?_ cb)
    cases f with
    | handOver => cases hevent
    | _ => rfl
  | enter _ hf => obtain rfl | ⟨n, rfl⟩ := hf <;> exact .same rfl rfl
  | @start s site c _ _ _ hid hcaller =>
    have hlt : cb.caller < s.nextCaller := hlt
    have hne : cb.caller ≠ c.caller := by omega
    have hne' : c ≠ cb := fun h => hne (h ▸ rfl)
    have hret : (Function.update s.retained c.caller (s.retained c.caller + 1)) cb.caller =
        s.retained cb.caller := Function.update_of_ne hne _ _
    have hcount : (c :: s.stack.filterMap Frame.inCall).count cb =
        (s.stack.filterMap Frame.inCall).count cb := List.count_cons_of_ne hne'
    refine .kept ?_ hret.le
    unfold State.balance Core.requests
    dsimp only [State.handOver, State.passRetained, State.register, State.newCaller]
    exact congrArg₂ (· - ·) hret (congrArg Int.ofNat (congrArg (_ + ·) hcount))
  | @enqueue s type c _ hid hcaller =>
    have hlt : cb.caller < s.nextCaller := hlt
    have hne : cb.caller ≠ c.caller := by omega
    have hne' : c ≠ cb := fun h => hne (h ▸ rfl)
    have hret : (Function.update s.retained c.caller (s.retained c.caller + 1)) cb.caller =
        s.retained cb.caller := Function.update_of_ne hne _ _
    have hcount : (s.pendingOperations ++ [PendingOperation.mk c.continuationID type c]).countP
        (fun op : PendingOperation => op.cbData = cb) =
          s.pendingOperations.countP (fun op => op.cbData = cb) := by
      simp [hne']
    refine .kept ?_ hret.le
    unfold State.balance Core.requests
    exact congrArg₂ (· - ·) hret (congrArg Int.ofNat (congrArg (· + _ + _) hcount))
  | @expire s c =>
    obtain ⟨hstack, hpending, hout, -⟩ := State.expire_fields s c
    refine .same ?_ ?_
    · dsimp only [State.expire]
      rw [State.resume_eq, State.recordCompletion_eq]
      rfl
    · unfold Core.requests
      rw [hstack, hpending, hout]
  | callback _ hstack htake hnote =>
    have hc := Act.callback_created hk (.callback ‹_› hstack htake hnote)
    obtain ⟨out, fhs, dirs, b, r, htaken, heq⟩ := State.callback_eq htake hnote
    rw [State.recordCompletion_eq, heq]
    exact .released hw hcb hc rfl (requests_callback hw hstack htaken cb)
  | callbackDead _ hstack htake hnote =>
    have hc := Act.callback_created hk (.callbackDead ‹_› hstack htake hnote)
    obtain ⟨out, fhs, dirs, b, r, htaken, heq⟩ := State.callback_eq htake hnote
    rw [heq]
    exact .released hw hcb hc rfl (requests_callback hw hstack htaken cb)
  | @execute s i op hctx hop =>
    have herase := countP_eq_countP_eraseIdx_add (fun op => op.cbData = cb) hop
    have hcount : (op.cbData :: s.stack.filterMap Frame.inCall).count cb =
        (s.stack.filterMap Frame.inCall).count cb + if op.cbData = cb then 1 else 0 := by
      simp [List.count_cons]
    simp only [decide_eq_true_eq] at herase
    refine .same rfl ?_
    show (s.pendingOperations.eraseIdx i).countP (fun op => op.cbData = cb) +
      s.outstanding.countP (fun r => r.cb = cb) +
      (op.cbData :: s.stack.filterMap Frame.inCall).count cb = s.requests cb
    unfold Core.requests
    omega
  | @finishHook s =>
    unfold State.finishHook
    split
    · rename_i hstack
      refine .same ?_ ?_
      · rw [State.resume_eq]
      · rw [State.resume_requests]
        exact requests_leave hstack rfl cb
    · exact .same rfl rfl
  | @accept s site c ran rest hstack =>
    have heq := requests_accepted hstack site.ctx cb
    split
    · exact .same (by rw [State.enqueueRequest_eq]; rfl) heq
    · exact .same (by rw [State.enqueueRequest_eq]; rfl) heq
  | reject hstack hran | rejectPending hstack hran =>
    have hc := hk.resumption.held_created hw hstack (Frame.mem_holds_handOver _ hran)
    refine .released hw hcb hc ?_ ?_
    · rw [State.resume_eq]
      rfl
    · rw [State.resume_requests]
      exact requests_refused hstack hran cb
  | rejectRaw hstack hran | rejectHandle hstack hran =>
    have hc := hk.resumption.held_created hw hstack (Frame.mem_holds_handOver _ hran)
    exact .released hw hcb hc rfl (requests_refused hstack hran cb)
  | rejectExports hstack hran =>
    have hc := hk.resumption.held_created hw hstack (Frame.mem_holds_handOver _ hran)
    exact .released hw hcb hc rfl (requests_refused hstack hran cb)
  | @leaveRpcDestroy s n next rest hstack =>
    have hdrop := requests_drop (s.leaveTo rest) (.rpc n) cb
    rw [requests_leave hstack rfl cb] at hdrop
    exact .dropped _ (.rpc n) (by rw [hstack]; rfl) rfl rfl (.inl ⟨n, next, rfl⟩)
      (State.balance_add rfl hdrop) rfl
  | @exportsFailed s n c rest r hstack =>
    have hdrop := requests_drop (s.leaveTo rest) (.rpc n) cb
    rw [requests_leave hstack rfl cb] at hdrop
    exact .dropped _ (.rpc n) (by rw [hstack]; rfl) rfl rfl (.inl ⟨n, _, rfl⟩)
      (State.balance_add rfl hdrop) rfl
  | @enterDestroy s kind =>
    refine .cleared (State.balance_add ?_ (requests_clear s kind _ cb)) ?_ <;> cases kind <;> rfl
  | @leaveDestroy s kind conts rest hstack =>
    have hret : (((s.leaveTo rest).dropRequests .nfs).endTeardown kind conts).retained =
        s.retained := by
      obtain ⟨bulk, metadata, counts, heq⟩ :=
        State.endTeardown_eq ((s.leaveTo rest).dropRequests .nfs) kind conts
      rw [heq, State.foldl_resume_eq]
      rfl
    have hdrop := requests_drop (s.leaveTo rest) .nfs cb
    rw [requests_leave hstack rfl cb, ← State.endTeardown_requests _ kind conts] at hdrop
    exact .dropped _ .nfs (by rw [hstack]; rfl) rfl rfl (.inr ⟨kind, conts, rfl⟩)
      (State.balance_add (congrFun hret _) hdrop) (congrFun hret _)
  | @teardownNow s kind hctx =>
    have hpending : s.pendingOperations = [] := (hw.retired hctx).2
    refine .same ?_ ?_
    · obtain ⟨bulk, metadata, counts, heq⟩ :=
        State.endTeardown_eq (s.clearRegistries kind) kind s.activeContinuations
      rw [heq, State.foldl_resume_eq]
      cases kind <;> rfl
    · rw [State.endTeardown_requests]
      unfold Core.requests
      cases kind <;> simp [State.clearRegistries, hpending]
  | immediate | overflow =>
    dsimp only [State.resumeContinuation, State.removeActive, State.register, State.newCaller]
    exact .same rfl rfl
  | _ => exact .same rfl rfl

/-! ## The invariant -/

/-- Nothing is retained for a caller to come. -/
theorem Act.retained_fresh (hk : Sound k) (h : Act k a k')
    (hfresh : ∀ i, k.state.nextCaller ≤ i → k.state.retained i = 0) :
    ∀ i, k'.state.nextCaller ≤ i → k'.state.retained i = 0 := by
  intro i hi
  have hw := hk.wellFormed
  have hle := h.effects.nextCaller
  have released {s : State} {c : CallbackData} (hc : c.caller < s.nextCaller)
      (hi : s.nextCaller ≤ i) (hfresh : ∀ i, s.nextCaller ≤ i → s.retained i = 0) :
      Function.update s.retained c.caller (s.retained c.caller - 1) i = 0 := by
    rw [Function.update_of_ne (by omega)]
    exact hfresh i hi
  cases h with
  | silent hcore =>
    rw [hcore] at hi ⊢
    exact hfresh i hi
  | @start s site c _ _ _ _ hcaller | @enqueue s type c _ _ hcaller =>
    have hi : s.nextCaller + 1 ≤ i := hi
    have hne : i ≠ c.caller := by omega
    exact (Function.update_of_ne hne _ _).trans (hfresh i (by omega : s.nextCaller ≤ i))
  | @overflow s c r =>
    have hi : s.nextCaller + 1 ≤ i := hi
    exact hfresh i (by omega : s.nextCaller ≤ i)
  | @immediate s r =>
    have hi : s.nextCaller + 1 ≤ i := hi
    exact hfresh i (by omega : s.nextCaller ≤ i)
  | expire =>
    dsimp only [State.expire] at hi ⊢
    rw [State.resume_eq, State.recordCompletion_eq] at hi ⊢
    exact hfresh i hi
  | callback _ hstack htake hnote =>
    have hc := Act.callback_created hk (.callback ‹_› hstack htake hnote)
    obtain ⟨out, fhs, dirs, b, r, htaken, heq⟩ := State.callback_eq htake hnote
    rw [State.recordCompletion_eq, heq] at hi ⊢
    exact released (hw.caller_lt _ hc) hi hfresh
  | callbackDead _ hstack htake hnote =>
    have hc := Act.callback_created hk (.callbackDead ‹_› hstack htake hnote)
    obtain ⟨out, fhs, dirs, b, r, htaken, heq⟩ := State.callback_eq htake hnote
    rw [heq] at hi ⊢
    exact released (hw.caller_lt _ hc) hi hfresh
  | @finishHook s =>
    obtain ⟨stack, resumed, outcomes, failed, heq⟩ := State.finishHook_eq s
    rw [heq] at hi ⊢
    exact hfresh i hi
  | accept =>
    rw [State.enqueueRequest_eq] at hi ⊢
    split at hi <;> rename_i hlate
    · rw [if_pos hlate]
      exact hfresh i hi
    · rw [if_neg hlate]
      exact hfresh i hi
  | reject hstack hran | rejectPending hstack hran =>
    have hc := hk.resumption.held_created hw hstack (Frame.mem_holds_handOver _ hran)
    rw [State.resume_eq] at hi ⊢
    exact released (hw.caller_lt _ hc) hi hfresh
  | rejectRaw hstack hran | rejectHandle hstack hran | rejectExports hstack hran =>
    have hc := hk.resumption.held_created hw hstack (Frame.mem_holds_handOver _ hran)
    exact released (hw.caller_lt _ hc) hi hfresh
  | @enterDestroy s kind => cases kind <;> exact hfresh i hi
  | @leaveDestroy s kind conts rest =>
    obtain ⟨bulk, metadata, counts, heq⟩ :=
      State.endTeardown_eq ((s.leaveTo rest).dropRequests .nfs) kind conts
    rw [heq, State.foldl_resume_eq] at hi ⊢
    exact hfresh i hi
  | @teardownNow s kind =>
    obtain ⟨bulk, metadata, counts, heq⟩ :=
      State.endTeardown_eq (s.clearRegistries kind) kind s.activeContinuations
    rw [heq, State.foldl_resume_eq] at hi ⊢
    cases kind <;> exact hfresh i hi
  | _ => exact hfresh i hi

/-- What is made is retained once for its request, or neither retained nor requested. -/
theorem Act.made_balanced (hk : Sound k) (h : Act k a k')
    (hfresh : ∀ i, k.state.nextCaller ≤ i → k.state.retained i = 0) {cb : CallbackData}
    (hmade : a.made = some cb) : k'.state.balance cb = 0 ∧ k'.state.retained cb.caller ≤ 1 := by
  have hcaller := (h.made_fresh hmade).2
  have hzero := hfresh cb.caller (by omega)
  -- a new operation is not requested before
  have hnone : k.state.requests cb = 0 := by
    by_contra hpos
    have hlt := hk.wellFormed.caller_lt cb
      (requested_created hk.wellFormed (Nat.pos_of_ne_zero hpos))
    omega
  cases h with
  | @start s site c =>
    obtain rfl := Option.some.inj hmade
    have hret : (Function.update s.retained c.caller (s.retained c.caller + 1)) c.caller = 1 := by
      have hzero : s.retained c.caller = 0 := hzero
      rw [Function.update_self, hzero]
      rfl
    have hreq : s.pendingOperations.countP (fun op => op.cbData = c) +
        s.outstanding.countP (fun r => r.cb = c) +
        (c :: s.stack.filterMap Frame.inCall).count c = 1 := by
      have hnone : s.requests c = 0 := hnone
      unfold Core.requests at hnone
      rw [List.count_cons_self]
      omega
    refine ⟨?_, hret.le⟩
    unfold State.balance Core.requests
    dsimp only [State.handOver, State.passRetained, State.register, State.newCaller]
    exact (congrArg₂ (· - ·) hret (congrArg Int.ofNat hreq)).trans rfl
  | @overflow s c =>
    obtain rfl := Option.some.inj hmade
    have hzero : s.retained c.caller = 0 := hzero
    have hnone : s.requests c = 0 := hnone
    refine ⟨?_, ?_⟩
    · unfold State.balance
      dsimp only [State.resumeContinuation, State.removeActive, State.register, State.newCaller]
      exact congrArg₂ (· - ·) hzero (congrArg Int.ofNat hnone)
    · show s.retained c.caller ≤ 1
      omega
  | @enqueue s type c =>
    obtain rfl := Option.some.inj hmade
    have hret : (Function.update s.retained c.caller (s.retained c.caller + 1)) c.caller = 1 := by
      have hzero : s.retained c.caller = 0 := hzero
      rw [Function.update_self, hzero]
      rfl
    have hreq : (s.pendingOperations ++ [PendingOperation.mk c.continuationID type c]).countP
          (fun op : PendingOperation => op.cbData = c) +
        s.outstanding.countP (fun r => r.cb = c) + (s.stack.filterMap Frame.inCall).count c = 1 := by
      have hnone : s.requests c = 0 := hnone
      unfold Core.requests at hnone
      simp only [List.countP_append, List.countP_singleton, decide_true, if_true]
      omega
    refine ⟨?_, hret.le⟩
    unfold State.balance Core.requests
    exact (congrArg₂ (· - ·) hret (congrArg Int.ofNat hreq)).trans rfl
  | _ => cases hmade

/-- Every request holds a reference to its operation, and there is one at most. -/
structure References (s : State) : Prop where
  fresh : ∀ i, s.nextCaller ≤ i → s.retained i = 0
  held : ∀ cb ∈ s.created, 0 ≤ s.balance cb
  once : ∀ cb ∈ s.created, s.retained cb.caller ≤ 1

theorem References.act (hk : Sound k) (hr : References k.state) (h : Act k a k') :
    References k'.state := by
  have old {cb : CallbackData} (hcb : cb ∈ k.state.created) :
      0 ≤ k'.state.balance cb ∧ k'.state.retained cb.caller ≤ 1 := by
    have hheld := hr.held cb hcb
    have honce := hr.once cb hcb
    cases h.balanced hk hcb with
    | kept hbalance hretained => exact ⟨by omega, by omega⟩
    | dropped f c _ _ _ _ hbalance hretained => exact ⟨by omega, by omega⟩
    | cleared hbalance hretained => exact ⟨by omega, by omega⟩
  have all {cb : CallbackData} (hcb : cb ∈ k'.state.created) :
      0 ≤ k'.state.balance cb ∧ k'.state.retained cb.caller ≤ 1 := by
    rw [h.effects.created] at hcb
    rcases List.mem_append.mp hcb with hmade | hcb
    · obtain ⟨hbalance, honce⟩ := h.made_balanced hk hr.fresh (by simpa using hmade)
      exact ⟨hbalance.ge, honce⟩
    · exact old hcb
  exact ⟨h.retained_fresh hk hr.fresh, fun cb hcb => (all hcb).1, fun cb hcb => (all hcb).2⟩

theorem references_init (timeout : Int) : References (State.init timeout) where
  fresh := fun _ _ => rfl
  held := fun cb h => by cases h
  once := fun cb h => by cases h

/-- What libnfs holds has a reference that has not been released. -/
theorem References.holds (hr : References s) (hw : WellFormed s) {cb : CallbackData}
    (h : s.Holds cb) : s.retained cb.caller = 1 := by
  have hpos : 0 < s.requests cb := by
    unfold Core.requests
    rcases h with ⟨r, hmem, heq⟩ | ⟨f, hf, hcall⟩
    · have hcount : 0 < s.outstanding.countP (fun r => r.cb = cb) :=
        List.countP_pos_iff.mpr ⟨r, hmem, by simpa using heq⟩
      omega
    · have hcount : 0 < (s.stack.filterMap Frame.inCall).count cb :=
        List.count_pos_iff.mpr (List.mem_filterMap.mpr ⟨f, hf, hcall⟩)
      omega
  have hcb := requested_created hw hpos
  have hheld := hr.held cb hcb
  have honce := hr.once cb hcb
  unfold State.balance at hheld
  omega

/-- A step never retains an operation again. -/
theorem step_retained (hs : Sound s.config) (h : step s e = some t) :
    ∀ cb ∈ s.created, t.retained cb.caller ≤ s.retained cb.caller := by
  have hkept := (step_invariant_sound h hs
    (fun k => ∀ cb ∈ s.created, cb ∈ k.state.created ∧
      k.state.retained cb.caller ≤ s.retained cb.caller)
    (fun cb hcb => ⟨hcb, le_refl _⟩) ?_).2
  · exact fun cb hcb => (hkept cb hcb).2
  · intro k a k' hk hI _ hact cb hcb
    obtain ⟨hmem, hle⟩ := hI cb hcb
    refine ⟨?_, le_trans ?_ hle⟩
    · rw [hact.effects.created]
      exact List.mem_append_right _ hmem
    · cases hact.balanced hk hmem with
      | kept _ hretained => exact hretained
      | dropped f c _ _ _ _ _ hretained => exact hretained.le
      | cleared _ hretained => exact hretained.le

/-! ## Requests of a context that is gone -/

/-- Once the context has gone, the requests left are its own, and it is being destroyed. -/
def CalledBack (s : State) : Prop :=
  s.context = none → ∀ r ∈ s.outstanding, r.ctx = .nfs ∧
    ∃ kind conts, Frame.destroy kind conts ∈ s.stack

theorem CalledBack.act (hc : CallsAlive k.state) (hn : CalledBack k.state) (h : Act k a k')
    (hown : ∀ kind, a = .enterDestroy kind → ∀ r ∈ k.state.outstanding, r.ctx = .nfs) :
    CalledBack k'.state := by
  intro hctx r hr
  rcases h.rarely.2.1 with hsame | ⟨-, kind, rfl⟩
  · have hctx' : k.state.context = none := hsame ▸ hctx
    rcases h.effects.outstanding r hr with hold | ⟨site, cb, ran, rfl, rfl⟩
    · obtain ⟨hnfs, kind, conts, hf⟩ := hn hctx' r hold
      rcases h.destroying_mem rfl hf with hf' | hleaves
      · exact ⟨hnfs, kind, conts, hf'⟩
      · obtain rfl := Action.leaves_destroy hleaves
        cases h with
        | @leaveDestroy s kind conts rest =>
          obtain ⟨bulk, metadata, counts, heq⟩ :=
            State.endTeardown_eq ((s.leaveTo rest).dropRequests .nfs) kind conts
          rw [heq, State.foldl_resume_eq] at hr
          have hne := (List.mem_filter.mp hr).2
          simp [hnfs] at hne
    · cases h with
      | accept hstack =>
        have hsome := hc (.handOver site cb ran) (hstack ▸ List.mem_cons_self ..) rfl
        rw [hctx'] at hsome
        cases hsome
  · refine ⟨hown kind rfl r ?_, ?_⟩
    · cases h
      cases kind <;> exact hr
    · cases h
      exact ⟨kind, _, List.mem_cons_self ..⟩

/-- When the context is about to be destroyed, the requests libnfs holds are all on it. -/
theorem tearsDown_requests (hc : ContextsSafe s) (h : step s e = some t)
    (hanswers : AnswersAll s e) (hempty : TearsDownEmpty s e) (ht : s.tearsDown e) :
    ∀ r ∈ s.outstanding, r.ctx = .nfs := by
  intro r hr
  cases hrctx : r.ctx with
  | nfs => rfl
  | rpc n =>
    have hexports := hc.exports.requests r hr n hrctx
    have shut (hstack : s.stack = []) (hnone : s.exports.rpcExportsCtx = none) : Ctx.rpc n = .nfs := by
      rw [hnone, rpcCalls_of_nil hstack] at hexports
      simp at hexports
    cases e with
    | block b =>
      cases b with
      | shutdown => exact shut (step_block h).1.1 (by simpa [State.tearsDown] using ht)
      | _ => cases ht
    | deinit q =>
      simp only [step] at h
      split at h
      · rename_i hidle
        simp only [Bool.and_eq_true, List.isEmpty_iff] at hidle
        exact shut hidle.1.1 (by simpa [State.tearsDown] using ht)
      · cases h
    | ret rc view =>
      simp only [State.tearsDown] at ht
      split at ht
      · rename_i rest hstack
        have hnfs := (hempty (by simpa [State.tearsDown, hstack] using ht)).2
          (by rw [hstack]; rfl) r hr
        exact hrctx ▸ hnfs
      · rename_i m rest hstack
        have hnested : NestedAbove s.stack := hc.sound.wellFormed.nested
        rw [hstack] at hnested
        obtain rfl := hnested.rest_eq_nil rfl
        have hcalls : s.rpcCalls = [(m, true)] := by
          rw [rpcCalls_cons hstack]
          rfl
        have hnone := (hc.exports.destroying m (by rw [hcalls]; simp)).1
        rw [hnone, hcalls] at hexports
        obtain rfl : n = m := by simpa using hexports
        have hne := hanswers rfl _ (by rw [hstack]; rfl) rfl r hr
        exact absurd (by rw [hrctx]; rfl) hne
      · cases ht
    | _ => cases ht

/-! ## Runs -/

/-- Every reference is retained at most once and is there when libnfs calls back. In a run that tears the
loop down only with an empty queue, and never after a failure with an export query outstanding, every
reference has been released when a teardown has finished. -/
theorem references_released {timeout : Int}
    (h : Reaches step (fun s e => AnswersAll s e ∧ TearsDownEmpty s e) (State.init timeout) s) :
    (∀ cb ∈ s.created, 0 ≤ s.retained cb.caller ∧ s.retained cb.caller ≤ 1) ∧
      (∀ cb, s.Holds cb → s.retained cb.caller = 1) ∧
      (∀ e t, step s e = some t → ∀ cb ∈ s.created,
        t.retained cb.caller ≤ s.retained cb.caller) ∧
      (s.stack = [] → 0 < s.teardowns → ∀ cb ∈ s.created, s.retained cb.caller = 0) := by
  have hrun := run_invariant_init h.strengthen
    (fun k => CallsAlive k.state ∧ References k.state ∧
      (∀ cb ∈ k.state.created, k.state.balance cb = 0) ∧ CalledBack k.state)
    ⟨callsAlive_init timeout, references_init timeout, (fun cb h => by cases h),
      (fun h => by cases h)⟩ ?_
  · obtain ⟨hsound, -, hr, hbalanced, hn⟩ := hrun
    have hw := hsound.wellFormed
    refine ⟨?_, fun cb hcb => hr.holds hw hcb, fun e t hstep => step_retained hsound hstep, ?_⟩
    · intro cb hcb
      have hheld : 0 ≤ s.balance cb := hr.held cb hcb
      unfold State.balance at hheld
      exact ⟨by omega, hr.once cb hcb⟩
    · intro hstack hdown cb hcb
      have hctx : s.context = none := hsound.ending.torn hdown
      have hpending : s.pendingOperations = [] := (hw.retired hctx).2
      have hout : s.outstanding = [] := by
        rw [List.eq_nil_iff_forall_not_mem]
        intro r hr
        obtain ⟨-, kind, conts, hf⟩ := hn hctx r hr
        have hf : Frame.destroy kind conts ∈ s.stack := hf
        rw [hstack] at hf
        cases hf
      have hzero : s.balance cb = 0 := hbalanced cb hcb
      unfold State.balance Core.requests at hzero
      rw [hpending, hout, hstack] at hzero
      simpa using hzero
  · intro u e k a k' ⟨⟨hanswers, hempty⟩, hreach, v, hstep⟩ hk ⟨hc, hr, hbalanced, hn⟩ ha hact
    refine ⟨hc.act ha hact, hr.act hk hact, ?_, ?_⟩
    · intro cb hcb
      rw [hact.effects.created] at hcb
      rcases List.mem_append.mp hcb with hmade | hcb
      · exact (hact.made_balanced hk hr.fresh (by simpa using hmade)).1
      · have hzero := hbalanced cb hcb
        cases hact.balanced hk hcb with
        | kept hbalance => omega
        | dropped f c hhead hf hctx hleave hbalance =>
          have hret : k.state = u ∧ e.returns := by
            rcases hleave with ⟨n, next, rfl⟩ | ⟨kind, conts, rfl⟩ <;>
            · obtain ⟨heq, rc, view, rfl⟩ := ha
              exact ⟨heq, rfl⟩
          obtain ⟨rfl, hret⟩ := hret
          have hnone : k.state.outstanding.countP (fun r => r.cb = cb ∧ r.ctx = c) = 0 := by
            rw [List.countP_eq_zero]
            intro r hr
            have hne := hanswers hret f hhead hf r hr
            rw [hctx] at hne
            simp only [decide_eq_true_eq, not_and]
            intro _ heq
            exact hne (congrArg some heq.symm)
          omega
        | cleared hbalance =>
          obtain ⟨htears, hpending, -⟩ := ha
          rw [hpending, (hempty htears).1, List.countP_nil] at hbalance
          omega
    · refine hn.act hc hact ?_
      rintro kind rfl r hr
      obtain ⟨htears, -, hout⟩ := ha
      exact tearsDown_requests (contextsSafe_of_reachable hreach) hstep hanswers hempty htears r
        (hout r hr)

/-- Operations that succeed, are refused and are cut off by a shutdown. -/
theorem references_released_shutdown :
    ∃ s, Reaches step (fun s e => AnswersAll s e ∧ TearsDownEmpty s e) (State.init 60000000000) s ∧
      s.created.length = 4 ∧ ∀ cb ∈ s.created, s.retained cb.caller = 0 := by
  have hrun : ((run step (State.init 60000000000)
      [.block Block.stat, .ret 0 {}, .block Block.stat, .ret 0 {}, .block .handleIOEvent,
        .callback 1 0 (some .void), .ret 0 {}, .block (.getexports true), .ret 0 {},
        .block Block.unlink, .ret (-5) {}, .block .shutdown, .callback 3 2 none, .ret 0 {},
        .callback 2 (-5) none, .ret 0 {}]).any fun s =>
      s.stack = [] ∧ 0 < s.teardowns ∧ s.created.length = 4) = true := by
    decide +kernel
  have hmeets : meets step (fun s e => decide (AnswersAll s e ∧ TearsDownEmpty s e))
      (State.init 60000000000)
      [.block Block.stat, .ret 0 {}, .block Block.stat, .ret 0 {}, .block .handleIOEvent,
        .callback 1 0 (some .void), .ret 0 {}, .block (.getexports true), .ret 0 {},
        .block Block.unlink, .ret (-5) {}, .block .shutdown, .callback 3 2 none, .ret 0 {},
        .callback 2 (-5) none, .ret 0 {}] = true := by
    decide +kernel
  obtain ⟨s, hs, hfacts⟩ := (Option.any_eq_true _ _).mp hrun
  obtain ⟨hstack, hdown, hfour⟩ := of_decide_eq_true hfacts
  have hreaches := reaches_of_run (fun _ _ => of_decide_eq_true) hs hmeets
  exact ⟨s, hreaches, hfour, (references_released hreaches).2.2.2 hstack hdown⟩

/-- An unlink is queued when the loop is shut down: the reference to it is never released. -/
theorem reference_leaks :
    ∃ s, Reaches step AnswersAll (State.init 60000000000) s ∧ s.stack = [] ∧ 0 < s.teardowns ∧
      ∃ cb ∈ s.created, cb.entry = .submit .unlink ∧ s.retained cb.caller = 1 ∧ ¬ s.Holds cb := by
  have hrun : ((run step (State.init 60000000000)
      [.block Block.stat, .ret 0 {}, .block Block.stat, .ret 0 {}, .block Block.unlink,
        .block .shutdown, .callback 1 (-5) none, .callback 2 (-5) none, .ret 0 {}]).any fun s =>
      s.stack = [] ∧ 0 < s.teardowns ∧ ∃ cb ∈ s.created, cb.entry = .submit .unlink ∧
        s.retained cb.caller = 1 ∧ ¬ s.Holds cb) = true := by
    decide +kernel
  have hmeets : meets step (fun s e => decide (AnswersAll s e)) (State.init 60000000000)
      [.block Block.stat, .ret 0 {}, .block Block.stat, .ret 0 {}, .block Block.unlink,
        .block .shutdown, .callback 1 (-5) none, .callback 2 (-5) none, .ret 0 {}] = true := by
    decide +kernel
  obtain ⟨s, hs, hfacts⟩ := (Option.any_eq_true _ _).mp hrun
  exact ⟨s, reaches_of_run (fun _ _ => of_decide_eq_true) hs hmeets, of_decide_eq_true hfacts⟩

end NFSKit
