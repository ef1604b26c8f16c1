import NFSKit.EventLoop.Ledger
import NFSKit.EventLoop.Proofs.RequestProofs

/-!
# What the actions do to the in-flight ledger

`Act.books` says for every action how the in-flight count of a category and the number of operations
that should be counted change. The accounts of the pipeline are case analyses of it.
-/

namespace NFSKit

open Machine Counting

variable {s s' : State} {k k' : Config} {a : Action}

/-! ## A loop without references -/

theorem Frame.isWork_noteCallback (f : Frame) (i : Nat) :
    (f.noteCallback i).isWork = f.isWork := by
  cases f <;> rfl

theorem Frame.isWork_of_isEvent {f : Frame} (h : f.isEvent) : f.isWork := by
  cases f <;> first | rfl | cases h

theorem Frame.deferredCall_of_isEvent {f : Frame} (h : f.isEvent) : f.deferredCall = none := by
  cases f <;> first | rfl | cases h

/-- Between queue blocks, a loop with a context is alive. -/
theorem alive_of_context {s : State} (hd : Ending s.config) (hstack : s.stack = [])
    (hctx : s.context.isSome) : s.alive := by
  cases halive : s.alive with
  | true => rfl
  | false =>
    rcases hd.dead halive with hnone | hmode | ⟨n, hn⟩
    · rw [show s.context = none from hnone] at hctx
      cases hctx
    · cases hmode
    · rw [show s.config.state.stack = [] from hstack] at hn
      cases hn

/-- A loop with its context and a reference had both before. -/
theorem Act.up_before (h : Act k a k') (halive : k'.state.alive) (hctx : k'.state.context.isSome) :
    k.state.alive ∧ k.state.context.isSome := by
  constructor
  · rcases h.rarely.1 with heq | rfl
    · exact heq ▸ halive
    · cases h with
      | deinit => cases halive
  · exact h.context_isSome hctx

/-- One action keeps a loop without references quiet. -/
theorem Quiet.act (hk : Sound k) (hq : Quiet k) (h : Act k a k') : Quiet k' := by
  intro halive hctx
  have hctx' : k.state.context.isSome := h.context_isSome hctx
  rcases h.rarely.1 with hal | rfl
  swap
  · cases h with
    | deinit hstack =>
      refine ⟨fun i => by simp, fun f hf => ?_⟩
      rw [show _ = [] from hstack] at hf
      cases hf
  obtain ⟨hmode, hframes⟩ := hq (hal ▸ halive) hctx'
  have dead {s : State} (hs : Ending ⟨s, .idle⟩) (hstack : s.stack = [])
      (hc : s.context.isSome) (ha : s.alive = false) : False := by
    rw [alive_of_context hs hstack hc] at ha
    cases ha
  refine ⟨fun i hm => ?_, fun f hf => ?_⟩
  · -- nothing starts or continues a drain
    cases h with
    | silent => exact hmode i hm
    | @leave s f rest m hstack hf =>
      have hwork : f.isWork = false := hframes f (hstack ▸ List.mem_cons_self ..)
      rw [Frame.isWork_of_isEvent hf] at hwork
      cases hwork
    | callback halive' =>
      rw [show _ = true from halive'] at hal
      rw [hal] at halive
      cases halive
    | skip => exact hmode _ rfl
    | accept hstack | rejectPending hstack =>
      have hwork := hframes _ (hstack ▸ List.mem_cons_self ..)
      cases hwork
    | @leaveRpcDestroy s n next => cases next <;> cases hm
    | _ => cases hm
  · rcases h.effects.frames f hf with hf | ⟨g, hg, _, _, _, -, rfl⟩ | hpush
    · exact hframes f hf
    · rw [Frame.isWork_noteCallback]
      exact hframes g hg
    · cases h with
      | start hstack => exact (dead hk.ending hstack hctx' (hal ▸ halive)).elim
      | enterClose hstack => exact (dead hk.ending hstack hctx' (hal ▸ halive)).elim
      | enter hstack => exact (dead hk.ending hstack hctx' (hal ▸ halive)).elim
      | execute => exact (hmode _ rfl).elim
      | callback | callbackDead | enterDestroy | reject | rejectPending | rejectRaw | rejectHandle
      | rejectExports =>
        obtain ⟨_, rfl⟩ := hpush
        rfl
      | enterRpcDestroy =>
        cases hpush
        rfl
      | _ => cases hpush

/-! ## The ledger -/

/-- The booked operations, with the innermost call set apart. -/
theorem Core.booked_cons {s : Core} {f : Frame} {rest : List Frame} (hstack : s.stack = f :: rest)
    (p : CallbackData → Bool) :
    s.booked p = s.outstanding.countP (fun r => p r.cb) +
      (f.deferredCall.toList.countP p + (rest.filterMap Frame.deferredCall).countP p) := by
  unfold Core.booked
  rw [hstack]
  cases hf : f.deferredCall with
  | none =>
    rw [List.filterMap_cons_none hf]
    simp
  | some c =>
    rw [List.filterMap_cons_some hf, List.countP_cons, Option.toList_some, List.countP_singleton]
    omega

/-- The call hands over an operation of somebody else. -/
theorem Frame.deferredCall_noteCallback {f : Frame} {i : Nat} (h : ∀ c, f.inCall = some c → c.caller ≠ i) :
    (f.noteCallback i).deferredCall = f.deferredCall := by
  cases f with
  | handOver site c ran =>
    by_cases hran : c.caller ∈ ran
    · simp [Frame.noteCallback, Frame.deferredCall, hran]
    · have hne : c.caller ≠ i := h c (by simp [Frame.inCall, hran])
      simp [Frame.noteCallback, Frame.deferredCall, hran, hne]
  | _ => rfl

/-- A request that libnfs has accepted is not being handed over as well. -/
theorem caller_ne_of_accepted {f : Frame} {rest : List Frame} {r : Request} (hw : WellFormed s)
    (hstack : s.stack = f :: rest) (hr : r ∈ s.outstanding) {c : CallbackData}
    (hc : f.inCall = some c) : c.caller ≠ r.cb.caller := by
  have hout : 0 < s.outstanding.countP (fun q => q.cb = r.cb) :=
    List.countP_pos_iff.mpr ⟨r, hr, by simp⟩
  have hheld : 0 < f.holds.count c := by
    rw [(Frame.holds_of_inCall hc).1]
    simp
  have hcreated := hw.tokens_created r.cb (by unfold Core.tokens; omega)
  have hcreated' := hw.tokens_created c (by rw [Core.tokens_cons hstack]; omega)
  intro heq
  obtain rfl : c = r.cb := hw.caller_inj c hcreated' r.cb hcreated heq
  have htokens := Core.tokens_cons hstack r.cb
  have := hw.tokens_le r.cb
  omega

/-- What a callback leaves of the ledger: its own operation leaves it, unless the operation was being
handed over in its own queue block and was not in it. -/
theorem booked_callback {f : Frame} {rest : List Frame} {cb : CallbackData} {out : List Request}
    (hw : WellFormed s) (hstack : s.stack = f :: rest) (htaken : s.Taken f cb out)
    (p : CallbackData → Bool) :
    out.countP (fun r => p r.cb) +
        ((f.noteCallback cb.caller :: rest).filterMap Frame.deferredCall).countP p +
        (if p cb ∧ f.directCall ≠ some cb then 1 else 0) = s.booked p := by
  have hnote : ((f.noteCallback cb.caller :: rest).filterMap Frame.deferredCall).countP p =
      (f.noteCallback cb.caller).deferredCall.toList.countP p +
        (rest.filterMap Frame.deferredCall).countP p := by
    have hcons := Core.booked_cons
      (s := { s.toCore with outstanding := [], stack := f.noteCallback cb.caller :: rest }) rfl p
    simpa [Core.booked] using hcons
  rw [Core.booked_cons hstack, hnote]
  obtain ⟨hcall, rfl⟩ | ⟨r, hr, rfl, -, rfl⟩ := htaken
  · cases f with
    | handOver site c ran =>
      obtain ⟨hran, rfl⟩ := Frame.inCall_eq_some.mp hcall
      cases hsite : site.isPending <;> cases hp : p c <;>
        simp [Frame.noteCallback, Frame.deferredCall, Frame.directCall, hran, hsite, hp]
      omega
    | _ => cases hcall
  · have hne : ∀ c, f.inCall = some c → c.caller ≠ r.cb.caller := fun c hc =>
      caller_ne_of_accepted hw hstack hr hc
    have hdirect : f.directCall ≠ some r.cb := by
      intro hd
      cases f with
      | handOver site c ran =>
        simp only [Frame.directCall] at hd
        split at hd
        · cases hd
        · rename_i hran
          obtain rfl : c = r.cb := Option.some.inj hd
          exact hne r.cb (Frame.inCall_eq_some.mpr ⟨fun h => hran (.inr h), rfl⟩) rfl
      | _ => cases hd
    have herase := countP_eq_countP_erase_add (fun q => p q.cb) hr
    rw [Frame.deferredCall_noteCallback hne]
    simp only [hdirect, ne_eq, not_false_eq_true, and_true]
    omega

/-- How an action changes the in-flight count of a category and the number of booked operations. -/
inductive Books (c : OperationCategory) (p : CallbackData → Bool) (s s' : State) : Action → Prop where
  | same {a : Action} (hin : s'.inFlightCount c = s.inFlightCount c)
      (hclamp : s'.clamped c = s.clamped c) (hcount : s'.booked p = s.booked p) : Books c p s s' a
  | executed {i : Nat} {op : PendingOperation} (hop : op ∈ s.pendingOperations)
      (hin : s'.inFlightCount c = s.inFlightCount c + if op.category = c then 1 else 0)
      (hclamp : s'.clamped c = s.clamped c)
      (hcount : s'.booked p = s.booked p + if p op.cbData then 1 else 0) :
      Books c p s s' (.execute i op)
  | completed {f : Frame} {cb : CallbackData} {status : Int} {data : Option Value}
      (hin : s'.inFlightCount c =
        if cb.operationCategory = c then max 0 (s.inFlightCount c - 1) else s.inFlightCount c)
      (hclamp : cb.operationCategory ≠ c ∨ 1 ≤ s.inFlightCount c → s'.clamped c = s.clamped c)
      (hcount : s'.booked p + (if p cb ∧ f.directCall ≠ some cb then 1 else 0) = s.booked p) :
      Books c p s s' (.callback f cb status data)
  | expired {cb : CallbackData}
      (hin : s'.inFlightCount c =
        if cb.operationCategory = c then max 0 (s.inFlightCount c - 1) else s.inFlightCount c)
      (hclamp : cb.operationCategory ≠ c ∨ 1 ≤ s.inFlightCount c → s'.clamped c = s.clamped c)
      (hcount : s'.booked p = s.booked p) : Books c p s s' (.expire cb)
  | accepted {site : Site} {cb : CallbackData} {ran : List Nat}
      (hframe : Frame.handOver site cb ran ∈ s.stack)
      (hin : s'.inFlightCount c =
        s.inFlightCount c + if site.countsLate ∧ cb.operationCategory = c then 1 else 0)
      (hclamp : s'.clamped c = s.clamped c)
      (hcount : s'.booked p = s.booked p +
        if p cb ∧ site.isPending = false ∧ cb.caller ∉ ran then 1 else 0) :
      Books c p s s' (.accept site cb ran)
  | refused {i : Nat} {op : PendingOperation} {ran : List Nat}
      (hop : op.Consistent)
      (hin : s'.inFlightCount c = s.inFlightCount c - if op.category = c then 1 else 0)
      (hclamp : s'.clamped c = s.clamped c)
      (hcount : s'.booked p + (if p op.cbData then 1 else 0) = s.booked p) :
      Books c p s s' (.reject (.pending i op) op.cbData ran)
  | dropped {n : Nat} {next : AfterCleanup} (hin : s'.inFlightCount c = s.inFlightCount c)
      (hclamp : s'.clamped c = s.clamped c)
      (hcount : s'.booked p + s.outstanding.countP (fun r => r.ctx = .rpc n ∧ p r.cb) =
        s.booked p) : Books c p s s' (.leaveRpcDestroy n next)
  /-- After a teardown, or without references, nobody looks at the count. -/
  | down {a : Action} (h : s'.context = none ∨ s'.alive = false) : Books c p s s' a

/-- A call is left that hands over no deferred operation. -/
theorem booked_leave {f : Frame} {rest : List Frame} (hstack : s.stack = f :: rest)
    (hf : f.deferredCall = none) (p : CallbackData → Bool) :
    (s.leaveTo rest).booked p = s.booked p := by
  rw [Core.booked_cons hstack, hf]
  simp [Core.booked, State.leaveTo]

theorem booked_drop (s : State) (ctx : Ctx) (p : CallbackData → Bool) :
    (s.dropRequests ctx).booked p + s.outstanding.countP (fun r => r.ctx = ctx ∧ p r.cb) =
      s.booked p := by
  have hsplit := List.countP_eq_countP_filter_add s.outstanding (fun r => p r.cb) (·.ctx ≠ ctx)
  have hrest : (s.outstanding.filter fun r => !decide (r.ctx ≠ ctx)).countP (fun r => p r.cb) =
      s.outstanding.countP (fun r => r.ctx = ctx ∧ p r.cb) := by
    rw [List.countP_filter]
    congr 1
    funext r
    by_cases h : r.ctx = ctx <;> simp [h]
  unfold Core.booked State.dropRequests
  dsimp only
  rw [hrest] at hsplit
  omega

/-- A call begins that hands over no deferred operation. -/
theorem booked_push (s : State) {f : Frame} (hf : f.deferredCall = none) (p : CallbackData → Bool) :
    Core.booked { s.toCore with stack := f :: s.stack } p = s.booked p := by
  unfold Core.booked
  dsimp only
  rw [List.filterMap_cons_none hf]

theorem Frame.deferredCall_direct {site : Site} (hsite : site.isPending = false) (cb : CallbackData)
    (ran : List Nat) : (Frame.handOver site cb ran).deferredCall = none := by
  simp [Frame.deferredCall, hsite]

/-- The count of a category after one category's count has been set. -/
theorem update_count (counts : OperationCategory → Int) (d c : OperationCategory) (n : Int) :
    Function.update counts d n c = if d = c then n else counts c := by
  by_cases h : d = c
  · subst h
    simp
  · rw [if_neg h, Function.update_of_ne (Ne.symm h)]

/-- The completion of an operation takes one slot back, if there is one. -/
theorem recordCompletion_count (s : State) (d : OperationCategory) (ok : Bool)
    (c : OperationCategory) :
    (s.recordCompletion d ok).inFlightCount c =
        (if d = c then max 0 (s.inFlightCount c - 1) else s.inFlightCount c) ∧
      (d ≠ c ∨ 1 ≤ s.inFlightCount c → (s.recordCompletion d ok).clamped c = s.clamped c) := by
  rw [State.recordCompletion_eq]
  refine ⟨?_, fun h => ?_⟩
  · dsimp only
    rw [update_count]
    split
    · rename_i hd
      rw [hd]
    · rfl
  · dsimp only
    by_cases hd : d = c
    · subst hd
      have hpos : ¬ s.inFlightCount d - 1 < 0 := by
        rcases h with h | h
        · exact absurd rfl h
        · omega
      simp [hpos]
    · rw [Function.update_of_ne (Ne.symm hd)]

/-- The completion of an operation takes a slot back and strikes the operation out. -/
theorem Act.completes {f : Frame} {cb : CallbackData} {status : Int} {data : Option Value}
    (hk : Sound k) (h : Act k (.callback f cb status data) k') (halive : k.state.alive)
    (c : OperationCategory) (p : CallbackData → Bool) :
    (k'.state.inFlightCount c = if cb.operationCategory = c then max 0 (k.state.inFlightCount c - 1)
      else k.state.inFlightCount c) ∧
    (cb.operationCategory ≠ c ∨ 1 ≤ k.state.inFlightCount c →
      k'.state.clamped c = k.state.clamped c) ∧
    k'.state.booked p + (if p cb ∧ f.directCall ≠ some cb then 1 else 0) = k.state.booked p := by
  cases h with
  | @callback s s₁ s₂ f rest cb status data _ hstack htake hnote =>
    obtain ⟨out, fhs, dirs, b, r, htaken, heq⟩ := State.callback_eq htake hnote
    have hcount := recordCompletion_count
      ((s₂.enterHook cb status data).removeActive cb.continuationID) cb.operationCategory
      (s₂.replySucceeds cb status data) c
    rw [heq] at hcount ⊢
    refine ⟨hcount.1, hcount.2, ?_⟩
    rw [State.recordCompletion_eq]
    exact booked_callback hk.wellFormed hstack htaken p
  | callbackDead hdead =>
    rw [show _ = true from halive] at hdead
    cases hdead

/-- An operation that is accepted in its own queue block is counted and booked now. -/
theorem Act.accepts {site : Site} {cb : CallbackData} {ran : List Nat}
    (h : Act k (.accept site cb ran) k') (c : OperationCategory) (p : CallbackData → Bool) :
    Frame.handOver site cb ran ∈ k.state.stack ∧
    k'.state.inFlightCount c =
      k.state.inFlightCount c + (if site.countsLate ∧ cb.operationCategory = c then 1 else 0) ∧
    k'.state.clamped c = k.state.clamped c ∧
    k'.state.booked p = k.state.booked p +
      if p cb ∧ site.isPending = false ∧ cb.caller ∉ ran then 1 else 0 := by
  cases h with
  | @accept s site cb ran rest hstack =>
    have hframe : Frame.handOver site cb ran ∈ s.stack := hstack ▸ List.mem_cons_self ..
    have hcount : ((s.leaveTo rest).enqueueRequest site.ctx cb ran).booked p = s.booked p +
        if p cb ∧ site.isPending = false ∧ cb.caller ∉ ran then 1 else 0 := by
      rw [State.enqueueRequest_eq, Core.booked_cons hstack]
      unfold Core.booked State.leaveTo
      by_cases hran : cb.caller ∈ ran
      · simp [hran, Frame.deferredCall]
      · cases hsite : site.isPending <;> cases hp : p cb <;>
          simp [hran, hsite, hp, Frame.deferredCall, List.countP_append] <;> omega
    by_cases hlate : site.countsLate
    · simp only [hlate, if_true]
      refine ⟨hframe, ?_, ?_, hcount⟩
      · rw [State.enqueueRequest_eq]
        show Function.update s.inFlightCount cb.operationCategory
          (s.inFlightCount cb.operationCategory + 1) c = _
        rw [update_count]
        by_cases heq : cb.operationCategory = c
        · simp [heq]
        · simp [heq]
      · rw [State.enqueueRequest_eq]
        rfl
    · simp only [hlate]
      refine ⟨hframe, ?_, ?_, hcount⟩
      · rw [State.enqueueRequest_eq]
        simp [State.leaveTo]
      · rw [State.enqueueRequest_eq]
        rfl

/-- What each action does to the ledger. -/
theorem Act.books (hk : Sound k) (h : Act k a k') (c : OperationCategory)
    (p : CallbackData → Bool) : Books c p k.state k'.state a := by
  have hw := hk.wellFormed
  have hact := h
  cases h with
  | silent hcore => exact .same (by rw [hcore]) (by rw [hcore]) (by rw [hcore])
  | deinit => exact .down (.inr rfl)
  | @start s site cb hstack hctx hsite =>
    exact .same rfl rfl (booked_push s (Frame.deferredCall_direct hsite cb []) p)
  | leave hstack hf =>
    exact .same rfl rfl (booked_leave hstack (Frame.deferredCall_of_isEvent hf) p)
  | enter _ hf => obtain rfl | ⟨n, rfl⟩ := hf <;> exact .same rfl rfl rfl
  | @expire s cb =>
    have hcount := recordCompletion_count (s.removeActive cb.continuationID) cb.operationCategory
      false c
    dsimp only [State.expire]
    rw [State.resume_eq]
    refine .expired hcount.1 hcount.2 ?_
    rw [State.recordCompletion_eq]
    rfl
  | callback halive =>
    obtain ⟨hin, hclamp, hcount⟩ := hact.completes hk halive c p
    exact .completed hin hclamp hcount
  | callbackDead halive hstack htake hnote =>
    obtain ⟨out, fhs, dirs, b, r, -, heq⟩ := State.callback_eq htake hnote
    rw [heq]
    exact .down (.inr halive)
  | @execute s i op hctx hop =>
    have hmem := List.mem_of_getElem? hop
    refine .executed hmem ?_ rfl ?_
    · show Function.update s.inFlightCount op.category (s.inFlightCount op.category + 1) c = _
      rw [update_count]
      split
      · rename_i heq
        rw [heq]
      · exact (add_zero _).symm
    · have hcons := Core.booked_cons (s := { s.toCore with
          stack := .handOver (.pending i op) op.cbData [] :: s.stack }) rfl p
      have hcall : (Frame.handOver (.pending i op) op.cbData []).deferredCall = some op.cbData := by
        simp [Frame.deferredCall, Site.isPending]
      rw [hcall, Option.toList_some, List.countP_singleton] at hcons
      refine Eq.trans hcons ?_
      unfold Core.booked
      dsimp only
      omega
  | @finishHook s =>
    unfold State.finishHook
    split
    · rename_i hstack
      rw [State.resume_eq]
      exact .same rfl rfl (booked_leave hstack rfl p)
    · exact .same rfl rfl rfl
  | accept =>
    obtain ⟨hframe, hin, hclamp, hcount⟩ := hact.accepts c p
    exact .accepted hframe hin hclamp hcount
  | reject hstack =>
    rw [State.resume_eq]
    exact .same rfl rfl (booked_leave hstack rfl p)
  | @rejectPending s i op cb ran rest r hstack hran =>
    obtain ⟨rfl, hop⟩ := hw.frame_op i op cb ran (hstack ▸ List.mem_cons_self ..)
    rw [State.resume_eq]
    refine .refused hop ?_ rfl ?_
    · show Function.update s.inFlightCount op.category (s.inFlightCount op.category + -1) c = _
      rw [update_count]
      split
      · rename_i heq
        rw [heq]
        rfl
      · exact (sub_zero _).symm
    · have hcons := Core.booked_cons hstack p
      have hcall : (Frame.handOver (.pending i op) op.cbData ran).deferredCall = some op.cbData := by
        simp [Frame.deferredCall, Site.isPending, hran]
      rw [hcall, Option.toList_some, List.countP_singleton] at hcons
      rw [hcons]
      show Core.booked { s.toCore with stack := rest } p + _ = _
      unfold Core.booked
      dsimp only
      omega
  | @rejectRaw s site cb ran rest r hstack hran hsite =>
    have hpending : site.isPending = false := by
      obtain rfl | ⟨n, rfl⟩ := hsite <;> rfl
    exact .same rfl rfl (booked_leave hstack (Frame.deferredCall_direct hpending cb ran) p)
  | rejectHandle hstack => exact .same rfl rfl (booked_leave hstack rfl p)
  | rejectExports hstack => exact .same rfl rfl (booked_leave hstack rfl p)
  | @leaveRpcDestroy s n next rest hstack =>
    refine .dropped rfl rfl ?_
    rw [← booked_leave hstack rfl p]
    exact booked_drop (s.leaveTo rest) (.rpc n) p
  | @exportsFailed s n cb rest r hstack =>
    refine .dropped rfl rfl ?_
    rw [← booked_leave hstack rfl p]
    exact booked_drop (s.leaveTo rest) (.rpc n) p
  | @enterDestroy s kind => exact .down (.inl rfl)
  | @leaveDestroy s kind conts rest hstack =>
    have hctx : s.context = none :=
      hk.ending.destroyed kind conts (hstack ▸ List.mem_cons_self ..)
    exact .down (.inl ((State.endTeardown_context _ _ _).trans hctx))
  | @teardownNow s kind hctx =>
    have hclear : (s.clearRegistries kind).context = none := by cases kind <;> exact hctx
    exact .down (.inl ((State.endTeardown_context _ _ _).trans hclear))
  | alreadyDown hctx => exact .down (.inl hctx)
  | immediate | overflow =>
    dsimp only [State.resumeContinuation, State.removeActive, State.register, State.newCaller]
    exact .same rfl rfl rfl
  | _ => exact .same rfl rfl rfl

/-- Operations whose callbacks do not run inside their own issuing call stay to be accepted. -/
theorem Act.directCalls (hk : Sound k) (h : Act k a k') {p : CallbackData → Prop}
    (hcalls : ∀ site cb ran, Frame.handOver site cb ran ∈ k.state.stack → site.isPending = false →
      p cb → cb.caller ∉ ran)
    (hown : ∀ f cb status data, a = .callback f cb status data → f.directCall = some cb → ¬ p cb) :
    ∀ site cb ran, Frame.handOver site cb ran ∈ k'.state.stack → site.isPending = false →
      p cb → cb.caller ∉ ran := by
  intro site cb ran hf hsite hp
  rcases h.effects.frames _ hf with hf | ⟨g, hg, c, status, data, rfl, heq⟩ | hpush
  · exact hcalls site cb ran hf hsite hp
  · cases g with
    | handOver site' cb' ran' =>
      injection heq with h₁ h₂ h₃
      subst h₁ h₂ h₃
      have hran' := hcalls site cb ran' hg hsite hp
      have hcall : (Frame.handOver site cb ran').inCall = some cb :=
        Frame.inCall_eq_some.mpr ⟨hran', rfl⟩
      have hne : cb.caller ≠ c.caller := by
        have haux {s s₁ s₂ : State} {rest : List Frame} (hw : WellFormed s)
            (hstack : s.stack = .handOver site cb ran' :: rest)
            (htake : s.takeRequest (.handOver site cb ran') rest c.continuationID = some (c, s₁))
            (hnote : s₁.noteDelivery c status data = some s₂) : cb.caller ≠ c.caller := by
          obtain ⟨out, fhs, dirs, b, r, htaken, -⟩ := State.callback_eq htake hnote
          obtain ⟨hc, -⟩ | ⟨r, hr, rfl, -, -⟩ := htaken
          · obtain rfl : cb = c := Option.some.inj (hcall.symm.trans hc)
            refine absurd hp (hown _ cb status data rfl ?_)
            simp [Frame.directCall, hsite, hran']
          · exact caller_ne_of_accepted hw hstack hr hcall
        cases h with
        | callback _ hstack htake hnote => exact haux hk.wellFormed hstack htake hnote
        | callbackDead _ hstack htake hnote => exact haux hk.wellFormed hstack htake hnote
      simp [hne, hran']
    | _ => cases heq
  · cases h with
    | start | execute =>
      injection hpush with h₁ h₂ h₃
      rw [h₃]
      exact List.not_mem_nil
    | enter hstack hservice =>
      have hpush : Frame.handOver site cb ran = _ := hpush
      obtain rfl | ⟨n, rfl⟩ := hservice <;> cases hpush
    | callback | callbackDead | enterDestroy | reject | rejectPending | rejectRaw | rejectHandle
    | rejectExports =>
      obtain ⟨_, h⟩ := hpush
      cases h
    | _ => cases hpush

/-! ## The depths -/

/-- Both controllers have the property `P`. -/
def Controlled (P : PipelineController → Prop) (s : State) : Prop := ∀ c, P (s.controller c)

section

variable {P : PipelineController → Prop}

theorem Controlled.of_eq (hp : Controlled P s) (hbulk : s'.bulkController = s.bulkController)
    (hmetadata : s'.metadataController = s.metadataController) : Controlled P s' := by
  intro c
  have h := hp c
  cases c with
  | bulk => exact (show P s'.bulkController from hbulk ▸ h)
  | metadata => exact (show P s'.metadataController from hmetadata ▸ h)

theorem Controlled.recordCompletion (hrecord : ∀ p b, P p → P (p.record b)) (hp : Controlled P s)
    (d : OperationCategory) (ok : Bool) : Controlled P (s.recordCompletion d ok) := by
  intro c
  rw [State.recordCompletion_controller]
  split
  · exact hrecord _ ok (hp c)
  · exact hp c

theorem Controlled.endTeardown (hreset : ∀ p, P p → P p.reset) (hp : Controlled P s)
    (kind : Teardown) (l : List CallbackData) : Controlled P (s.endTeardown kind l) := by
  unfold State.endTeardown
  rw [State.foldl_resume_eq]
  cases kind with
  | performShutdown =>
    intro c
    cases c with
    | bulk => exact hreset _ (hp .bulk)
    | metadata => exact hreset _ (hp .metadata)
  | shutdownWithError => exact hp.of_eq rfl rfl

/-- One action keeps what completions and resets keep of a controller. -/
theorem Controlled.act (hrecord : ∀ p b, P p → P (p.record b)) (hreset : ∀ p, P p → P p.reset)
    (hp : Controlled P k.state) (h : Act k a k') : Controlled P k'.state := by
  cases h with
  | silent hcore => exact hp.of_eq (by rw [hcore]) (by rw [hcore])
  | @expire s cb =>
    have hremove : Controlled P (s.removeActive cb.continuationID) := hp.of_eq rfl rfl
    dsimp only [State.expire]
    rw [State.resume_eq]
    exact (hremove.recordCompletion hrecord cb.operationCategory false).of_eq rfl rfl
  | callback _ _ htake hnote =>
    obtain ⟨out, fhs, dirs, b, r, -, heq⟩ := State.callback_eq htake hnote
    refine Controlled.recordCompletion hrecord ?_ _ _
    rw [heq]
    exact hp.of_eq rfl rfl
  | callbackDead _ _ htake hnote =>
    obtain ⟨out, fhs, dirs, b, r, -, heq⟩ := State.callback_eq htake hnote
    rw [heq]
    exact hp.of_eq rfl rfl
  | @finishHook s =>
    obtain ⟨stack, resumed, outcomes, failed, heq⟩ := State.finishHook_eq s
    rw [heq]
    exact hp.of_eq rfl rfl
  | accept =>
    rw [State.enqueueRequest_eq]
    split <;> exact hp.of_eq rfl rfl
  | reject | rejectPending =>
    rw [State.resume_eq]
    exact hp.of_eq rfl rfl
  | @enterDestroy s kind => cases kind <;> exact hp.of_eq rfl rfl
  | @leaveDestroy s kind conts rest =>
    have hdrop : Controlled P ((s.leaveTo rest).dropRequests .nfs) := hp.of_eq rfl rfl
    exact hdrop.endTeardown hreset kind conts
  | @teardownNow s kind =>
    refine Controlled.endTeardown hreset ?_ _ _
    cases kind <;> exact hp.of_eq rfl rfl
  | immediate | overflow =>
    dsimp only [State.resumeContinuation, State.removeActive, State.register, State.newCaller]
    exact hp.of_eq rfl rfl
  | _ => exact hp.of_eq rfl rfl

theorem controlled_of_reachable {timeout : Int} {t : State} (hinit : P {})
    (hrecord : ∀ p b, P p → P (p.record b)) (hreset : ∀ p, P p → P p.reset)
    (h : Reachable step (State.init timeout) t) : Controlled P t :=
  (run_invariant_init h (fun k => Controlled P k.state) (fun c => by cases c <;> exact hinit)
    fun _ _ _ _ _ _ _ hp _ hact => hp.act hrecord hreset hact).2

end

/-- Both controllers keep the bounds they were created with. -/
def Bounded (s : State) : Prop := Controlled PipelineController.DefaultBounds s

theorem bounded_of_reachable {timeout : Int} {t : State}
    (h : Reachable step (State.init timeout) t) : Bounded t :=
  controlled_of_reachable PipelineController.defaultBounds_init (fun _ b hp => hp.record b)
    (fun _ hp => hp.reset) h

theorem quiet_of_reachable {timeout : Int} {t : State}
    (h : Reachable step (State.init timeout) t) : Quiet t.config :=
  (run_invariant_init h Quiet (fun halive => by cases halive)
    fun _ _ _ _ _ _ hk hq _ hact => hq.act hk hact).2

end NFSKit
