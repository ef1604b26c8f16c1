import NFSKit.EventLoop.Proofs.ResumeOnceProofs
import NFSKit.EventLoop.Proofs.EffectsProofs
import NFSKit.EventLoop.Conditions

/-!
# Requests and answers

An action that resumes a caller first takes the operation out of the queue and out of libnfs's hands,
with two exceptions: a timeout, and the end of a teardown.
-/

namespace NFSKit

open Machine Counting

variable {s s' : State}

/-! ## What holds of every reachable configuration -/

/-- The invariants that the other ones rest on. -/
structure Sound (k : Config) : Prop where
  wellFormed : WellFormed k.state
  resumption : Resumption k.state
  ending : Ending k

theorem sound_init (timeout : Int) : Sound (State.init timeout).config :=
  ⟨wellFormed_init timeout, resumption_init timeout, ending_init timeout⟩

/-- The run lemma from any sound state: every action may use that its configuration is sound. -/
theorem run_invariant_sound {P : State → Event → Prop} {s t : State} (h : Reaches step P s t)
    (hs : Sound s.config) (I : Config → Prop) (h0 : I s.config)
    (hI : ∀ u e k a k', P u e → Sound k → I k → Allowed u e k a → Act k a k' → I k') :
    Sound t.config ∧ I t.config := by
  have hrun := run_invariant h (fun k => (Resumption k.state ∧ Ending k) ∧ I k)
    hs.wellFormed ⟨⟨hs.resumption, hs.ending⟩, h0⟩
    fun u e k a k' hP hw hk ha hact =>
      ⟨⟨hk.1.1.act hw hact, hk.1.2.act hw hact⟩,
        hI u e k a k' hP ⟨hw, hk.1.1, hk.1.2⟩ hk.2 ha hact⟩
  obtain ⟨hw, ⟨hr, hd⟩, hi⟩ := hrun
  exact ⟨⟨hw, hr, hd⟩, hi⟩

/-- One step of a sound state: what each of its actions preserves holds afterwards. -/
theorem step_invariant_sound {u v : State} {e : Event} (h : step u e = some v)
    (hs : Sound u.config) (I : Config → Prop) (h0 : I u.config)
    (hI : ∀ k a k', Sound k → I k → Allowed u e k a → Act k a k' → I k') :
    Sound v.config ∧ I v.config := by
  have hrun : Reaches step (fun s x => s = u ∧ x = e) u v := Reaches.refl.tail ⟨rfl, rfl⟩ h
  refine run_invariant_sound hrun hs I h0 ?_
  rintro s x k a k' ⟨rfl, rfl⟩ hk hi ha hact
  exact hI k a k' hk hi ha hact

/-- The run lemma from the initial state. -/
theorem run_invariant_init {P : State → Event → Prop} {timeout : Int} {t : State}
    (h : Reaches step P (State.init timeout) t) (I : Config → Prop)
    (h0 : I (State.init timeout).config)
    (hI : ∀ u e k a k', P u e → Sound k → I k → Allowed u e k a → Act k a k' → I k') :
    Sound t.config ∧ I t.config :=
  run_invariant_sound h (sound_init timeout) I h0 hI

/-- Every reachable state is sound. -/
theorem sound_of_reachable {timeout : Int} {t : State}
    (h : Reachable step (State.init timeout) t) : Sound t.config :=
  (run_invariant_init h (fun _ => True) trivial fun _ _ _ _ _ _ _ _ _ _ => trivial).1

/-! ## Requests -/

theorem Frame.count_inCall_le (f : Frame) (cb : CallbackData) :
    f.inCall.toList.count cb ≤ f.holds.count cb := by
  cases f with
  | handOver site c ran =>
    simp only [Frame.inCall, Frame.holds]
    split <;> simp
  | _ => exact Nat.zero_le _

theorem count_inCall_le (stack : List Frame) (cb : CallbackData) :
    (stack.filterMap Frame.inCall).count cb ≤ (stack.flatMap Frame.holds).count cb := by
  induction stack with
  | nil => simp
  | cons f stack ih =>
    have hf := f.count_inCall_le cb
    rw [List.flatMap_cons, List.count_append]
    cases h : f.inCall with
    | none =>
      rw [List.filterMap_cons_none h]
      omega
    | some c =>
      rw [h] at hf
      rw [List.filterMap_cons_some h, List.count_cons]
      simp only [Option.toList_some, List.count_singleton] at hf
      omega

theorem requests_le_tokens (s : State) (cb : CallbackData) : s.requests cb ≤ s.tokens cb := by
  have := count_inCall_le s.stack cb
  unfold Core.requests Core.tokens
  omega

/-- A requested operation has been made by the loop. -/
theorem requested_created (hw : WellFormed s) {cb : CallbackData} (h : 0 < s.requests cb) :
    cb ∈ s.created :=
  hw.tokens_created cb (Nat.lt_of_lt_of_le h (requests_le_tokens s cb))

/-- When a frame is left, the operation it was responsible for is requested nowhere else. -/
theorem caller_ne_of_left {f : Frame} {rest : List Frame} {cb c : CallbackData} (hw : WellFormed s)
    (hstack : s.stack = f :: rest) (hcb : cb ∈ f.holds)
    (hpending : s'.pendingOperations = s.pendingOperations)
    (hout : s'.outstanding.countP (fun r => r.cb = c) ≤ s.outstanding.countP (fun r => r.cb = c))
    (hrest : s'.stack.filterMap Frame.inCall = rest.filterMap Frame.inCall)
    (hc : 0 < s'.requests c) : c.caller ≠ cb.caller := by
  have htokens : s'.requests c + f.holds.count c ≤ s.tokens c := by
    have := count_inCall_le rest c
    rw [Core.tokens_cons hstack]
    unfold Core.requests
    rw [hpending, hrest]
    omega
  have hone : 0 < f.holds.count cb := List.count_pos_iff.mpr hcb
  have hcreated : cb ∈ s.created := hw.tokens_created cb (by rw [Core.tokens_cons hstack]; omega)
  have hcreated' : c ∈ s.created := hw.tokens_created c (by omega)
  intro heq
  obtain rfl : c = cb := hw.caller_inj c hcreated' cb hcreated heq
  have := hw.tokens_le c
  omega

/-- Resuming somebody else. -/
theorem State.resume_outcomes_of_ne (s : State) {cb : CallbackData} {r : Outcome} {i : Nat}
    (h : i ≠ cb.caller) : (s.resume cb r).outcomes i = s.outcomes i := by
  rw [State.resume_outcomes, if_neg fun hi => h hi.1]

theorem State.resumeContinuation_of_ne (s : State) {caller i : Nat} {r : Outcome}
    (h : i ≠ caller) : (s.resumeContinuation caller r).outcomes i = s.outcomes i :=
  Function.update_of_ne h _ _

theorem State.resume_requests (s : State) (cb : CallbackData) (r : Outcome) (c : CallbackData) :
    (s.resume cb r).requests c = s.requests c := by
  rw [State.resume_eq]
  rfl

/-- The end of a teardown changes what the callers have received, and nothing that is requested. -/
theorem State.endTeardown_requests (s : State) (kind : Teardown) (l : List CallbackData)
    (c : CallbackData) : (s.endTeardown kind l).requests c = s.requests c := by
  obtain ⟨bulk, metadata, counts, heq⟩ := State.endTeardown_eq s kind l
  rw [heq, State.foldl_resume_eq]
  rfl

/-! ## What becomes of the requests -/

variable {k k' : Config} {a : Action}

theorem Frame.inCall_eq_some {site : Site} {c cb : CallbackData} {ran : List Nat} :
    (Frame.handOver site c ran).inCall = some cb ↔ c.caller ∉ ran ∧ c = cb := by
  simp only [Frame.inCall]
  split <;> simp_all

/-- The requests, with the innermost call set apart. -/
theorem Core.requests_cons {s : Core} {f : Frame} {rest : List Frame} (hstack : s.stack = f :: rest)
    (cb : CallbackData) :
    s.requests cb = s.pendingOperations.countP (fun op => op.cbData = cb) +
      s.outstanding.countP (fun r => r.cb = cb) +
      (f.inCall.toList.count cb + (rest.filterMap Frame.inCall).count cb) := by
  unfold Core.requests
  rw [hstack]
  cases hf : f.inCall with
  | none =>
    rw [List.filterMap_cons_none hf]
    simp
  | some c =>
    rw [List.filterMap_cons_some hf, List.count_cons, Option.toList_some, List.count_singleton]
    omega

theorem Frame.inCall_noteCallback_le (f : Frame) (caller : Nat) (cb : CallbackData) :
    (f.noteCallback caller).inCall.toList.count cb ≤ f.inCall.toList.count cb := by
  cases f with
  | handOver site c ran =>
    simp only [Frame.noteCallback, Frame.inCall, List.mem_cons]
    split <;> split <;> simp_all
  | _ => exact le_refl _

/-- Leaving a call, or dropping requests, requests nothing new. -/
theorem requests_leave_le {f : Frame} {rest : List Frame} (hstack : s.stack = f :: rest)
    (cb : CallbackData) : (s.leaveTo rest).requests cb ≤ s.requests cb := by
  rw [Core.requests_cons hstack]
  unfold Core.requests State.leaveTo
  dsimp only
  omega

theorem requests_drop_le (s : State) (ctx : Ctx) (cb : CallbackData) :
    (s.dropRequests ctx).requests cb ≤ s.requests cb := by
  have : (s.outstanding.filter (·.ctx ≠ ctx)).countP (fun r => r.cb = cb) ≤
      s.outstanding.countP (fun r => r.cb = cb) := countP_filter_le _ _ _
  unfold Core.requests State.dropRequests
  dsimp only
  omega

theorem requests_clearRegistries_le (s : State) (kind : Teardown) (cb : CallbackData) :
    (s.clearRegistries kind).requests cb ≤ s.requests cb := by
  unfold Core.requests
  cases kind <;> simp [State.clearRegistries]

/-- After a callback has entered its completion hook, its request is gone. -/
theorem requests_callback_le {f : Frame} {rest : List Frame} {cb : CallbackData}
    {out : List Request} (hstack : s.stack = f :: rest) (htaken : s.Taken f cb out)
    (c : CallbackData) :
    s.pendingOperations.countP (fun op => op.cbData = c) + out.countP (fun r => r.cb = c) +
      ((f.noteCallback cb.caller :: rest).filterMap Frame.inCall).count c +
      (if cb = c then 1 else 0) ≤ s.requests c := by
  have hnote : ((f.noteCallback cb.caller :: rest).filterMap Frame.inCall).count c =
      (f.noteCallback cb.caller).inCall.toList.count c +
        (rest.filterMap Frame.inCall).count c := by
    cases hf : (f.noteCallback cb.caller).inCall with
    | none =>
      rw [List.filterMap_cons_none hf]
      simp
    | some d =>
      rw [List.filterMap_cons_some hf, List.count_cons, Option.toList_some, List.count_singleton]
      omega
  rw [Core.requests_cons hstack, hnote]
  obtain ⟨hcall, rfl⟩ | ⟨q, hq, rfl, -, rfl⟩ := htaken
  · have hgone : (f.noteCallback cb.caller).inCall = none := by
      cases f with
      | handOver site d ran =>
        obtain ⟨-, rfl⟩ := Frame.inCall_eq_some.mp hcall
        simp [Frame.noteCallback, Frame.inCall]
      | _ => rfl
    rw [hgone, hcall, Option.toList_some, List.count_singleton]
    simp
    omega
  · have herase := countP_eq_countP_erase_add (fun r => r.cb = c) hq
    have hle := f.inCall_noteCallback_le q.cb.caller c
    simp only [decide_eq_true_eq] at herase
    omega

/-- Whatever is requested was requested before, or has just been made. -/
theorem Act.requests_le (h : Act k a k') {cb : CallbackData} (hnew : a.made ≠ some cb) :
    k'.state.requests cb ≤ k.state.requests cb := by
  cases h with
  | silent hcore => rw [hcore]
  | releaseBuffer | deinit | startTeardown | closing | dropHandle | registerHandle | readdirAll
  | dropDir | skip | drained | alreadyDown | enterClose | enterRpcDestroy => exact le_refl _
  | immediate | overflow =>
    dsimp only [State.resumeContinuation, State.removeActive, State.register, State.newCaller]
    exact le_refl _
  | enter _ hf => obtain rfl | ⟨n, rfl⟩ := hf <;> exact le_refl _
  | leave hstack => exact requests_leave_le hstack cb
  | @start s site c =>
    have hne : c ≠ cb := fun h => hnew (congrArg some h)
    have hcount : (c :: s.stack.filterMap Frame.inCall).count cb =
        (s.stack.filterMap Frame.inCall).count cb := List.count_cons_of_ne hne
    unfold Core.requests
    dsimp only [State.handOver, State.passRetained, State.register, State.newCaller]
    exact Nat.add_le_add_left hcount.le _
  | @enqueue s type c =>
    have hne : c ≠ cb := fun h => hnew (congrArg some h)
    have hcount : (s.pendingOperations ++ [PendingOperation.mk c.continuationID type c]).countP
        (fun op : PendingOperation => op.cbData = cb) = s.pendingOperations.countP (fun op => op.cbData = cb) := by
      simp [hne]
    unfold Core.requests
    exact Nat.add_le_add_right (Nat.add_le_add_right hcount.le _) _
  | @expire s c =>
    obtain ⟨hstack, hpending, hout, -⟩ := State.expire_fields s c
    unfold Core.requests
    rw [hstack, hpending, hout]
  | callback _ hstack htake hnote =>
    obtain ⟨out, fhs, dirs, b, r, htaken, heq⟩ := State.callback_eq htake hnote
    rw [State.recordCompletion_eq, heq]
    exact (Nat.le_add_right _ _).trans (requests_callback_le hstack htaken cb)
  | callbackDead _ hstack htake hnote =>
    obtain ⟨out, fhs, dirs, b, r, htaken, heq⟩ := State.callback_eq htake hnote
    rw [heq]
    exact (Nat.le_add_right _ _).trans (requests_callback_le hstack htaken cb)
  | @execute s i op hctx hop =>
    have herase := countP_eq_countP_eraseIdx_add (fun op => op.cbData = cb) hop
    have hcount : (op.cbData :: s.stack.filterMap Frame.inCall).count cb =
        (s.stack.filterMap Frame.inCall).count cb + if op.cbData = cb then 1 else 0 := by
      simp [List.count_cons]
    simp only [decide_eq_true_eq] at herase
    show (s.pendingOperations.eraseIdx i).countP (fun op => op.cbData = cb) +
      s.outstanding.countP (fun r => r.cb = cb) +
      (op.cbData :: s.stack.filterMap Frame.inCall).count cb ≤ s.requests cb
    unfold Core.requests
    omega
  | @finishHook s =>
    unfold State.finishHook
    split
    · rename_i hstack
      rw [State.resume_requests]
      exact requests_leave_le hstack cb
    · exact le_refl _
  | @accept s site c ran rest hstack =>
    have hle : ((s.leaveTo rest).enqueueRequest site.ctx c ran).requests cb ≤ s.requests cb := by
      rw [State.enqueueRequest_eq, Core.requests_cons hstack]
      unfold Core.requests State.leaveTo
      by_cases hran : c.caller ∈ ran
      · simp [hran, Frame.inCall]
      · simp [hran, Frame.inCall, List.countP_append, List.countP_cons, List.count_singleton]
        omega
    dsimp only
    split <;> exact hle
  | reject hstack | rejectPending hstack =>
    rw [State.resume_requests]
    exact requests_leave_le hstack cb
  | rejectRaw hstack | rejectHandle hstack | rejectExports hstack =>
    exact requests_leave_le hstack cb
  | leaveRpcDestroy hstack => exact (requests_drop_le _ _ cb).trans (requests_leave_le hstack cb)
  | exportsFailed hstack => exact (requests_drop_le _ _ cb).trans (requests_leave_le hstack cb)
  | @enterDestroy s kind =>
    have hclear := requests_clearRegistries_le s kind cb
    unfold Core.requests at hclear ⊢
    cases kind <;> exact hclear
  | @leaveDestroy s kind conts rest hstack =>
    rw [State.endTeardown_requests]
    exact (requests_drop_le _ _ cb).trans (requests_leave_le hstack cb)
  | @teardownNow s kind =>
    rw [State.endTeardown_requests]
    exact requests_clearRegistries_le s kind cb

/-! ## What becomes of the callers -/

/-- What an action may do to the caller of an operation that is requested afterwards: nothing, or
it expires the operation, or it is the end of a teardown that resumes the caller. -/
inductive Untouched (s s' : State) (cb : CallbackData) : Action → Prop where
  | same {a : Action} (h : s'.outcomes cb.caller = s.outcomes cb.caller) : Untouched s s' cb a
  | expired : Untouched s s' cb (.expire cb)
  | tornDown {kind : Teardown} {conts : List CallbackData}
      (hout : s'.outstanding = s.outstanding.filter (·.ctx ≠ .nfs)) (hstack : s'.stack = [])
      (hpending : s'.pendingOperations = []) :
      Untouched s s' cb (.leaveDestroy kind conts)

/-- A refused operation is not requested any more. -/
theorem caller_ne_of_refused {site : Site} {cb c : CallbackData} {ran : List Nat}
    {rest : List Frame} (hw : WellFormed s) (hstack : s.stack = .handOver site cb ran :: rest)
    (hran : cb.caller ∉ ran) (id : Nat) (hc : 0 < (s.refuse rest id cb).requests c) :
    c.caller ≠ cb.caller :=
  @caller_ne_of_left _ (s.refuse rest id cb) _ _ _ _ hw hstack
    (Frame.mem_holds_handOver site hran) rfl (le_refl _) rfl hc

/-- A caller whose operation is still requested has not been resumed by the action. -/
theorem Act.untouched (hk : Sound k) (h : Act k a k')
    {cb : CallbackData} (hcb : 0 < k'.state.requests cb) : Untouched k.state k'.state cb a := by
  have hw := hk.wellFormed
  cases h with
  | silent hcore => exact .same (by rw [hcore])
  | releaseBuffer | deinit | startTeardown | closing | dropHandle | registerHandle | readdirAll
  | dropDir | skip | drained | alreadyDown | enqueue | enterClose | enter | leave | execute
  | enterRpcDestroy | leaveRpcDestroy => exact .same rfl
  | start =>
    dsimp only [State.handOver, State.passRetained, State.register, State.newCaller]
    exact .same rfl
  | @immediate s r =>
    have hlt : cb.caller < s.nextCaller := hw.caller_lt cb (requested_created hw hcb)
    exact .same (State.resumeContinuation_of_ne _ (by omega))
  | @overflow s c r hctx hid hcaller =>
    dsimp only [State.resumeContinuation, State.removeActive, State.register, State.newCaller] at hcb
    have hlt : cb.caller < s.nextCaller := hw.caller_lt cb (requested_created hw hcb)
    exact .same (State.resumeContinuation_of_ne _ (by omega))
  | @expire s c hstack hmem =>
    by_cases heq : cb = c
    · subst heq
      exact .expired
    · have hpos : 0 < s.requests cb := by
        dsimp only [State.expire] at hcb
        rw [State.resume_requests, State.recordCompletion_eq] at hcb
        exact hcb
      have hne : cb.caller ≠ c.caller := fun h =>
        heq (hw.caller_inj cb (requested_created hw hpos) c (hw.active_created c hmem) h)
      refine .same ?_
      dsimp only [State.expire]
      rw [State.resume_outcomes_of_ne _ hne, State.recordCompletion_eq]
      rfl
  | callback halive hstack htake hnote =>
    obtain ⟨out, fhs, dirs, b, r, -, heq⟩ := State.callback_eq htake hnote
    refine .same ?_
    rw [State.recordCompletion_eq, heq]
    rfl
  | callbackDead _ hstack htake hnote =>
    obtain ⟨out, fhs, dirs, b, r, -, heq⟩ := State.callback_eq htake hnote
    refine .same ?_
    rw [heq]
  | @finishHook s =>
    unfold State.finishHook at hcb ⊢
    split at hcb
    · rename_i c result rest hstack
      rw [State.resume_requests] at hcb
      refine .same (State.resume_outcomes_of_ne _ ?_)
      exact @caller_ne_of_left _ (s.leaveTo rest) _ _ _ _ hw hstack (List.mem_singleton_self c)
        rfl (le_refl _) rfl hcb
    · exact .same rfl
  | @accept s site c ran rest hstack =>
    refine .same ?_
    rw [State.enqueueRequest_eq]
    split <;> rfl
  | @reject s c ran rest r hstack hran =>
    rw [State.resume_requests] at hcb
    exact .same (State.resume_outcomes_of_ne _ (caller_ne_of_refused hw hstack hran _ hcb))
  | @rejectPending s i op c ran rest r hstack hran =>
    rw [State.resume_requests] at hcb
    exact .same (State.resume_outcomes_of_ne _ (caller_ne_of_refused hw hstack hran op.id hcb))
  | @rejectRaw s site c ran rest r hstack hran =>
    exact .same (State.resumeContinuation_of_ne _
      (caller_ne_of_refused hw hstack hran c.continuationID hcb))
  | @rejectHandle s c ran rest r hstack hran =>
    exact .same (State.resumeContinuation_of_ne _
      (caller_ne_of_refused hw hstack hran c.continuationID hcb))
  | rejectExports => exact .same rfl
  | @exportsFailed s n c rest r hstack =>
    refine .same (State.resumeContinuation_of_ne _ ?_)
    exact @caller_ne_of_left _ ((s.leaveTo rest).dropRequests (.rpc n)) _ _ _ _ hw hstack
      (List.mem_singleton_self c) rfl (countP_filter_le _ _ _) rfl hcb
  | @enterDestroy s kind => cases kind <;> exact .same rfl
  | @leaveDestroy s kind conts rest hstack hrest =>
    obtain ⟨bulk, metadata, counts, heq⟩ :=
      State.endTeardown_eq ((s.leaveTo rest).dropRequests .nfs) kind conts
    have hctx : s.context = none :=
      hk.ending.destroyed kind conts (hstack ▸ List.mem_cons_self ..)
    refine .tornDown ?_ ?_ ?_
    · rw [heq, State.foldl_resume_eq]
      rfl
    · rw [State.endTeardown_stack]
      exact hrest
    · rw [heq, State.foldl_resume_eq]
      exact (hw.retired hctx).2
  | @teardownNow s kind hctx hstack =>
    have hactive : s.activeContinuations = [] := (hw.retired hctx).1
    refine .same ?_
    rw [hactive]
    cases kind <;> rfl

end NFSKit
