import NFSKit.EventLoop.Proofs.ConfinementProofs
import NFSKit.EventLoop.Proofs.RetainProofs

/-!
# Who waits has a request

A caller waits as long as its operation is registered, and a registered operation is queued or held by
libnfs. So a loop that has nothing queued and nothing outstanding owes nobody an answer.
-/

namespace NFSKit

open Machine Counting

variable {s s' t : State} {k k' : Config} {a : Action}

/-- Every registered operation is requested: it is queued, being handed over or outstanding. -/
def Requested (s : State) : Prop := ∀ cb ∈ s.activeContinuations, 0 < s.requests cb

/-- Whether the action destroys an export context on which libnfs still holds a request. -/
def Action.forgets (s : State) : Action → Prop
  | .leaveRpcDestroy n _ => ∃ r ∈ s.outstanding, r.ctx = .rpc n
  | _ => False

namespace Requested

theorem of_nil (h : s.activeContinuations = []) : Requested s := by
  intro c hc
  rw [h] at hc
  cases hc

/-- Fewer operations are registered, and the requests stay. -/
theorem shrink (hb : Requested s) (hactive : ∀ c ∈ s'.activeContinuations, c ∈ s.activeContinuations)
    (hrequests : ∀ c ∈ s'.activeContinuations, s'.requests c = s.requests c) : Requested s' := by
  intro c hc
  rw [hrequests c hc]
  exact hb c (hactive c hc)

/-- The registry and the requests stay. -/
theorem same (hb : Requested s) (hactive : s'.activeContinuations = s.activeContinuations)
    (hrequests : ∀ c, s'.requests c = s.requests c) : Requested s' :=
  hb.shrink (fun _ hc => hactive ▸ hc) fun c _ => hrequests c

/-- An operation leaves the registry together with its request. -/
theorem remove (hb : Requested s) (cb : CallbackData)
    (hactive : s'.activeContinuations =
      s.activeContinuations.filter (·.continuationID ≠ cb.continuationID))
    (hrequests : ∀ c, s'.requests c + (if cb = c then 1 else 0) = s.requests c) : Requested s' := by
  have hleft (c : CallbackData) (hc : c ∈ s'.activeContinuations) :
      c ∈ s.activeContinuations ∧ cb ≠ c := by
    rw [hactive, List.mem_filter] at hc
    refine ⟨hc.1, ?_⟩
    rintro rfl
    simp at hc
  refine hb.shrink (fun c hc => (hleft c hc).1) fun c hc => ?_
  have heq := hrequests c
  rw [if_neg (hleft c hc).2] at heq
  exact heq

/-- An operation joins the registry with a request of its own. -/
theorem join (hb : Requested s) (cb : CallbackData)
    (hactive : s'.activeContinuations = s.activeContinuations ++ [cb])
    (hrequests : ∀ c, s.requests c + (if cb = c then 1 else 0) ≤ s'.requests c) : Requested s' := by
  intro c hc
  have hle := hrequests c
  rw [hactive] at hc
  rcases List.mem_append.mp hc with hc | hc
  · have := hb c hc
    omega
  · obtain rfl := List.mem_singleton.mp hc
    rw [if_pos rfl] at hle
    omega

/-- The requests of a context on which there are none are dropped. -/
theorem drop (hb : Requested s) (ctx : Ctx) (hnone : ∀ r ∈ s.outstanding, r.ctx ≠ ctx) :
    Requested (s.dropRequests ctx) := by
  have hsame : s.dropRequests ctx = s := by
    have hout : s.outstanding.filter (·.ctx ≠ ctx) = s.outstanding :=
      List.filter_eq_self.mpr fun r hr => decide_eq_true (hnone r hr)
    unfold State.dropRequests
    rw [hout]
  rw [hsame]
  exact hb

/-- A call that hands nothing over returns. -/
theorem leave {f : Frame} {rest : List Frame} (hb : Requested s) (hstack : s.stack = f :: rest)
    (hf : f.inCall = none) : Requested (s.leaveTo rest) :=
  hb.same rfl (requests_leave hstack hf)

/-- One action keeps a request behind every registered operation, unless it destroys a context with
requests. -/
theorem act (hk : Sound k) (hr : Registered k.state) (hb : Requested k.state) (hkeeps : ¬ a.forgets k.state)
    (h : Act k a k') : Requested k'.state := by
  have hw := hk.wellFormed
  cases h with
  | silent hcore => exact hb.same (by rw [hcore]) fun c => by rw [hcore]
  | enter _ hf =>
    obtain rfl | ⟨n, rfl⟩ := hf <;> exact hb
  | @leave s f rest m hstack hevent =>
    refine hb.leave hstack ?_
    cases f with
    | handOver => cases hevent
    | _ => rfl
  | @start s site cb =>
    refine hb.join cb rfl fun c => ?_
    have hcount : (cb :: s.stack.filterMap Frame.inCall).count c =
        (s.stack.filterMap Frame.inCall).count c + if cb = c then 1 else 0 := by
      simp [List.count_cons]
    show s.requests c + (if cb = c then 1 else 0) ≤
      s.pendingOperations.countP (fun op => op.cbData = c) +
        s.outstanding.countP (fun r => r.cb = c) + (cb :: s.stack.filterMap Frame.inCall).count c
    unfold Core.requests
    omega
  | @enqueue s type cb =>
    refine hb.join cb rfl fun c => ?_
    have hcount : (s.pendingOperations ++ [PendingOperation.mk cb.continuationID type cb]).countP
        (fun op : PendingOperation => op.cbData = c) =
          s.pendingOperations.countP (fun op => op.cbData = c) + if cb = c then 1 else 0 := by
      by_cases hc : cb = c <;> simp [hc]
    show s.requests c + (if cb = c then 1 else 0) ≤
      (s.pendingOperations ++ [PendingOperation.mk cb.continuationID type cb]).countP
        (fun op : PendingOperation => op.cbData = c) +
          s.outstanding.countP (fun r => r.cb = c) + (s.stack.filterMap Frame.inCall).count c
    unfold Core.requests
    omega
  | @overflow s cb =>
    refine hb.shrink (fun c hc => ?_) fun _ _ => rfl
    have hc : c ∈ (s.activeContinuations ++ [cb]).filter (·.continuationID ≠ cb.continuationID) := hc
    obtain ⟨hmem, hid⟩ := List.mem_filter.mp hc
    rcases List.mem_append.mp hmem with hmem | hmem
    · exact hmem
    · obtain rfl := List.mem_singleton.mp hmem
      simp at hid
  | @expire s cb =>
    obtain ⟨hstack, hpending, hout, hactive⟩ := State.expire_fields s cb
    refine hb.shrink (fun c hc => ?_) fun c _ => ?_
    · rw [hactive] at hc
      exact List.mem_of_mem_filter hc
    · unfold Core.requests
      rw [hstack, hpending, hout]
  | callback halive hstack htake hnote =>
    obtain ⟨out, fhs, dirs, b, r, htaken, heq⟩ := State.callback_eq htake hnote
    rw [State.recordCompletion_eq, heq]
    exact hb.remove _ rfl (requests_callback hw hstack htaken)
  | callbackDead halive hstack htake hnote =>
    obtain ⟨out, fhs, dirs, b, r, htaken, heq⟩ := State.callback_eq htake hnote
    rw [heq]
    exact .of_nil (hr.dead halive)
  | @execute s i op hctx hop =>
    refine hb.same rfl fun c => ?_
    have herase := countP_eq_countP_eraseIdx_add (fun op => op.cbData = c) hop
    have hcount : (op.cbData :: s.stack.filterMap Frame.inCall).count c =
        (s.stack.filterMap Frame.inCall).count c + if op.cbData = c then 1 else 0 := by
      simp [List.count_cons]
    simp only [decide_eq_true_eq] at herase
    show (s.pendingOperations.eraseIdx i).countP (fun op => op.cbData = c) +
      s.outstanding.countP (fun r => r.cb = c) +
      (op.cbData :: s.stack.filterMap Frame.inCall).count c = s.requests c
    unfold Core.requests
    omega
  | @finishHook s =>
    unfold State.finishHook
    split
    · rename_i hstack
      refine hb.same (by rw [State.resume_eq]) fun c => ?_
      rw [State.resume_requests]
      exact requests_leave hstack rfl c
    · exact hb
  | @accept s site cb ran rest hstack =>
    have hsame := requests_accepted hstack site.ctx
    split
    · exact hb.same (by rw [State.enqueueRequest_eq]; rfl) hsame
    · exact hb.same (by rw [State.enqueueRequest_eq]; rfl) hsame
  | reject hstack hran =>
    refine hb.remove _ (by rw [State.resume_eq]; rfl) fun c => ?_
    rw [State.resume_requests]
    exact requests_refused hstack hran c
  | @rejectPending s i op cb ran rest r hstack hran =>
    obtain ⟨rfl, hcons⟩ := hw.frame_op i op cb ran (hstack ▸ List.mem_cons_self ..)
    refine hb.remove op.cbData ?_ fun c => ?_
    · rw [State.resume_eq, ← hcons.id_eq]
      rfl
    · rw [State.resume_requests]
      exact requests_refused hstack hran c
  | rejectRaw hstack hran | rejectHandle hstack hran | rejectExports hstack hran =>
    have hrefused := requests_refused hstack hran
    exact hb.remove _ rfl hrefused
  | @leaveRpcDestroy s n next rest hstack =>
    refine (hb.leave hstack rfl).drop (.rpc n) fun r hr hctx => ?_
    exact hkeeps ⟨r, hr, hctx⟩
  | @exportsFailed s n cb rest r hstack =>
    refine (hb.leave hstack rfl).drop (.rpc n) fun r hr hctx => ?_
    exact hkeeps ⟨r, hr, hctx⟩
  | @enterDestroy s kind => exact .of_nil (by cases kind <;> rfl)
  | @leaveDestroy s kind conts rest hstack =>
    have hnone : s.context = none := hk.ending.destroyed kind conts (hstack ▸ List.mem_cons_self ..)
    exact .of_nil ((State.endTeardown_activeContinuations _ _ _).trans (hw.retired hnone).1)
  | @teardownNow s kind =>
    refine .of_nil ((State.endTeardown_activeContinuations _ _ _).trans ?_)
    cases kind <;> rfl
  | _ => exact hb

end Requested

/-- In a run in which libnfs calls back what it holds before a context is gone, every registered operation
is requested. -/
theorem requested_of_reaches {P : State → Event → Prop} {timeout : Int}
    (h : Reaches step P (State.init timeout) t) (hP : ∀ u e, P u e → AnswersAll u e) :
    Registered t ∧ Requested t := by
  refine (run_invariant_init h (fun k => Registered k.state ∧ Requested k.state)
    ⟨registered_init timeout, .of_nil rfl⟩ fun u e k a k' hp hk hI ha hact => ?_).2
  refine ⟨hI.1.act hk hact, hI.2.act hk hI.1 ?_ hact⟩
  have hanswers := hP u e hp
  intro hforgets
  cases hact with
  | @leaveRpcDestroy s n next rest hstack =>
    obtain ⟨rfl, rc, view, rfl⟩ := ha
    obtain ⟨r, hr, hctx⟩ := hforgets
    exact hanswers rfl (.rpcDestroy n next) (by rw [hstack]; rfl) rfl r hr (congrArg some hctx.symm)
  | @exportsFailed s n cb rest _ hstack =>
    obtain ⟨rfl, rc, view, rfl⟩ := ha
    obtain ⟨r, hr, hctx⟩ := hforgets
    exact hanswers rfl (.rpcDestroy n _) (by rw [hstack]; rfl) rfl r hr (congrArg some hctx.symm)
  | _ => cases hforgets

/-- Between queue blocks, those who wait are the callers of the registered operations. -/
theorem waits_iff_active {timeout : Int} (h : Reaches step AnswersAll (State.init timeout) t)
    (hstack : t.stack = []) {i : Nat} (hi : i < t.nextCaller) :
    t.outcomes i = [] ↔ ∃ cb ∈ t.activeContinuations, cb.caller = i := by
  constructor
  · intro hnil
    obtain ⟨cb, hcaller, hcovers⟩ :=
      ((resumption_of_reachable h.reachable).2 i hi).resolve_left (not_not_intro hnil)
    rcases hcovers with hactive | ⟨f, hf, -⟩
    · exact ⟨cb, hactive, hcaller⟩
    · rw [hstack] at hf
      cases hf
  · rintro ⟨cb, hcb, rfl⟩
    exact (requested_of_reaches h fun _ _ h => h).1.waiting cb hcb

/-- Between queue blocks, the callers who wait are those of the registered operations, and each of these
operations is in one place: it is queued once, or libnfs holds it once, on a context that the loop has not
given up. So when nothing is queued and nothing outstanding, everybody has been resumed. -/
theorem waiting_requested {timeout : Int} (h : Reaches step AnswersAll (State.init timeout) t)
    (hstack : t.stack = []) :
    (∀ i < t.nextCaller, t.outcomes i = [] ↔ ∃ cb ∈ t.activeContinuations, cb.caller = i) ∧
      (∀ cb ∈ t.activeContinuations,
        t.pendingOperations.countP (fun op => op.cbData = cb) +
          t.outstanding.countP (fun r => r.cb = cb) = 1 ∧
        ∀ r ∈ t.outstanding, r.cb = cb → ¬ t.Destroyed r.ctx) ∧
      (t.pendingOperations = [] → t.outstanding = [] → ∀ i < t.nextCaller, t.outcomes i ≠ []) := by
  have hb := (requested_of_reaches h fun _ _ h => h).2
  obtain ⟨hk, -, hx⟩ := contextsSafe_of_reachable h.reachable
  have hw := hk.wellFormed
  have hcount (cb : CallbackData) : t.requests cb =
      t.pendingOperations.countP (fun op => op.cbData = cb) +
        t.outstanding.countP (fun r => r.cb = cb) := by
    unfold Core.requests
    rw [hstack]
    rfl
  refine ⟨fun i hi => waits_iff_active h hstack hi,
    fun cb hcb => ⟨?_, fun q hq hqcb hdestroyed => ?_⟩, fun hpending hout i hi hnil => ?_⟩
  · have hle := (requests_le_tokens t cb).trans (hw.tokens_le cb)
    have hpos := hb cb hcb
    rw [← hcount]
    omega
  · -- a context with a request of a registered operation is in use
    cases hctx : q.ctx with
    | nfs =>
      rw [hctx] at hdestroyed
      have hnone : t.activeContinuations = [] := (hw.retired hdestroyed).1
      rw [hnone] at hcb
      cases hcb
    | rpc n =>
      rw [hctx] at hdestroyed
      rcases hx.requests q hq n hctx with hcurrent | hcall
      · exact hdestroyed.2 hcurrent
      · rw [rpcCalls_of_nil hstack] at hcall
        cases hcall
  · obtain ⟨cb, hcb, -⟩ := (waits_iff_active h hstack hi).mp hnil
    have hpos := hb cb hcb
    rw [hcount, hpending, hout] at hpos
    simp at hpos

/-- A stat that libnfs holds and one that is queued behind it are all the loop owes. -/
theorem waiting_requested_stat :
    ∃ t, run step (State.init 60000000000)
        [.block Block.stat, .ret 0 {}, .block Block.stat, .ret 0 {}, .block Block.stat,
          .block .handleIOEvent, .callback 1 (-5) none, .ret 0 {}] = some t ∧
      t.activeContinuations.length = 2 ∧ ∀ i < t.nextCaller,
        t.outcomes i = [] ↔ ∃ cb ∈ t.activeContinuations, cb.caller = i := by
  have hrun : ((run step (State.init 60000000000)
      [.block Block.stat, .ret 0 {}, .block Block.stat, .ret 0 {}, .block Block.stat,
        .block .handleIOEvent, .callback 1 (-5) none, .ret 0 {}]).any fun t =>
      t.stack = [] ∧ t.activeContinuations.length = 2) = true := by
    decide +kernel
  have hmeets : meets step (fun s e => decide (AnswersAll s e)) (State.init 60000000000)
      [.block Block.stat, .ret 0 {}, .block Block.stat, .ret 0 {}, .block Block.stat,
        .block .handleIOEvent, .callback 1 (-5) none, .ret 0 {}] = true := by
    decide +kernel
  obtain ⟨t, ht, hfacts⟩ := (Option.any_eq_true _ _).mp hrun
  obtain ⟨hstack, htwo⟩ := of_decide_eq_true hfacts
  have hreaches := reaches_of_run (fun _ _ => of_decide_eq_true) ht hmeets
  exact ⟨t, ht, htwo, (waiting_requested hreaches hstack).1⟩

end NFSKit
