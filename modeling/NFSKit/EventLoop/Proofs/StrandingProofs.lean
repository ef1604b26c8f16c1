import NFSKit.EventLoop.Proofs.BacklogProofs
import NFSKit.EventLoop.Proofs.InFlightProofs

/-!
# No queued work is stranded

Queued operations wait for a slot, and a slot is taken by an operation that libnfs holds, whose
completion looks at the queue again. The count is taken after the call in `issueOperation` and in the
operations on open handles, so a completion inside such a call can be lost to the clamp.
-/

namespace NFSKit

open Machine

variable {s s' t u : State} {k k' : Config} {a : Action} {e : Event} {c : OperationCategory}

/-! ## Operations that are counted after their callbacks -/

namespace Action

/-- Whether the action runs the callback of an operation of category `c` inside the call that counts it
afterwards. -/
def answers (c : OperationCategory) : Action → Nat
  | .callback f cb _ _ => if c.is cb ∧ f.lateCall = some cb then 1 else 0
  | _ => 0

/-- Whether the action counts such an operation. -/
def settles (c : OperationCategory) : Action → Nat
  | .accept site cb ran => if c.is cb ∧ site.countsLate ∧ cb.caller ∈ ran then 1 else 0
  | _ => 0

end Action

theorem Core.answered_cons {s : Core} {f : Frame} {rest : List Frame} (hstack : s.stack = f :: rest)
    (c : OperationCategory) :
    s.answered c = f.answeredCall.toList.countP c.is +
      (rest.filterMap Frame.answeredCall).countP c.is := by
  unfold Core.answered
  rw [hstack]
  cases hf : f.answeredCall with
  | none =>
    rw [List.filterMap_cons_none hf]
    simp
  | some x =>
    rw [List.filterMap_cons_some hf, List.countP_cons, Option.toList_some, List.countP_singleton]
    omega

/-- A call begins, or one that counts nothing afterwards is over. -/
theorem Core.answered_of_cons {s s' : Core} {f : Frame} (hstack : s'.stack = f :: s.stack)
    (hf : f.answeredCall = none) (c : OperationCategory) : s'.answered c = s.answered c := by
  rw [Core.answered_cons hstack, hf]
  simp [Core.answered]

theorem Frame.answeredCall_fresh (site : Site) (cb : CallbackData) :
    (Frame.handOver site cb []).answeredCall = none := by
  simp [Frame.answeredCall]

theorem Frame.answeredCall_unanswered {site : Site} {cb : CallbackData} {ran : List Nat}
    (hran : cb.caller ∉ ran) : (Frame.handOver site cb ran).answeredCall = none := by
  simp [Frame.answeredCall, hran]

/-- A callback inside the call `f` answers the operation of the call, or somebody else's. -/
theorem answeredCall_noteCallback {f : Frame} {rest : List Frame} {cb : CallbackData}
    {out : List Request} (hw : WellFormed s) (hstack : s.stack = f :: rest)
    (htaken : s.Taken f cb out) (c : OperationCategory) :
    (f.noteCallback cb.caller).answeredCall.toList.countP c.is =
      f.answeredCall.toList.countP c.is + if c.is cb ∧ f.lateCall = some cb then 1 else 0 := by
  cases f with
  | handOver site x ran =>
    by_cases hran : x.caller ∈ ran
    · simp [Frame.noteCallback, Frame.answeredCall, Frame.lateCall, hran]
    · have hcall : (Frame.handOver site x ran).inCall = some x :=
        Frame.inCall_eq_some.mpr ⟨hran, rfl⟩
      by_cases heq : x = cb
      · subst heq
        cases hsite : site.countsLate <;> cases hc : c.is x <;>
          simp [Frame.noteCallback, Frame.answeredCall, Frame.lateCall, hran, hsite, hc]
      · have hne : x.caller ≠ cb.caller := by
          obtain ⟨hcb, -⟩ | ⟨r, hr, rfl, -, -⟩ := htaken
          · exact absurd (Option.some.inj (hcall.symm.trans hcb)) heq
          · exact caller_ne_of_accepted hw hstack hr hcall
        simp [Frame.noteCallback, Frame.answeredCall, Frame.lateCall, hran, hne, heq]
  | _ => simp [Frame.noteCallback, Frame.answeredCall, Frame.lateCall]

/-- What each action does to the operations that are counted after their callbacks. -/
theorem Act.answered (hk : Sound k) (h : Act k a k') (c : OperationCategory) :
    k'.state.answered c + a.settles c = k.state.answered c + a.answers c := by
  have hcalled {s₁ s₂ : State} {s : State} {f : Frame} {rest : List Frame} {cb : CallbackData}
      {status : Int} {data : Option Value} (hw : WellFormed s) (hstack : s.stack = f :: rest)
      (htake : s.takeRequest f rest cb.continuationID = some (cb, s₁))
      (hnote : s₁.noteDelivery cb status data = some s₂) {v : Core}
      (hv : v.stack = (s₂.enterHook cb status data).stack) :
      v.answered c = s.answered c + if c.is cb ∧ f.lateCall = some cb then 1 else 0 := by
    obtain ⟨out, fhs, dirs, b, r, htaken, heq⟩ := State.callback_eq htake hnote
    rw [heq] at hv
    have hrest := Core.answered_cons (s := { v with stack := f.noteCallback cb.caller :: rest }) rfl c
    rw [answeredCall_noteCallback hw hstack htaken c] at hrest
    rw [Core.answered_of_cons (s := { v with stack := f.noteCallback cb.caller :: rest }) hv rfl,
      hrest, Core.answered_cons hstack]
    omega
  cases h with
  | silent hcore => simp only [Action.settles, Action.answers, hcore]
  | start =>
    exact Core.answered_of_cons (f := .handOver _ _ []) rfl (Frame.answeredCall_fresh _ _) c
  | execute =>
    exact Core.answered_of_cons (f := .handOver _ _ []) rfl (Frame.answeredCall_fresh _ _) c
  | enterClose | enterRpcDestroy => exact Core.answered_of_cons rfl rfl c
  | enter _ hf => obtain rfl | ⟨n, rfl⟩ := hf <;> exact Core.answered_of_cons rfl rfl c
  | @leave s f rest m hstack hf =>
    refine (Core.answered_of_cons hstack ?_ c).symm
    cases f <;> first | rfl | cases hf
  | @expire s cb =>
    show (s.expire cb).answered c = s.answered c
    unfold Core.answered
    rw [(State.expire_fields s cb).1]
  | callback _ hstack htake hnote =>
    refine hcalled hk.wellFormed hstack htake hnote ?_
    rw [State.recordCompletion_eq]
    rfl
  | callbackDead _ hstack htake hnote => exact hcalled hk.wellFormed hstack htake hnote rfl
  | @finishHook s =>
    show s.finishHook.answered c = s.answered c
    unfold State.finishHook
    split
    · rename_i hstack
      rw [State.resume_eq]
      exact (Core.answered_of_cons hstack rfl c).symm
    · rfl
  | @accept s site cb ran rest hstack =>
    show Core.answered (State.toCore _) c + _ = s.answered c
    rw [Core.answered_cons hstack, State.enqueueRequest_eq]
    have hcall : (Frame.handOver site cb ran).answeredCall.toList.countP c.is =
        Action.settles c (.accept site cb ran) := by
      unfold Action.settles Frame.answeredCall
      by_cases hlate : site.countsLate ∧ cb.caller ∈ ran
      · cases hc : c.is cb <;> simp [hlate, hc]
      · simp [hlate]
    rw [hcall, Nat.add_comm]
    split <;> rfl
  | reject hstack hran | rejectPending hstack hran =>
    show Core.answered (State.toCore _) c = _
    rw [State.resume_eq]
    exact (Core.answered_of_cons hstack (Frame.answeredCall_unanswered hran) c).symm
  | rejectRaw hstack hran | rejectHandle hstack hran =>
    exact (Core.answered_of_cons hstack (Frame.answeredCall_unanswered hran) c).symm
  | @rejectExports s n m cb ran rest hstack hran =>
    refine (Core.answered_of_cons (s := { s.toCore with stack := rest }) rfl rfl c).trans ?_
    exact (Core.answered_of_cons hstack (Frame.answeredCall_unanswered hran) c).symm
  | leaveRpcDestroy hstack | exportsFailed hstack => exact (Core.answered_of_cons hstack rfl c).symm
  | @enterDestroy s kind =>
    refine Core.answered_of_cons (s := s.toCore) (f := .destroy kind s.activeContinuations) ?_ rfl c
    cases kind <;> rfl
  | @leaveDestroy s kind conts rest hstack =>
    obtain ⟨bulk, metadata, counts, heq⟩ :=
      State.endTeardown_eq ((s.leaveTo rest).dropRequests .nfs) kind conts
    rw [heq, State.foldl_resume_eq]
    exact (Core.answered_of_cons hstack rfl c).symm
  | @teardownNow s kind =>
    obtain ⟨bulk, metadata, counts, heq⟩ :=
      State.endTeardown_eq (s.clearRegistries kind) kind s.activeContinuations
    rw [heq, State.foldl_resume_eq]
    cases kind <;> rfl
  | _ => rfl

/-! ## Which operations are counted -/

/-- The loop counts the operations of the sites that count, and every other one libnfs holds on its own
context is a `mount`. -/
structure SitesCount (s : State) : Prop where
  submitted : Submitted s
  frames : ∀ site cb ran, Frame.handOver site cb ran ∈ s.stack →
    cb.isCounted = (site.isPending || site.countsLate)
  requests : ∀ r ∈ s.outstanding, r.ctx ≠ .nfs → r.cb.isCounted = false

theorem sitesCount_init (timeout : Int) : SitesCount (State.init timeout) where
  submitted := submitted_init timeout
  frames := fun _ _ _ h => by cases h
  requests := fun _ h => by cases h

theorem Issued.isCounted {site : Site} {cb : CallbackData} (h : Issued s site cb)
    (hsite : site.isPending = false) : cb.isCounted = site.countsLate := by
  have hmount := h.mount
  have hexports := h.exports
  cases site <;> simp_all [CallbackData.isCounted, Site.countsLate, Site.isPending]

theorem SitesCount.act (hc : SitesCount k.state) (h : Act k a k') : SitesCount k'.state where
  submitted := hc.submitted.act h
  frames := by
    intro site cb ran hf
    rcases h.handOver_mem hf with ⟨ran', hf'⟩ | rfl | ⟨i, op, rfl, hop, rfl⟩
    · exact hc.frames site cb ran' hf'
    · cases h with
      | start _ _ hsite _ _ _ hissued => rw [hissued.isCounted hsite, hsite, Bool.false_or]
    · simp [CallbackData.isCounted, (hc.submitted op hop).1, Site.isPending]
  requests := by
    intro r hr hctx
    rcases h.effects.outstanding r hr with hr | ⟨site, cb, ran, rfl, rfl⟩
    · exact hc.requests r hr hctx
    · obtain ⟨hframe, -⟩ := h.accepts .bulk fun _ => true
      rw [hc.frames site cb ran hframe]
      cases hsite : site.isPending <;> cases hlate : site.countsLate
      · rfl
      all_goals exact absurd (Site.ctx_eq_nfs (by simp [hsite, hlate])) hctx

/-! ## The count is backed -/

/-- Every slot that is taken, or will be taken for an answered operation, is taken by an operation that
libnfs holds. -/
def Backed (k : Config) : Prop :=
  k.state.alive → k.state.context.isSome → ∀ c,
    k.state.inFlightCount c + k.state.answered c ≤ k.state.booked c.counts

theorem backed_init (timeout : Int) : Backed (State.init timeout).config := by
  intro _ _ c
  show (0 : Int) + 0 ≤ 0
  omega

/-- The callback of an action is the one that the event runs. -/
theorem calledBack_of_callback {f : Frame} {cb : CallbackData} {status : Int} {data : Option Value}
    (ha : Allowed u e k (.callback f cb status data)) (h : Act k (.callback f cb status data) k') :
    cb ∈ calledBack u e ∧ f ∈ u.stack := by
  obtain ⟨rfl, rfl⟩ := ha
  have htaken {s s₁ s₂ : State} {rest : List Frame} (hstack : s.stack = f :: rest)
      (htake : s.takeRequest f rest cb.continuationID = some (cb, s₁))
      (hnote : s₁.noteDelivery cb status data = some s₂) :
      cb ∈ calledBack s (.callback cb.continuationID status data) ∧ f ∈ s.stack := by
    obtain ⟨out, fhs, dirs, b, r, htaken, -⟩ := State.callback_eq htake hnote
    refine ⟨?_, hstack ▸ List.mem_cons_self ..⟩
    obtain ⟨hcb, -⟩ | ⟨q, hq, rfl, -, -⟩ := htaken
    · simp [calledBack, hstack, hcb]
    · have hmem : q.cb ∈ s.outstanding.map Request.cb := List.mem_map_of_mem hq
      simp only [calledBack, List.mem_filter, List.mem_append, decide_true, and_true]
      exact .inr hmem
  cases h with
  | callback _ hstack htake hnote => exact htaken hstack htake hnote
  | callbackDead _ hstack htake hnote => exact htaken hstack htake hnote

theorem Frame.directCall_of_lateCall {f : Frame} {cb : CallbackData} (h : f.lateCall = some cb) :
    f.directCall = some cb := by
  cases f with
  | handOver site x ran =>
    simp only [Frame.lateCall] at h
    split at h
    · rename_i hlate
      obtain rfl := Option.some.inj h
      cases site <;> simp_all [Frame.directCall, Site.countsLate, Site.isPending]
    · cases h
  | _ => cases h

namespace Backed

/-- A completion that is not lost keeps the count backed. -/
theorem callback {f : Frame} {cb : CallbackData} {status : Int} {data : Option Value}
    (hb : k.state.inFlightCount c + k.state.answered c ≤ k.state.booked c.counts) (hk : Sound k)
    (hP : KeepsCompletions u e) (halive : k.state.alive)
    (ha : Allowed u e k (.callback f cb status data)) (h : Act k (.callback f cb status data) k') :
    k'.state.inFlightCount c + k'.state.answered c ≤ k'.state.booked c.counts := by
  obtain ⟨hcalled, hf⟩ := calledBack_of_callback ha h
  obtain ⟨hin, -, hcount⟩ := h.completes hk halive c c.counts
  have hanswered := h.answered hk c
  have hsame : k.state = u := ha.1
  simp only [Action.settles, Action.answers, Nat.add_zero] at hanswered
  by_cases hc : cb.operationCategory = c
  swap
  · have his : c.is cb = false := by simpa [OperationCategory.is] using hc
    simp only [hc, if_false] at hin
    simp only [OperationCategory.counts, his, Bool.false_and, Bool.false_eq_true, false_and,
      if_false, Nat.add_zero] at hcount hanswered
    omega
  have his : c.is cb = true := by simpa [OperationCategory.is] using hc
  simp only [hc, if_true] at hin
  by_cases hown : f.lateCall = some cb
  · have hpos := hP cb hcalled ⟨f, hf, .inl hown⟩
    rw [hc, ← hsame] at hpos
    have hdirect : ¬ (c.counts cb = true ∧ f.directCall ≠ some cb) := fun hno =>
      hno.2 (Frame.directCall_of_lateCall hown)
    rw [if_neg hdirect] at hcount
    simp only [his, hown, and_self, if_true] at hanswered
    omega
  · simp only [hown, and_false, if_false, Nat.add_zero] at hanswered
    have hless : k.state.booked c.counts ≤ k'.state.booked c.counts + 1 := by
      split at hcount <;> omega
    by_cases hzero : k.state.answered c = 0
    · omega
    · obtain ⟨x, hx, hxc⟩ := List.countP_pos_iff.mp (Nat.pos_of_ne_zero hzero)
      obtain ⟨g, hg, hgx⟩ := List.mem_filterMap.mp hx
      have hxc : x.operationCategory = c := by simpa [OperationCategory.is] using hxc
      have hpos := hP cb hcalled ⟨g, hsame ▸ hg, .inr ⟨x, hgx, hxc.trans hc.symm⟩⟩
      rw [hc, ← hsame] at hpos
      omega

/-- An accepted operation backs the slot it takes. -/
theorem accept {site : Site} {cb : CallbackData} {ran : List Nat}
    (hb : k.state.inFlightCount c + k.state.answered c ≤ k.state.booked c.counts) (hk : Sound k)
    (hc : SitesCount k.state) (h : Act k (.accept site cb ran) k') :
    k'.state.inFlightCount c + k'.state.answered c ≤ k'.state.booked c.counts := by
  obtain ⟨hframe, hin, -, hcount⟩ := h.accepts c c.counts
  have hanswered := h.answered hk c
  have hcounted := hc.frames site cb ran hframe
  simp only [Action.settles, Action.answers, Nat.add_zero] at hanswered
  by_cases htakes : site.countsLate ∧ cb.operationCategory = c
  · have his : c.is cb = true := by simpa [OperationCategory.is] using htakes.2
    have hpending : site.isPending = false := by
      cases hp : site.isPending with
      | false => rfl
      | true =>
        rw [Site.countsLate_of_isPending hp] at htakes
        cases htakes.1
    have hcb : c.counts cb = true := by simp [OperationCategory.counts, his, hcounted, htakes.1]
    rw [if_pos htakes] at hin
    by_cases hran : cb.caller ∈ ran
    · simp only [his, htakes.1, hran, and_self, if_true] at hanswered
      simp only [hran, not_true_eq_false, and_false, if_false, Nat.add_zero] at hcount
      omega
    · simp only [hran, and_false, if_false, Nat.add_zero] at hanswered
      simp only [hcb, hpending, hran, not_false_eq_true, and_self, if_true] at hcount
      omega
  · rw [if_neg htakes] at hin
    have hle : k.state.booked c.counts ≤ k'.state.booked c.counts := by omega
    omega

/-- One action keeps the count backed. -/
theorem act (hb : Backed k) (hk : Sound k) (hc : SitesCount k.state) (hP : KeepsCompletions u e)
    (ha : Allowed u e k a) (h : Act k a k') : Backed k' := by
  intro halive hctx c
  obtain ⟨halive', hctx'⟩ := h.up_before halive hctx
  have hb := hb halive' hctx' c
  by_cases hcall : ∃ f cb status data, a = .callback f cb status data
  · obtain ⟨f, cb, status, data, rfl⟩ := hcall
    exact callback hb hk hP halive' ha h
  by_cases haccept : ∃ site cb ran, a = .accept site cb ran
  · obtain ⟨site, cb, ran, rfl⟩ := haccept
    exact accept hb hk hc h
  have hanswered := h.answered hk c
  have hnone : a.answers c = 0 ∧ a.settles c = 0 := by
    cases a with
    | callback => exact absurd ⟨_, _, _, _, rfl⟩ hcall
    | accept => exact absurd ⟨_, _, _, rfl⟩ haccept
    | _ => exact ⟨rfl, rfl⟩
  rw [hnone.1, hnone.2] at hanswered
  cases h.books hk c c.counts with
  | same hin _ hcount => omega
  | @executed i op hop hin _ hcount =>
    have hcb : c.counts op.cbData = decide (op.category = c) := by
      simp [OperationCategory.counts, OperationCategory.is, CallbackData.isCounted,
        (hc.submitted op hop).1, (hk.wellFormed.pending_op op hop).category_eq]
    simp only [hcb, decide_eq_true_eq] at hcount
    split at hin <;> simp_all
    omega
  | completed => exact absurd ⟨_, _, _, _, rfl⟩ hcall
  | expired hin _ hcount =>
    have hzero : k.state.answered c = 0 := by
      cases h with
      | expire hstack => simp [Core.answered, hstack]
    split at hin <;> omega
  | accepted => exact absurd ⟨_, _, _, rfl⟩ haccept
  | @refused i op ran hop hin _ hcount =>
    have hcb : c.counts op.cbData = true → op.category = c := by
      intro h
      rw [hop.category_eq]
      simp only [OperationCategory.counts, OperationCategory.is, Bool.and_eq_true,
        decide_eq_true_eq] at h
      exact h.1
    by_cases hcat : op.category = c
    · rw [if_pos hcat] at hin
      split at hcount <;> omega
    · rw [if_neg hcat] at hin
      rw [if_neg fun h => hcat (hcb h)] at hcount
      omega
  | @dropped n next hin _ hcount =>
    have hzero : k.state.outstanding.countP (fun r => r.ctx = .rpc n ∧ c.counts r.cb) = 0 := by
      rw [List.countP_eq_zero]
      intro r hr hcb
      have hcb : r.ctx = .rpc n ∧ c.counts r.cb = true := of_decide_eq_true hcb
      have hcounted := hc.requests r hr (by simp [hcb.1])
      simp [OperationCategory.counts, hcounted] at hcb
    omega
  | down hdown =>
    rcases hdown with hdown | hdown
    · rw [hdown] at hctx
      cases hctx
    · rw [hdown] at halive
      cases halive

end Backed

theorem backed_of_reaches {P : State → Event → Prop} {timeout : Int}
    (h : Reaches step P (State.init timeout) t) (hP : ∀ u e, P u e → KeepsCompletions u e) :
    Backed t.config :=
  (run_invariant_init h (fun k => SitesCount k.state ∧ Backed k)
    ⟨sitesCount_init timeout, backed_init timeout⟩
    fun u e _ _ _ hp hk hI ha hact => ⟨hI.1.act hact, hI.2.act hk hI.1 (hP u e hp) ha hact⟩).2.2

/-- An operation that is queued between queue blocks finds its category at capacity. -/
theorem queued_atCapacity {timeout : Int} (h : Reaches step KeepsDraining (State.init timeout) t)
    (hstack : t.stack = []) (hctx : t.context.isSome) {op : PendingOperation}
    (hop : op ∈ t.pendingOperations) :
    (t.controller op.category).effectiveDepth ≤ t.inFlightCount op.category := by
  have halive : t.alive := alive_of_context (sound_of_reachable h.reachable).ending hstack hctx
  have hqueue : QueueFull true t.config := queueFull_of_reaches h fun _ _ hp => hp.1
  have hfull : t.hasCapacity op.category = false := by
    refine hqueue halive hctx op ?_ rfl
    rw [Config.passed_of_index (by simp [Config.index, State.config, hstack])]
    exact hop
  unfold Core.hasCapacity at hfull
  simpa using hfull

/-- While an operation is queued between queue blocks, libnfs holds one of its category. -/
theorem queued_outstanding {timeout : Int} (h : Reaches step KeepsDraining (State.init timeout) t)
    (hstack : t.stack = []) (hctx : t.context.isSome) {op : PendingOperation}
    (hop : op ∈ t.pendingOperations) :
    ∃ r ∈ t.outstanding, r.cb.operationCategory = op.category := by
  have hr := h.reachable
  have halive : t.alive := alive_of_context (sound_of_reachable hr).ending hstack hctx
  have hdepth := queued_atCapacity h hstack hctx hop
  have hone := (bounded_of_reachable hr op.category).one_le
  have hbacked := backed_of_reaches h (fun _ _ hp => hp.2) halive hctx op.category
  have hbooked : t.booked op.category.counts =
      t.outstanding.countP fun r => op.category.counts r.cb := booked_of_stack_nil hstack _
  have hpos : 0 < t.outstanding.countP fun r => op.category.counts r.cb := by
    rw [← hbooked]
    have hle : t.inFlightCount op.category + t.answered op.category ≤
        t.booked op.category.counts := hbacked
    omega
  obtain ⟨r, hr, hcounts⟩ := List.countP_pos_iff.mp hpos
  simp only [OperationCategory.counts, OperationCategory.is, Bool.and_eq_true,
    decide_eq_true_eq] at hcounts
  exact ⟨r, hr, hcounts.1⟩

/-- In a run whose steps all keep the queue draining, an operation that is queued between queue blocks
finds its category at capacity, and libnfs holds an operation of the category, whose completion will look
at the queue. -/
theorem queue_not_stranded {timeout : Int} (h : Reaches step KeepsDraining (State.init timeout) t)
    (hstack : t.stack = []) (hctx : t.context.isSome) {op : PendingOperation}
    (hop : op ∈ t.pendingOperations) :
    (t.controller op.category).effectiveDepth ≤ t.inFlightCount op.category ∧
      ∃ r ∈ t.outstanding, r.cb.operationCategory = op.category :=
  ⟨queued_atCapacity h hstack hctx hop, queued_outstanding h hstack hctx hop⟩

/-- Two stats, and a third one that waits for them. -/
theorem queue_not_stranded_stat :
    ∃ t, run step (State.init 60000000000)
      [.block Block.stat, .ret 0 {}, .block Block.stat, .ret 0 {}, .block Block.stat] = some t ∧
      ∃ op ∈ t.pendingOperations,
        (t.controller op.category).effectiveDepth ≤ t.inFlightCount op.category ∧
        ∃ r ∈ t.outstanding, r.cb.operationCategory = op.category := by
  have hrun : ((run step (State.init 60000000000)
      [.block Block.stat, .ret 0 {}, .block Block.stat, .ret 0 {}, .block Block.stat]).any fun t =>
      t.stack = [] ∧ t.context.isSome ∧ t.pendingOperations ≠ []) = true := by
    decide +kernel
  have hkeeps : meets step (fun s e => decide (KeepsDraining s e)) (State.init 60000000000)
      [.block Block.stat, .ret 0 {}, .block Block.stat, .ret 0 {}, .block Block.stat] = true := by
    decide +kernel
  obtain ⟨t, ht, hfacts⟩ := (Option.any_eq_true _ _).mp hrun
  obtain ⟨hstack, hctx, hqueue⟩ := of_decide_eq_true hfacts
  obtain ⟨op, hop⟩ := List.exists_mem_of_ne_nil _ hqueue
  exact ⟨t, ht, op, hop, queue_not_stranded
    (reaches_of_run (fun _ _ => of_decide_eq_true) ht hkeeps) hstack hctx hop⟩

/-- A stat is stranded by the timeout of the stats it waits for; by failed lseeks whose callbacks have run
inside their calls; and by an unlink that is refused while, inside its call, the reply to a read
has moved the queue. -/
theorem queue_stranded :
    (∃ t, run step (State.init 60000000000) (mountEvents ++
      [.block Block.stat, .ret 0 .connected, .block Block.stat, .ret 0 .connected,
        .block Block.stat, .ret 0 .connected, .block Block.stat, .ret 0 .connected, .tick 30000000000,
        .block Block.stat, .tick 30000000001, .block .scanForTimeouts]) = some t ∧
      t.stack = [] ∧ t.context.isSome ∧ ∃ op ∈ t.pendingOperations,
        t.inFlightCount op.category < (t.controller op.category).effectiveDepth) ∧
    (∃ t, run step (State.init 60000000000) (openEvents 7 ++
      [.block (.lseek 1), .callback 3 (-5) none, .ret 0 .connected, .block (.lseek 1),
        .callback 4 (-5) none, .ret 0 .connected, .block (.lseek 1), .callback 5 (-5) none,
        .ret 0 .connected, .block Block.stat]) = some t ∧
      t.stack = [] ∧ t.context.isSome ∧ t.pendingOperations ≠ [] ∧ t.outstanding = []) ∧
    ∃ t, run step (State.init 60000000000) (openEvents 7 ++
      [.block (.submit .read .void), .ret 0 .connected, .block (.submit .read .void), .ret 0 .connected,
        .block (.submit .read .void), .block Block.stat, .ret 0 .connected, .block Block.stat,
        .ret 0 .connected, .block Block.stat, .ret 0 .connected, .block Block.stat, .ret 0 .connected,
        .block Block.stat, .ret 0 .connected, .block Block.stat, .ret 0 .connected, .block Block.stat,
        .ret 0 .connected, .block Block.stat, .ret 0 .connected, .block Block.unlink, .block Block.stat,
        .block (.closeFileFireAndForget 1), .callback 6 (-5) none, .callback 7 (-5) none,
        .callback 8 (-5) none, .callback 9 (-5) none, .callback 10 (-5) none, .callback 11 (-5) none,
        .callback 12 (-5) none, .callback 13 (-5) none, .callback 3 0 none, .ret 0 .connected,
        .ret (-5) .connected, .ret 0 .connected]) = some t ∧
      t.stack = [] ∧ t.context.isSome ∧ ∃ op ∈ t.pendingOperations,
        t.inFlightCount op.category < (t.controller op.category).effectiveDepth := by
  have seen {es : List Event} {p : State → Prop} [DecidablePred p]
      (h : (run step (State.init 60000000000) es).any (fun t => p t) = true) :
      ∃ t, run step (State.init 60000000000) es = some t ∧ p t := by
    obtain ⟨t, ht, hp⟩ := (Option.any_eq_true _ _).mp h
    exact ⟨t, ht, of_decide_eq_true hp⟩
  exact ⟨seen (by decide +kernel), seen (by decide +kernel), seen (by decide +kernel)⟩

end NFSKit
