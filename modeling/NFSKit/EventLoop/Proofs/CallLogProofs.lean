import NFSKit.EventLoop.CallLog
import NFSKit.EventLoop.Proofs.BackpressureProofs
import NFSKit.EventLoop.Proofs.HeapBufferProofs
import NFSKit.EventLoop.Proofs.OrderProofs
import NFSKit.EventLoop.Proofs.ReadBufferProofs

/-!
# The loop is a log of calls

Every action of the loop is a few steps of the log, or none: so what a log of calls guarantees, the loop
guarantees.
-/

namespace NFSKit

open Machine

variable {s t : State} {k k' : Config} {a : Action} {cb : CallbackData} {r : Outcome}

/-! ## What a log of calls guarantees -/

namespace CallLog

variable {l m : CallLog}

theorem genuine_empty : Genuine {} where
  remote := fun _ h => nomatch h
  sent := fun _ h => nomatch h
  once := .nil
  fates := fun _ h => absurd rfl h
  answered := fun _ h => absurd rfl h
  one := fun _ => Nat.zero_le _
  success := fun _ _ h => nomatch h
  failure := fun _ _ h => nomatch h

theorem Genuine.step (hg : Genuine l) (h : Step l m) : Genuine m := by
  cases h with
  | call =>
    exact { hg with
      remote := fun i hi => Nat.lt_succ_of_lt (hg.remote i hi)
      answered := fun i hi => Nat.lt_succ_of_lt (hg.answered i hi) }
  | request =>
    have hnew : ∀ i, l.answers i ≠ [] → i ≠ l.calls := fun i hi => Nat.ne_of_lt (hg.answered i hi)
    refine { hg with
      remote := fun i hi => ?_
      sent := fun i hi => List.mem_cons_of_mem _ (hg.sent i hi)
      answered := fun i hi => Nat.lt_succ_of_lt (hg.answered i hi)
      success := fun i v hv hi => ?_ }
    · rcases List.mem_cons.mp hi with rfl | hi
      · exact Nat.lt_succ_self _
      · exact Nat.lt_succ_of_lt (hg.remote i hi)
    · rcases List.mem_cons.mp hi with rfl | hi
      · exact absurd rfl (hnew l.calls (List.ne_nil_of_mem hv))
      · exact hg.success i v hv hi
  | @send i hremote hsent hup hanswers =>
    refine { hg with
      sent := fun j hj => ?_
      once := List.nodup_cons.mpr ⟨hsent, hg.once⟩
      fates := fun j hj => List.mem_cons_of_mem _ (hg.fates j hj)
      failure := fun j e he hj => ?_ }
    · rcases List.mem_cons.mp hj with rfl | hj
      · exact hremote
      · exact hg.sent j hj
    · rcases List.mem_cons.mp hj with rfl | hj
      · exact .inr (.inl (Outcome.failure.inj (hanswers _ he)))
      · exact hg.failure j e he hj
  | @settle i f hsent hfate =>
    have hkeeps {j : Nat} (hj : l.fates j ≠ none) : Function.update l.fates i (some f) j = l.fates j := by
      refine Function.update_of_ne ?_ _ _
      rintro rfl
      exact hj hfate
    refine { hg with
      fates := fun j hj => ?_
      success := fun j v hv hj => ?_
      failure := fun j e he hj => ?_ }
    · by_cases hij : j = i
      · exact hij ▸ hsent
      · exact hg.fates j (Function.update_of_ne hij (some f) l.fates ▸ hj)
    · obtain ⟨status, hstatus, hnonneg⟩ := hg.success j v hv hj
      exact ⟨status, (hkeeps (by simp [hstatus])).trans hstatus, hnonneg⟩
    · rcases hg.failure j e he hj with hj' | he
      · left
        dsimp only
        rwa [hkeeps hj']
      · exact .inr he
  | @answer i r hcall hanswers hallows =>
    have hcases {j : Nat} {x : Outcome} (hx : x ∈ Function.update l.answers i [r] j) :
        x ∈ l.answers j ∨ j = i ∧ x = r := by
      by_cases hij : j = i
      · subst hij
        rw [Function.update_self] at hx
        exact .inr ⟨rfl, List.mem_singleton.mp hx⟩
      · rw [Function.update_of_ne hij] at hx
        exact .inl hx
    refine { hg with
      answered := fun j hj => ?_
      one := fun j => ?_
      success := fun j v hv hj => ?_
      failure := fun j e he hj => ?_ }
    · by_cases hij : j = i
      · exact hij ▸ hcall
      · exact hg.answered j (Function.update_of_ne hij [r] l.answers ▸ hj)
    · dsimp only
      by_cases hij : j = i
      · subst hij
        simp
      · rw [Function.update_of_ne hij]
        exact hg.one j
    · rcases hcases hv with hv | ⟨rfl, rfl⟩
      · exact hg.success j v hv hj
      · exact hallows hj
    · rcases hcases he with he | ⟨rfl, rfl⟩
      · exact hg.failure j e he hj
      · exact hallows hj
  | disconnect =>
    refine { hg with failure := fun i e he hi => ?_ }
    rcases hg.failure i e he hi with hi | he | ⟨he, -⟩
    · exact .inl hi
    · exact .inr (.inl he)
    · exact .inr (.inr ⟨he, rfl⟩)

/-- Whatever happens, a log of calls is genuine. -/
theorem Genuine.grows (h : Grows {} l) : Genuine l := by
  induction h with
  | refl => exact genuine_empty
  | tail _ hstep ih => exact ih.step hstep

end CallLog

/-! ## Requests -/

/-- A successful result comes of a status that is not negative. -/
theorem State.settle_isSuccess {status : Int} {data : Option Value}
    (h : (s.settle cb status data).1.isSuccess) : 0 ≤ status := by
  unfold State.settle at h
  by_cases hentry : cb.entry = .getexports
  · simp only [if_pos hentry] at h
    by_cases hs : status ≠ 0
    · rw [if_pos hs] at h
      cases h
    · omega
  · simp only [if_neg hentry] at h
    by_cases hs : status < 0
    · rw [if_pos hs] at h
      cases h
    · omega

theorem Frame.noteCallback_eq_hook {f : Frame} {i : Nat} (h : .completionHook cb r = f.noteCallback i) :
    f = .completionHook cb r := by
  cases f with
  | completionHook => exact h.symm
  | _ => cases h

theorem Frame.noteCallback_eq_rpcDestroy {f : Frame} {i n : Nat} {next : AfterCleanup}
    (h : .rpcDestroy n next = f.noteCallback i) : f = .rpcDestroy n next := by
  cases f with
  | rpcDestroy => exact h.symm
  | _ => cases h

namespace Accountable

/-- What libnfs holds has been handed over. -/
theorem held (ha : Accountable s) (h : s.Holds cb) : ∃ x ∈ s.handOvers, x.cb = cb := by
  obtain ⟨q, hq, rfl⟩ | ⟨f, hf, hcall⟩ := h
  · exact ha.outstanding q hq
  · cases f with
    | handOver site c ran =>
      obtain ⟨-, rfl⟩ := Frame.inCall_eq_some.mp hcall
      exact ha.calls site c ran hf
    | _ => cases hcall

/-- What has been handed over stays so. -/
theorem handed_mono (h : Act k a k') {x : HandOver} (hx : x ∈ k.state.handOvers) :
    x ∈ k'.state.handOvers := by
  rcases h.handed with heq | ⟨y, heq, -⟩
  · exact heq ▸ hx
  · rw [heq]
    exact List.mem_cons_of_mem _ hx

/-- An operation that has met its fate keeps it. -/
theorem fate_stable (hw : WellFormed k.state) (hd : Disposal k.state) (h : Act k a k') {i : Nat}
    (hi : k.state.fates i ≠ none) : k'.state.fates i = k.state.fates i := by
  rcases h.answers hw hd with ⟨heq, -⟩ | ⟨c, f, hans⟩
  · rw [heq]
  · rw [hans.fates, Function.update_of_ne]
    rintro rfl
    exact hi (hd.unanswered c hans.requested)

theorem queued_requests {op : PendingOperation} (hop : op ∈ s.pendingOperations) :
    0 < s.requests op.cbData := by
  have hpos : 0 < s.pendingOperations.countP (fun x => x.cbData = op.cbData) :=
    List.countP_pos_iff.mpr ⟨op, hop, by simp⟩
  unfold Core.requests
  omega

/-- The completion hook of a callback brings what the status says. -/
theorem enterHook_stack {s₁ s₂ : State} {f : Frame} {rest : List Frame} {status : Int}
    {data : Option Value} (htake : s.takeRequest f rest cb.continuationID = some (cb, s₁))
    (hnote : s₁.noteDelivery cb status data = some s₂) :
    ∃ r, (s₂.enterHook cb status data).stack = .completionHook cb r :: f.noteCallback cb.caller :: rest ∧
      (s₂.enterHook cb status data).fates = Function.update s.fates cb.caller (some (.called status)) ∧
      (r.isSuccess → 0 ≤ status) := by
  obtain ⟨out, fhs, dirs, b, r, -, heq⟩ := State.callback_eq htake hnote
  have hstack : (s₂.enterHook cb status data).stack =
      .completionHook cb r :: f.noteCallback cb.caller :: rest := by rw [heq]
  refine ⟨r, hstack, by rw [heq], fun hr => ?_⟩
  have hhead : (s₂.enterHook cb status data).stack.head? = some (.completionHook cb
      (((s₂.setFate cb.caller (.called status)).release cb).settle cb status data).1) := rfl
  rw [hstack] at hhead
  obtain ⟨-, rfl⟩ := Frame.completionHook.inj (Option.some.inj hhead)
  exact State.settle_isSuccess hr

/-- The operation that an action makes is none of those that there were. -/
theorem ne_made (hw : WellFormed k.state) (h : Act k a k') {c : CallbackData} (hc : c ∈ k.state.created)
    (hmade : a.made = some cb) : c ≠ cb := by
  rintro rfl
  have := hw.caller_lt c hc
  have := (h.made_fresh hmade).2
  omega

/-- What is handed over comes out of the queue. -/
theorem queued_act (hw : WellFormed k.state) (ha : Accountable k.state) (h : Act k a k')
    {op : PendingOperation} (hop : op ∈ k'.state.pendingOperations) {x : HandOver}
    (hx : x ∈ k'.state.handOvers) : x.cb ≠ op.cbData := by
  rcases h.effects.pending op hop with hold | ⟨type, cb, rfl, rfl⟩
  · rcases h.handed with heq | ⟨y, heq, -, hy⟩
    · exact ha.queued op hold x (heq ▸ hx)
    · rw [heq] at hx
      rcases List.mem_cons.mp hx with rfl | hx
      · obtain ⟨site, rfl⟩ | ⟨i, op', rfl, hop', hcb⟩ := hy
        · exact (ne_made hw h (hw.queued_created hold) rfl).symm
        · have hw' : WellFormed k'.state := hw.act h
          cases h with
          | execute =>
            intro hsame
            have htokens := hw'.tokens_le op.cbData
            have hcount : 0 < (State.executePending _ i op').pendingOperations.countP
                fun q => q.cbData = op.cbData := List.countP_pos_iff.mpr ⟨op, hop, by simp⟩
            rw [Core.tokens_cons rfl, ← hsame, hcb] at htokens
            rw [← hsame, hcb] at hcount
            simp only [Frame.holds, List.not_mem_nil, if_false, List.count_singleton_self] at htokens
            omega
      · exact ha.queued op hold x hx
  · rcases h.handed with heq | ⟨y, -, -, ⟨site, hstart⟩ | ⟨i, op', hexecute, -⟩⟩
    · exact ne_made hw h (ha.handed x (heq ▸ hx)) rfl
    · cases hstart
    · cases hexecute

/-- The caller of what is queued gives up only after the timeout. -/
theorem patient_act (hk : Sound k) (ha : Accountable k.state) (h : Act k a k') {op : PendingOperation}
    (hop : op ∈ k'.state.pendingOperations) (hr : r ∈ k'.state.outcomes op.cbData.caller) :
    r = .failure .ETIMEDOUT := by
  rcases h.effects.pending op hop with hold | ⟨type, cb, rfl, rfl⟩
  · cases h.untouched hk (queued_requests hop) with
    | same heq => exact ha.patient op hold r (heq ▸ hr)
    | expired =>
      cases h with
      | expire =>
        rw [State.expire_outcomes] at hr
        split at hr
        · rcases List.mem_append.mp hr with hr | hr
          · exact ha.patient op hold r hr
          · exact List.mem_singleton.mp hr
        · exact ha.patient op hold r hr
    | tornDown _ _ hpending =>
      rw [hpending] at hop
      cases hop
  · cases h with
    | @enqueue s _ _ _ _ hcaller =>
      have hnone := (hk.resumption.fresh cb.caller hcaller.ge).1
      have hr : r ∈ s.outcomes cb.caller := hr
      rw [hnone] at hr
      cases hr

theorem calls_act (ha : Accountable k.state) (h : Act k a k') {site : Site} {ran : List Nat}
    (hf : Frame.handOver site cb ran ∈ k'.state.stack) : ∃ x ∈ k'.state.handOvers, x.cb = cb := by
  have before {ran' : List Nat} (hf : Frame.handOver site cb ran' ∈ k.state.stack) :
      ∃ x ∈ k'.state.handOvers, x.cb = cb := by
    obtain ⟨x, hx, hcb⟩ := ha.calls site cb ran' hf
    exact ⟨x, handed_mono h hx, hcb⟩
  rcases h.effects.frames _ hf with hf | ⟨g, hg, _, _, _, -, heq⟩ | hpush
  · exact before hf
  · cases g with
    | handOver site' cb' ran' =>
      obtain ⟨rfl, rfl, -⟩ := Frame.handOver.inj heq
      exact before hg
    | _ => cases heq
  · cases h with
    | start =>
      obtain ⟨-, rfl, -⟩ := Frame.handOver.inj hpush
      exact ⟨_, List.mem_cons_self .., rfl⟩
    | execute =>
      obtain ⟨-, rfl, -⟩ := Frame.handOver.inj hpush
      exact ⟨_, List.mem_cons_self .., rfl⟩
    | enter hstack hservice =>
      have hpush : Frame.handOver site cb ran = _ := hpush
      obtain rfl | ⟨n, rfl⟩ := hservice <;> cases hpush
    | callback | callbackDead | enterDestroy | reject | rejectPending | rejectRaw | rejectHandle
    | rejectExports =>
      obtain ⟨_, h⟩ := hpush
      cases h
    | _ => cases hpush

theorem hooks_act (hw : WellFormed k.state) (hd : Disposal k.state) (ha : Accountable k.state)
    (h : Act k a k') (hf : Frame.completionHook cb r ∈ k'.state.stack) :
    ∃ status, k'.state.fates cb.caller = some (.called status) ∧ (r.isSuccess → 0 ≤ status) := by
  have before (hf : Frame.completionHook cb r ∈ k.state.stack) : ∃ status,
      k'.state.fates cb.caller = some (.called status) ∧ (r.isSuccess → 0 ≤ status) := by
    obtain ⟨status, hstatus, hnonneg⟩ := ha.hooks cb r hf
    exact ⟨status, (fate_stable hw hd h (by simp [hstatus])).trans hstatus, hnonneg⟩
  rcases h.effects.frames _ hf with hf' | ⟨g, hg, _, _, _, -, heq⟩ | hpush
  · exact before hf'
  · exact before (Frame.noteCallback_eq_hook heq ▸ hg)
  -- the hook has been entered by a callback
  have entered {s s' : State} {f : Frame} {rest : List Frame} {c : CallbackData} {result : Outcome}
      {status : Int} (hstack : s.stack = f :: rest) (hf : Frame.completionHook cb r ∈ s'.stack)
      (hstack' : s'.stack = .completionHook c result :: f.noteCallback c.caller :: rest)
      (hfates : s'.fates = Function.update s.fates c.caller (some (.called status)))
      (hresult : result.isSuccess → 0 ≤ status) (hold : Frame.completionHook cb r ∈ s.stack →
        ∃ status, s'.fates cb.caller = some (.called status) ∧ (r.isSuccess → 0 ≤ status)) :
      ∃ status, s'.fates cb.caller = some (.called status) ∧ (r.isSuccess → 0 ≤ status) := by
    rw [hstack'] at hf
    rcases List.mem_cons.mp hf with heq | hf
    · obtain ⟨rfl, rfl⟩ := Frame.completionHook.inj heq
      exact ⟨status, by rw [hfates, Function.update_self], hresult⟩
    · refine hold ?_
      rw [hstack]
      rcases List.mem_cons.mp hf with heq | hf
      · exact Frame.noteCallback_eq_hook heq ▸ List.mem_cons_self ..
      · exact List.mem_cons_of_mem _ hf
  cases h with
  | @callback s s₁ s₂ f rest c status data _ hstack htake hnote =>
    obtain ⟨result, hstack', hfates, hresult⟩ := enterHook_stack htake hnote
    refine entered (c := c) hstack hf ?_ ?_ hresult before
    · rw [State.recordCompletion_eq]
      exact hstack'
    · rw [State.recordCompletion_eq]
      exact hfates
  | callbackDead _ hstack htake hnote =>
    obtain ⟨result, hstack', hfates, hresult⟩ := enterHook_stack htake hnote
    exact entered hstack hf hstack' hfates hresult before
  | enter hstack hservice =>
    have hpush : Frame.completionHook cb r = _ := hpush
    obtain rfl | ⟨n, rfl⟩ := hservice <;> cases hpush
  | enterDestroy | reject | rejectPending | rejectRaw | rejectHandle | rejectExports =>
    obtain ⟨_, h⟩ := hpush
    cases h
  | _ => cases hpush

/-- The refused export query whose context is being destroyed. -/
theorem refused_act (hw : WellFormed k.state) (hd : Disposal k.state) (ha : Accountable k.state)
    (h : Act k a k') {n : Nat} (hf : Frame.rpcDestroy n (.getexports cb) ∈ k'.state.stack) :
    k'.state.fates cb.caller = some .rejected := by
  have before (hf : Frame.rpcDestroy n (.getexports cb) ∈ k.state.stack) :
      k'.state.fates cb.caller = some .rejected := by
    have hfate := ha.refused n cb hf
    exact (fate_stable hw hd h (by simp [hfate])).trans hfate
  rcases h.effects.frames _ hf with hf' | ⟨g, hg, _, _, _, -, heq⟩ | hpush
  · exact before hf'
  · exact before (Frame.noteCallback_eq_rpcDestroy heq ▸ hg)
  cases h with
  | rejectExports =>
    obtain ⟨_, heq⟩ := hpush
    obtain ⟨-, heq⟩ := Frame.rpcDestroy.inj heq
    obtain rfl := AfterCleanup.getexports.inj heq
    exact Function.update_self ..
  | @reject s c ran rest r hstack =>
    obtain ⟨_, heq⟩ := hpush
    obtain ⟨-, heq⟩ := Frame.rpcDestroy.inj heq
    obtain rfl := AfterCleanup.getexports.inj heq
    rw [State.resume_eq]
    exact Function.update_self ..
  | rejectPending =>
    obtain ⟨_, heq⟩ := hpush
    obtain ⟨-, heq⟩ := Frame.rpcDestroy.inj heq
    obtain rfl := AfterCleanup.getexports.inj heq
    rw [State.resume_eq]
    exact Function.update_self ..
  | rejectRaw | rejectHandle =>
    obtain ⟨_, heq⟩ := hpush
    obtain ⟨-, heq⟩ := Frame.rpcDestroy.inj heq
    obtain rfl := AfterCleanup.getexports.inj heq
    exact Function.update_self ..
  | enterRpcDestroy _ hnext =>
    obtain ⟨-, rfl⟩ := Frame.rpcDestroy.inj hpush
    cases hnext
  | enter hstack hservice =>
    have hpush : Frame.rpcDestroy n (.getexports cb) = _ := hpush
    obtain rfl | ⟨n, rfl⟩ := hservice <;> cases hpush
  | callback | callbackDead | enterDestroy =>
    obtain ⟨_, h⟩ := hpush
    cases h
  | _ => cases hpush

theorem act (hk : Sound k) (hd : Disposal k.state) (ha : Accountable k.state) (h : Act k a k') :
    Accountable k'.state where
  handed := handOvers_created_act hk.wellFormed ha.handed h
  queued _ hop _ hx := queued_act hk.wellFormed ha h hop hx
  patient _ hop _ hr := patient_act hk ha h hop hr
  calls _ _ _ hf := calls_act ha h hf
  outstanding := by
    intro q hq
    rcases h.effects.outstanding q hq with hq | ⟨site, cb, ran, rfl, rfl⟩
    · obtain ⟨x, hx, hcb⟩ := ha.outstanding q hq
      exact ⟨x, handed_mono h hx, hcb⟩
    · have hstack : ∃ rest, k.state.stack = .handOver site cb ran :: rest := by
        cases h with
        | accept hstack => exact ⟨_, hstack⟩
      obtain ⟨rest, hstack⟩ := hstack
      obtain ⟨x, hx, hcb⟩ := ha.calls site cb ran (hstack ▸ List.mem_cons_self ..)
      exact ⟨x, handed_mono h hx, hcb⟩
  hooks _ _ hf := hooks_act hk.wellFormed hd ha h hf
  refused _ _ hf := refused_act hk.wellFormed hd ha h hf

theorem init (timeout : Int) : Accountable (State.init timeout) where
  handed := fun _ h => nomatch h
  queued := fun _ h => nomatch h
  patient := fun _ h => nomatch h
  calls := fun _ _ _ h => nomatch h
  outstanding := fun _ h => nomatch h
  hooks := fun _ _ h => nomatch h
  refused := fun _ _ h => nomatch h

end Accountable

/-! ## Answers -/

open CallLog (Grows)

/-- What the log depends on is the same. -/
theorem callLog_congr {s t : Core} (hcalls : t.nextCaller = s.nextCaller) (hcreated : t.created = s.created)
    (hsent : t.handOvers = s.handOvers) (hfates : t.fates = s.fates) (hanswers : t.outcomes = s.outcomes)
    (hctx : t.context = s.context) : t.callLog = s.callLog := by
  unfold Core.callLog
  rw [hcalls, hcreated, hsent, hfates, hanswers, hctx]

theorem resumeContinuation_grows {i : Nat} (hi : i < s.nextCaller) (hnone : s.outcomes i = [])
    (hallows : s.callLog.Allows i r) : Grows s.callLog (s.resumeContinuation i r).callLog := by
  have hlog : (s.resumeContinuation i r).callLog =
      { s.callLog with answers := Function.update s.callLog.answers i [r] } := by
    have happend : s.outcomes i ++ [r] = [r] := by rw [hnone, List.nil_append]
    unfold State.resumeContinuation Core.callLog
    rw [happend]
  rw [hlog]
  exact .single (.answer s.callLog r hi hnone hallows)

/-- A caller is answered through its object, unless it has been answered before. -/
theorem resume_grows (hi : cb.caller < s.nextCaller)
    (hnone : s.hasResumed cb.caller = false → s.outcomes cb.caller = [])
    (hallows : s.callLog.Allows cb.caller r) : Grows s.callLog (s.resume cb r).callLog := by
  by_cases hres : s.hasResumed cb.caller
  · have hlog : (s.resume cb r).callLog = s.callLog := by
      rw [State.resume_eq]
      refine callLog_congr rfl rfl rfl rfl ?_ rfl
      rw [if_pos hres]
    rw [hlog]
  · have hlog : (s.resume cb r).callLog = (s.resumeContinuation cb.caller r).callLog := by
      rw [State.resume_eq]
      refine callLog_congr rfl rfl rfl rfl ?_ rfl
      rw [if_neg hres]
      rfl
    rw [hlog]
    exact resumeContinuation_grows hi (hnone (by simpa using hres)) hallows

/-- Once the connection is gone, everybody who still waits may be told so. -/
theorem foldl_resume_grows {l : List CallbackData} (hctx : s.context = none)
    (hl : ∀ cb ∈ l, cb.caller < s.nextCaller ∧ (s.hasResumed cb.caller = false → s.outcomes cb.caller = [])) :
    Grows s.callLog (l.foldl (fun s cb => s.resume cb (.failure .ENOTCONN)) s).callLog := by
  induction l generalizing s with
  | nil => exact .refl
  | cons cb l ih =>
    obtain ⟨hi, hnone⟩ := hl cb (List.mem_cons_self ..)
    have hallows : s.callLog.Allows cb.caller (.failure .ENOTCONN) :=
      fun _ => .inr (.inr ⟨rfl, by simp [Core.callLog, hctx]⟩)
    refine (resume_grows hi hnone hallows).trans (ih ?_ fun c hc => ?_)
    · rw [State.resume_eq]
      exact hctx
    · obtain ⟨hi', hnone'⟩ := hl c (List.mem_cons_of_mem _ hc)
      rw [State.resume_nextCaller, State.resume_hasResumed, State.resume_outcomes]
      refine ⟨hi', fun hres => ?_⟩
      obtain ⟨hres, hne⟩ := Bool.or_eq_false_iff.mp hres
      rw [if_neg fun h => of_decide_eq_false hne h.1]
      exact hnone' hres

theorem endTeardown_grows {kind : Teardown} {l : List CallbackData} (hctx : s.context = none)
    (hl : ∀ cb ∈ l, cb.caller < s.nextCaller ∧ (s.hasResumed cb.caller = false → s.outcomes cb.caller = [])) :
    Grows s.callLog (s.endTeardown kind l).callLog := by
  obtain ⟨bulk, metadata, counts, heq⟩ := State.endTeardown_eq s kind l
  have hlog : (s.endTeardown kind l).callLog =
      (l.foldl (fun s cb => s.resume cb (.failure .ENOTCONN)) s).callLog := by
    rw [heq]
    exact callLog_congr rfl rfl rfl rfl rfl rfl
  rw [hlog]
  exact foldl_resume_grows hctx hl

/-! ## One action -/

namespace Accountable

/-- A call is made that is about a request. -/
theorem request_grows (hcaller : cb.caller = s.nextCaller) :
    Grows s.callLog (s.newCaller.register cb).callLog := by
  have hlog : (s.newCaller.register cb).callLog =
      { s.callLog with calls := s.callLog.calls + 1, remote := s.callLog.calls :: s.callLog.remote } := by
    unfold State.newCaller State.register Core.callLog
    rw [List.map_cons, hcaller]
  rw [hlog]
  exact .single (.request s.callLog)

theorem send_grows (cb : CallbackData) (hcreated : cb ∈ s.created)
    (hnew : ∀ x ∈ s.handOvers, x.cb.caller ≠ cb.caller) (hctx : s.context.isSome)
    (hwaits : ∀ r ∈ s.outcomes cb.caller, r = .failure .ETIMEDOUT)
    (hsent : ∃ x : HandOver, t.handOvers = x :: s.handOvers ∧ x.cb = cb) (hcalls : t.nextCaller = s.nextCaller)
    (hcreated' : t.created = s.created) (hfates : t.fates = s.fates) (hanswers : t.outcomes = s.outcomes)
    (hctx' : t.context = s.context) : Grows s.callLog t.callLog := by
  obtain ⟨x, hsent, hx⟩ := hsent
  have hlog : t.callLog = { s.callLog with sent := cb.caller :: s.callLog.sent } := by
    unfold Core.callLog
    rw [hsent, hcalls, hcreated', hfates, hanswers, hctx', List.map_cons, hx]
  rw [hlog]
  refine .single (.send s.callLog (List.mem_map_of_mem hcreated) ?_ hctx hwaits)
  intro hmem
  obtain ⟨y, hy, heq⟩ := List.mem_map.mp hmem
  exact hnew y hy heq

/-- libnfs settles what it has been asked. -/
theorem settle_grows (hd : Disposal s) (ha : Accountable s) {f : Fate} (hholds : s.Holds cb)
    (hcalls : t.nextCaller = s.nextCaller) (hcreated : t.created = s.created) (hsent : t.handOvers = s.handOvers)
    (hfates : t.fates = Function.update s.fates cb.caller (some f)) (hanswers : t.outcomes = s.outcomes)
    (hctx : t.context = s.context) : Grows s.callLog t.callLog := by
  have hlog : t.callLog =
      { s.callLog with fates := Function.update s.callLog.fates cb.caller (some f) } := by
    unfold Core.callLog
    rw [hcalls, hcreated, hsent, hfates, hanswers, hctx]
  obtain ⟨x, hx, rfl⟩ := ha.held hholds
  rw [hlog]
  exact .single (.settle s.callLog f (List.mem_map_of_mem hx) (hd.unanswered x.cb (requests_pos_of_holds hholds)))

theorem holds_of_taken {f : Frame} {rest : List Frame} {out : List Request} (hstack : s.stack = f :: rest)
    (htaken : s.Taken f cb out) : s.Holds cb := by
  obtain ⟨hcall, -⟩ | ⟨q, hq, hcb, -⟩ := htaken
  · exact .inr ⟨f, hstack ▸ List.mem_cons_self .., hcall⟩
  · exact .inl ⟨q, hq, hcb⟩

/-- libnfs runs a callback. -/
theorem enterHook_grows (hd : Disposal s) (ha : Accountable s) {s₁ s₂ : State} {f : Frame} {rest : List Frame}
    {status : Int} {data : Option Value} (hstack : s.stack = f :: rest)
    (htake : s.takeRequest f rest cb.continuationID = some (cb, s₁))
    (hnote : s₁.noteDelivery cb status data = some s₂) :
    Grows s.callLog (s₂.enterHook cb status data).callLog := by
  obtain ⟨out, fhs, dirs, b, r, htaken, heq⟩ := State.callback_eq htake hnote
  rw [heq]
  exact settle_grows hd ha (holds_of_taken hstack htaken) rfl rfl rfl rfl rfl rfl

/-- A refusal settles the request, and from then on the caller may be told of a failure. -/
theorem refuse_grows (hd : Disposal s) (ha : Accountable s) {site : Site} {ran : List Nat} {rest : List Frame}
    (hstack : s.stack = .handOver site cb ran :: rest) (hran : cb.caller ∉ ran) (stack : List Frame) (id : Nat) :
    Grows s.callLog (s.refuse stack id cb).callLog ∧
      (r.isSuccess = false → (s.refuse stack id cb).callLog.Allows cb.caller r) := by
  have hholds : s.Holds cb :=
    .inr ⟨_, hstack ▸ List.mem_cons_self .., Frame.inCall_eq_some.mpr ⟨hran, rfl⟩⟩
  refine ⟨settle_grows hd ha hholds rfl rfl rfl rfl rfl rfl, fun hr => ?_⟩
  cases r with
  | success v => cases hr
  | failure e =>
    refine fun _ => .inl ?_
    show Function.update s.fates cb.caller (some .rejected) cb.caller ≠ none
    rw [Function.update_self]
    exact fun h => nomatch h

theorem log_act (hk : Sound k) (hd : Disposal k.state) (ha : Accountable k.state) (h : Act k a k') :
    Grows k.state.callLog k'.state.callLog := by
  have hw := hk.wellFormed
  have hr := hk.resumption
  cases h with
  | silent hcore =>
    rw [hcore]
  | @immediate s r =>
    have hnew : s.nextCaller ∉ s.callLog.remote := by
      intro hmem
      obtain ⟨c, hc, heq⟩ := List.mem_map.mp hmem
      exact absurd heq (Nat.ne_of_lt (hw.caller_lt c hc))
    have hunsent : s.nextCaller ∉ s.callLog.sent := by
      intro hmem
      obtain ⟨x, hx, heq⟩ := List.mem_map.mp hmem
      exact absurd heq (Nat.ne_of_lt (hw.caller_lt x.cb (ha.handed x hx)))
    refine .head (.call s.callLog) (resumeContinuation_grows (s := s.newCaller) ?_ ?_ ?_)
    · exact Nat.lt_succ_self _
    · exact (hr.fresh s.nextCaller (le_refl _)).1
    · cases r with
      | success v => exact fun h => absurd h hnew
      | failure e => exact fun h => absurd h hunsent
  | @start s site cb hstack hctx hsite hid hcaller hmade hissued =>
    have hfresh := (hr.fresh cb.caller hcaller.ge).1
    refine (request_grows hcaller).trans ?_
    refine send_grows cb (List.mem_cons_self ..) (fun x hx => ?_) hctx ?_ ⟨_, rfl, rfl⟩ rfl rfl rfl rfl rfl
    · have hlt : x.cb.caller < s.nextCaller := hw.caller_lt x.cb (ha.handed x hx)
      omega
    · intro r hr'
      rw [show (s.newCaller.register cb).outcomes cb.caller = _ from hfresh] at hr'
      cases hr'
  | @overflow s cb r hctx hid hcaller hmade hentry hfailed =>
    have hunsent : cb.caller ∉ s.callLog.sent := by
      intro hmem
      obtain ⟨x, hx, heq⟩ := List.mem_map.mp hmem
      have hlt : x.cb.caller < s.nextCaller := hw.caller_lt x.cb (ha.handed x hx)
      omega
    refine (request_grows hcaller).trans (resumeContinuation_grows
      (s := (s.newCaller.register cb).removeActive cb.continuationID) ?_ ?_ ?_)
    · exact hcaller ▸ Nat.lt_succ_self _
    · exact (hr.fresh cb.caller hcaller.ge).1
    · cases r with
      | success v => cases hfailed
      | failure e => exact fun h => absurd h hunsent
  | @enqueue s type cb hctx hid hcaller =>
    exact request_grows hcaller
  | @expire s cb hstack hmem =>
    have hlog : ((s.removeActive cb.continuationID).recordCompletion cb.operationCategory false).callLog =
        s.callLog := by
      rw [State.recordCompletion_eq]
      rfl
    dsimp only [State.expire]
    rw [← hlog]
    refine resume_grows ?_ ?_ fun _ => .inr (.inl rfl)
    · rw [State.recordCompletion_eq]
      exact hw.caller_lt cb (hw.active_created cb hmem)
    · rw [State.recordCompletion_eq]
      exact hr.unresumed cb (.inl hmem)
  | @callback s s₁ s₂ f rest cb status data halive hstack htake hnote =>
    rw [State.recordCompletion_eq]
    exact enterHook_grows hd ha hstack htake hnote
  | callbackDead halive hstack htake hnote => exact enterHook_grows hd ha hstack htake hnote
  | @execute s i op hctx hop hcap =>
    have hop := List.mem_of_getElem? hop
    refine send_grows op.cbData (hw.queued_created hop) (fun x hx hcaller => ?_) hctx
      (ha.patient op hop) ⟨_, rfl, rfl⟩ rfl rfl rfl rfl rfl
    exact ha.queued op hop x hx (hw.caller_inj x.cb (ha.handed x hx) op.cbData (hw.queued_created hop) hcaller)
  | @finishHook s =>
    unfold State.finishHook
    split
    · rename_i cb r rest hstack
      obtain ⟨-, hi, hnone⟩ := hr.held hw hstack (List.mem_singleton_self cb)
      obtain ⟨status, hstatus, hnonneg⟩ := ha.hooks cb r (hstack ▸ List.mem_cons_self ..)
      refine resume_grows (s := { s with stack := rest }) hi hnone ?_
      cases r with
      | success v => exact fun _ => ⟨status, hstatus, hnonneg rfl⟩
      | failure e =>
        refine fun _ => .inl ?_
        show s.fates cb.caller ≠ none
        rw [show s.fates cb.caller = _ from hstatus]
        exact fun h => nomatch h
    · exact .refl
  | @accept s site cb ran rest hstack =>
    rw [State.enqueueRequest_eq]
    split <;> exact .refl
  | @reject s cb ran rest r hstack hran hfailed =>
    obtain ⟨hsettled, hallows⟩ := refuse_grows (r := r) hd ha hstack hran rest cb.continuationID
    obtain ⟨-, hi, hnone⟩ := hr.held hw hstack (Frame.mem_holds_handOver _ hran)
    exact hsettled.trans (resume_grows hi hnone (hallows hfailed))
  | @rejectPending s i op cb ran rest r hstack hran hfailed =>
    obtain ⟨hsettled, hallows⟩ := refuse_grows (r := r) hd ha hstack hran rest op.id
    obtain ⟨-, hi, hnone⟩ := hr.held hw hstack (Frame.mem_holds_handOver _ hran)
    exact hsettled.trans (resume_grows (s := (s.refuse rest op.id cb).addInFlight op.category (-1)) hi hnone
      (hallows hfailed))
  | @rejectRaw s site cb ran rest r hstack hran hsite hfailed =>
    obtain ⟨hsettled, hallows⟩ := refuse_grows (r := r) hd ha hstack hran rest cb.continuationID
    have hpending : site.isPending = false := by
      obtain rfl | ⟨n, rfl⟩ := hsite <;> rfl
    obtain ⟨hi, hnone, -⟩ := hr.refused_unresumed hw hstack hran hpending
    exact hsettled.trans (resumeContinuation_grows hi hnone (hallows hfailed))
  | @rejectHandle s cb ran rest r hstack hran hfailed =>
    obtain ⟨hsettled, hallows⟩ := refuse_grows (r := r) hd ha hstack hran rest cb.continuationID
    obtain ⟨hi, hnone, -⟩ := hr.refused_unresumed hw hstack hran rfl
    exact hsettled.trans (resumeContinuation_grows
      (s := (s.refuse rest cb.continuationID cb).withBuffers (s.runCleanup cb).buffers) hi hnone
      (hallows hfailed))
  | @rejectExports s n k cb ran rest hstack hran hrest =>
    exact (refuse_grows (r := .failure POSIXErrorCode.EIO) hd ha hstack hran _ cb.continuationID).1
  | @exportsFailed s n cb rest r hstack hfailed =>
    have hmem : Frame.rpcDestroy n (.getexports cb) ∈ s.stack := hstack ▸ List.mem_cons_self ..
    obtain ⟨-, hi, hnone⟩ := hr.held hw hstack (List.mem_singleton_self cb)
    have hunresumed := hr.raw _ hmem cb (List.mem_singleton_self cb)
    refine resumeContinuation_grows (s := (s.leaveTo rest).dropRequests (.rpc n)) hi (hnone hunresumed) ?_
    cases r with
    | success v => cases hfailed
    | failure e =>
      refine fun _ => .inl ?_
      show s.fates cb.caller ≠ none
      rw [ha.refused n cb hmem]
      exact fun h => nomatch h
  | @enterDestroy s kind hctx hstack =>
    cases kind <;> exact .single (.disconnect s.callLog)
  | @leaveDestroy s kind conts rest hstack hrest =>
    have hmem : Frame.destroy kind conts ∈ s.stack := hstack ▸ List.mem_cons_self ..
    refine endTeardown_grows (s := (s.leaveTo rest).dropRequests .nfs) ?_ fun cb hcb => ?_
    · exact hk.ending.destroyed kind conts hmem
    · exact ⟨hw.caller_lt cb (hw.snapshot_created _ hmem cb hcb),
        hr.unresumed cb (.inr (.inr ⟨_, hmem, hcb⟩))⟩
  | @teardownNow s kind hctx hstack =>
    have hlog : (s.clearRegistries kind).callLog = s.callLog := by cases kind <;> rfl
    have hsame : (s.clearRegistries kind).context = s.context := by cases kind <;> rfl
    dsimp only
    rw [← hlog]
    refine endTeardown_grows (hsame.trans hctx) fun cb hcb => ?_
    rw [(hw.retired hctx).1] at hcb
    cases hcb
  | _ => exact .refl

/-! ## Runs -/

theorem of_reachable {timeout : Int} (h : Reachable step (State.init timeout) s) :
    (Disposal s ∧ Accountable s) ∧ Grows {} s.callLog := by
  refine (run_invariant_init h (fun k => (Disposal k.state ∧ Accountable k.state) ∧ Grows {} k.state.callLog)
    ⟨⟨disposal_of_reachable .refl, init timeout⟩, .refl⟩ fun u e k a k' _ hk hI _ hact => ?_).2
  obtain ⟨⟨hd, ha⟩, hlog⟩ := hI
  exact ⟨⟨hd.act hk.wellFormed hact, ha.act hk hd hact⟩, hlog.trans (log_act hk hd ha hact)⟩

end Accountable

/-- The loop refines a log of calls: whatever its callers, libnfs and the clock do, what they see of it is a
log in which every request is made once at most, after its call and while there is a connection, and every
call is answered once at most, with a success only after libnfs has reported one and with a failure only
after libnfs has reported it, in time, without a connection, or when the request has not been made. -/
theorem loop_refines_call_log {timeout : Int} (h : Reachable step (State.init timeout) t) :
    Grows {} t.callLog :=
  (Accountable.of_reachable h).2

/-- Two stats and a read on a handle that nobody has opened: the first stat times out and is called back
later, the second is refused. -/
theorem loop_refines_call_log_stat :
    ∃ t, run step (State.init 60000000000)
        [.block Block.stat, .ret 0 {}, .tick 60000000001, .block .scanForTimeouts, .block Block.stat,
          .ret (-5) {}, .block (.readFile 9), .block .handleIOEvent, .callback 1 0 (some (.pointer 7)),
          .ret 0 {}] = some t ∧
      CallLog.Grows {} t.callLog ∧ t.callLog.sent = [1, 0] ∧ t.callLog.remote = [1, 0] ∧
      t.callLog.fates 0 = some (.called 0) ∧ t.callLog.answers 0 = [.failure .ETIMEDOUT] ∧
      t.callLog.fates 1 = some .rejected ∧ t.callLog.answers 1 = [.failure POSIXErrorCode.EIO] ∧
      t.callLog.answers 2 = [.failure .EBADF] := by
  have hrun : ((run step (State.init 60000000000)
      [.block Block.stat, .ret 0 {}, .tick 60000000001, .block .scanForTimeouts, .block Block.stat,
        .ret (-5) {}, .block (.readFile 9), .block .handleIOEvent, .callback 1 0 (some (.pointer 7)),
        .ret 0 {}]).any fun t =>
      t.callLog.sent = [1, 0] ∧ t.callLog.remote = [1, 0] ∧
      t.callLog.fates 0 = some (.called 0) ∧ t.callLog.answers 0 = [.failure .ETIMEDOUT] ∧
      t.callLog.fates 1 = some .rejected ∧ t.callLog.answers 1 = [.failure POSIXErrorCode.EIO] ∧
      t.callLog.answers 2 = [.failure .EBADF]) = true := by
    decide +kernel
  obtain ⟨t, ht, hfacts⟩ := (Option.any_eq_true _ _).mp hrun
  exact ⟨t, ht, loop_refines_call_log (reachable_of_run ht), of_decide_eq_true hfacts⟩

/-! ## No operation is lost -/

/-- A queued operation leaves the queue to be handed over, or with the context. -/
theorem Act.dequeues (h : Act k a k') {op : PendingOperation} (hop : op ∈ k.state.pendingOperations) :
    op ∈ k'.state.pendingOperations ∨ (∃ i, a = .execute i op) ∨ k'.state.context = none := by
  have same {s : State} (heq : s.pendingOperations = k.state.pendingOperations) :
      op ∈ s.pendingOperations := heq ▸ hop
  cases h with
  | silent hcore => exact .inl (same (congrArg Core.pendingOperations hcore))
  | enqueue => exact .inl (List.mem_append_left _ hop)
  | @execute s i op' hctx hop' =>
    obtain ⟨j, hj⟩ := List.getElem?_of_mem hop
    by_cases hij : j = i
    · have hop' : s.pendingOperations[j]? = some op' := hij ▸ hop'
      have hj : s.pendingOperations[j]? = some op := hj
      rw [hop'] at hj
      exact .inr (.inl ⟨i, by rw [Option.some.inj hj]⟩)
    · exact .inl (List.mem_eraseIdx_iff_getElem?.mpr ⟨j, hij, hj⟩)
  | expire =>
    refine .inl (same ?_)
    dsimp only [State.expire]
    rw [State.resume_eq, State.recordCompletion_eq]
    rfl
  | callback halive hstack htake hnote =>
    obtain ⟨out, fhs, dirs, b, r, -, heq⟩ := State.callback_eq htake hnote
    refine .inl (same ?_)
    rw [State.recordCompletion_eq, heq]
    rfl
  | callbackDead halive hstack htake hnote =>
    obtain ⟨out, fhs, dirs, b, r, -, heq⟩ := State.callback_eq htake hnote
    refine .inl (same ?_)
    rw [heq]
  | @finishHook s =>
    obtain ⟨stack, resumed, outcomes, failed, heq⟩ := State.finishHook_eq s
    refine .inl (same ?_)
    rw [heq]
  | accept =>
    refine .inl (same ?_)
    rw [State.enqueueRequest_eq]
    split <;> rfl
  | reject | rejectPending =>
    refine .inl (same ?_)
    rw [State.resume_eq]
    rfl
  | enterDestroy => exact .inr (.inr rfl)
  | @leaveDestroy s kind conts rest =>
    obtain ⟨bulk, metadata, counts, heq⟩ :=
      State.endTeardown_eq ((s.leaveTo rest).dropRequests .nfs) kind conts
    refine .inl (same ?_)
    rw [heq, State.foldl_resume_eq]
    rfl
  | @teardownNow s kind hctx =>
    have hsame : (s.clearRegistries kind).context = s.context := by cases kind <;> rfl
    exact .inr (.inr ((State.endTeardown_context ..).trans (hsame.trans hctx)))
  | _ => exact .inl hop

/-- While there is a context, every operation that the loop has made is queued, has been handed over, or has
found the queue full. -/
def Conserved (s : State) : Prop :=
  s.context.isSome → ∀ cb ∈ s.created, (∃ op ∈ s.pendingOperations, op.cbData = cb) ∨
    (∃ x ∈ s.handOvers, x.cb = cb) ∨ s.outcomes cb.caller = [.failure .ENOBUFS]

namespace Conserved

theorem act (hk : Sound k) (hc : Conserved k.state) (hnot : ∀ c, a ≠ .overflow c) (h : Act k a k') :
    Conserved k'.state := by
  intro hctx cb hcb
  rw [h.effects.created, List.mem_append, Option.mem_toList] at hcb
  rcases hcb with hmade | hcb
  · -- the operation has just been made
    cases h with
    | start =>
      cases hmade
      exact .inr (.inl ⟨_, List.mem_cons_self .., rfl⟩)
    | overflow => exact absurd rfl (hnot _)
    | enqueue =>
      cases hmade
      exact .inl ⟨_, List.mem_append_right _ (List.mem_singleton_self _), rfl⟩
    | _ => cases hmade
  · rcases hc (h.context_isSome hctx) cb hcb with ⟨op, hop, rfl⟩ | ⟨x, hx, rfl⟩ | he
    · rcases h.dequeues hop with hop' | ⟨i, rfl⟩ | hnone
      · exact .inl ⟨op, hop', rfl⟩
      · cases h with
        | execute => exact .inr (.inl ⟨_, List.mem_cons_self .., rfl⟩)
      · rw [hnone] at hctx
        cases hctx
    · exact .inr (.inl ⟨x, Accountable.handed_mono h hx, rfl⟩)
    · exact .inr (.inr ((h.results_stable hk (by simp [he])).trans he))

theorem submit (hs : Sound s.config) (hc : Conserved s) (type : OperationType) (handler : DataHandler) :
    Conserved (s.submit type handler) := by
  have hold {c : CallbackData} (hctx : s.context.isSome) (hcreated : c ∈ s.created)
      {u : State} (hpending : ∀ op ∈ s.pendingOperations, op ∈ u.pendingOperations)
      (hsent : ∀ x ∈ s.handOvers, x ∈ u.handOvers)
      (hout : ∀ i < s.nextCaller, u.outcomes i = s.outcomes i) :
      (∃ op ∈ u.pendingOperations, op.cbData = c) ∨ (∃ x ∈ u.handOvers, x.cb = c) ∨
        u.outcomes c.caller = [.failure .ENOBUFS] := by
    rcases hc hctx c hcreated with ⟨op, hop, hcb⟩ | ⟨x, hx, hcb⟩ | he
    · exact .inl ⟨op, hpending op hop, hcb⟩
    · exact .inr (.inl ⟨x, hsent x hx, hcb⟩)
    · exact .inr (.inr ((hout c.caller (hs.wellFormed.caller_lt c hcreated)).trans he))
  unfold State.submit
  extract_lets caller s₁ cb s₂ s₃
  split
  · rename_i hnone
    intro hctx
    have hctx : s₁.context.isSome := hctx
    rw [hnone] at hctx
    cases hctx
  · rename_i x hsome
    have hctx : s.context.isSome := Option.isSome_iff_exists.mpr ⟨x, hsome⟩
    split
    · intro _ c hcreated
      rcases List.mem_cons.mp hcreated with rfl | hcreated
      · exact .inr (.inl ⟨_, List.mem_cons_self .., rfl⟩)
      · exact hold hctx hcreated (fun _ h => h) (fun _ h => List.mem_cons_of_mem _ h) fun _ _ => rfl
    · split
      · intro _ c hcreated
        rcases List.mem_cons.mp hcreated with rfl | hcreated
        · have hnone : s.outcomes s.nextCaller = [] := (hs.resumption.fresh s.nextCaller (le_refl _)).1
          have hself := Function.update_self s.nextCaller (s.outcomes s.nextCaller ++ [.failure .ENOBUFS])
            s.outcomes
          exact .inr (.inr (hself.trans (by rw [hnone, List.nil_append])))
        · refine hold hctx hcreated (fun _ h => h) (fun _ h => h) fun i hi => ?_
          exact Function.update_of_ne (Nat.ne_of_lt hi) _ _
      · intro _ c hcreated
        rcases List.mem_cons.mp hcreated with rfl | hcreated
        · exact .inl ⟨_, List.mem_append_right _ (List.mem_singleton_self _), rfl⟩
        · exact hold hctx hcreated (fun _ h => List.mem_append_left _ h) (fun _ h => h) fun _ _ => rfl

theorem step {e : Event} (hs : Sound s.config) (hc : Conserved s) (h : step s e = some t) : Conserved t := by
  cases hsubmits : e.submits with
  | some x =>
    obtain ⟨-, rfl⟩ := step_submits hsubmits h
    exact hc.submit hs x.1 x.2
  | none =>
    refine (step_invariant_sound h hs (fun k => Conserved k.state) hc fun k a k' hk hI ha hact => ?_).2
    refine hI.act hk ?_ hact
    rintro c rfl
    cases hact with
    | overflow _ _ _ _ hentry =>
      obtain ⟨type, hentry⟩ := hentry
      rw [ha type hentry] at hsubmits
      cases hsubmits

end Conserved

/-- No operation is lost and none is handed over twice: in every reachable state each operation has been
handed to libnfs once at most, and not while it is queued; and while there is a context, every operation
that the loop has made is queued, has been handed over, or was turned away because the queue was full. -/
theorem operations_conserved {timeout : Int} (h : Reachable step (State.init timeout) t) :
    (t.handOvers.map fun x => x.cb).Nodup ∧
      (∀ op ∈ t.pendingOperations, ∀ x ∈ t.handOvers, x.cb ≠ op.cbData) ∧
      (t.context.isSome → ∀ cb ∈ t.created, (∃ op ∈ t.pendingOperations, op.cbData = cb) ∨
        (∃ x ∈ t.handOvers, x.cb = cb) ∨ t.outcomes cb.caller = [.failure .ENOBUFS]) := by
  obtain ⟨⟨-, ha⟩, hlog⟩ := Accountable.of_reachable h
  refine ⟨?_, ha.queued, ?_⟩
  · have honce := (CallLog.Genuine.grows hlog).once
    refine List.Nodup.of_map CallbackData.caller ?_
    rw [List.map_map]
    exact honce
  · refine h.strengthen.invariant (I := Conserved) (fun _ _ h => nomatch h) fun u e v hc hu hstep => ?_
    exact hc.step (sound_of_reachable hu.2.1) hstep

/-- Of three stats two are handed over, and the third is queued; then it is handed over, too. -/
theorem operations_conserved_stat :
    ∃ t, run step (State.init 60000000000)
        [.block Block.stat, .ret 0 {}, .block Block.stat, .ret 0 {}, .block Block.stat,
          .block .handleIOEvent, .callback 1 0 (some (.pointer 7)), .ret 0 {}, .ret 0 {}] = some t ∧
      t.created.length = 3 ∧ (t.handOvers.map fun x => x.cb).Nodup := by
  have hrun : ((run step (State.init 60000000000)
      [.block Block.stat, .ret 0 {}, .block Block.stat, .ret 0 {}, .block Block.stat,
        .block .handleIOEvent, .callback 1 0 (some (.pointer 7)), .ret 0 {}, .ret 0 {}]).any fun t =>
      t.created.length = 3) = true := by
    decide +kernel
  obtain ⟨t, ht, hlength⟩ := (Option.any_eq_true _ _).mp hrun
  exact ⟨t, ht, of_decide_eq_true hlength, (operations_conserved (reachable_of_run ht)).1⟩

end NFSKit
