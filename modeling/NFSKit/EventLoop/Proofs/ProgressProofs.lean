import NFSKit.EventLoop.Effort
import NFSKit.EventLoop.Proofs.RequestProofs
import NFSKit.Foundations.Ranking

/-!
# Every queue block ends

The call in which libnfs is can return, and every move of libnfs costs effort. So a queue block makes
finitely many calls, whatever libnfs does inside them.
-/

namespace NFSKit

open Machine

variable {s t : State} {k k' : Config} {a : Action} {f : Frame} {rest : List Frame} {cb : CallbackData}

/-! ## The innermost frame is a libnfs call -/

theorem Frame.isHook_noteCallback (f : Frame) (i : Nat) : (f.noteCallback i).isHook = f.isHook := by
  cases f <;> rfl

namespace HooksInside

/-- The stack stays as it is. -/
theorem same (hh : HooksInside k) (hstack : k'.state.stack = k.state.stack)
    (hmode : k'.mode = .idle ∨ (∃ kind, k'.mode = .tearingDown kind) →
      k.mode = .idle ∨ ∃ kind, k.mode = .tearingDown kind) : HooksInside k' where
  apart := by
    rw [hstack]
    exact hh.apart
  call := by
    intro hidle
    rw [hstack]
    exact hh.call (hmode hidle)

/-- A libnfs call begins. -/
theorem push (hh : HooksInside k) (hstack : k'.state.stack = f :: k.state.stack) (hf : f.isHook = false) :
    HooksInside k' where
  apart := by
    rw [hstack, List.isChain_cons]
    refine ⟨fun g _ h => ?_, hh.apart⟩
    rw [hf] at h
    exact Bool.false_ne_true h.1
  call := by
    intro _
    rw [hstack]
    simpa using hf

/-- The innermost call is over. -/
theorem pop (hh : HooksInside k) (hbefore : k.state.stack = f :: rest) (hstack : k'.state.stack = rest)
    (hmode : k'.mode = .idle ∨ (∃ kind, k'.mode = .tearingDown kind) → rest = []) : HooksInside k' where
  apart := by
    have hchain := hh.apart
    rw [hbefore, List.isChain_cons] at hchain
    rw [hstack]
    exact hchain.2
  call := by
    intro hidle
    rw [hstack, hmode hidle]
    exact fun _ h => nomatch h

/-- The stack holds one call. -/
theorem single (hstack : k'.state.stack = [f]) (hf : f.isHook = false) : HooksInside k' where
  apart := by
    rw [hstack]
    exact .singleton f
  call := by
    intro _
    rw [hstack]
    simpa using hf

/-- libnfs runs a callback inside the innermost call. -/
theorem hook (hh : HooksInside k) (hidle : k.mode = .idle) (hbefore : k.state.stack = f :: rest) {i : Nat}
    {r : Outcome} (hstack : k'.state.stack = .completionHook cb r :: f.noteCallback i :: rest)
    (hmode : k'.mode = .draining 0 ∨ k'.mode = .finishing) : HooksInside k' where
  apart := by
    have hchain := hh.apart
    have hcall := hh.call (.inl hidle)
    rw [hbefore] at hchain hcall
    rw [List.isChain_cons] at hchain
    have hf : f.isHook = false := by simpa using hcall
    rw [hstack, List.isChain_cons, List.isChain_cons, Frame.isHook_noteCallback, hf]
    refine ⟨fun g hg h => ?_, fun g hg h => Bool.false_ne_true h.1, hchain.2⟩
    obtain rfl := Option.some.inj hg
    rw [Frame.isHook_noteCallback, hf] at h
    exact Bool.false_ne_true h.2
  call := by
    intro h
    rcases hmode with hm | hm <;> simp [hm] at h

/-- The innermost completion hook, if any, returns. -/
theorem finish (hh : HooksInside k) (hstack : k'.state.stack = k.state.finishHook.stack) :
    HooksInside k' := by
  have hchain := hh.apart
  unfold State.finishHook at hstack
  split at hstack
  · rename_i cb r rest hbefore
    rw [hbefore, List.isChain_cons] at hchain
    replace hstack : k'.state.stack = rest := hstack.trans (State.resume_stack ..)
    rw [← hstack] at hchain
    exact ⟨hchain.2, fun _ g hg h => hchain.1 g hg ⟨rfl, h⟩⟩
  · rename_i hnone
    rw [← hstack] at hchain
    refine ⟨hchain, fun _ g hg h => ?_⟩
    rw [hstack] at hg
    obtain ⟨rest, hbefore⟩ := List.head?_eq_some_iff.mp hg
    cases g with
    | completionHook cb r => exact hnone cb r rest hbefore
    | _ => cases h

theorem act (hw : WellFormed k.state) (hh : HooksInside k) (hact : Act k a k') : HooksInside k' := by
  have hnested : NestedAbove k.state.stack := hw.nested
  cases hact with
  | silent hcore => exact hh.same (congrArg Core.stack hcore) fun h => h
  | releaseBuffer | immediate | overflow | enqueue | closing | dropHandle | registerHandle | readdirAll
  | dropDir => exact hh.same rfl fun h => h
  | deinit => exact hh.same rfl fun _ => .inl rfl
  | startTeardown hstack hm =>
    refine hh.same rfl fun _ => ?_
    rcases hm with rfl | rfl
    · exact .inl rfl
    · exact .inr ⟨_, rfl⟩
  | expire =>
    refine hh.same ?_ fun h => h
    exact State.foldl_expire_stack [_] _
  | start => exact hh.push rfl rfl
  | enterClose => exact hh.push rfl rfl
  | enter hstack hf =>
    refine hh.push rfl ?_
    rcases hf with rfl | ⟨n, rfl⟩ <;> rfl
  | leave hstack hf hm =>
    rw [hstack] at hnested
    refine hh.pop hstack rfl fun _ => hnested.rest_eq_nil ?_
    revert hf
    cases ‹Frame› <;> simp [Frame.isEvent, Frame.nested]
  | @callback s s₁ s₂ f rest cb status data halive hstack htake hnote =>
    obtain ⟨out, fhs, dirs, b, r, -, heq⟩ := State.callback_eq htake hnote
    have hpushed : (s₂.enterHook cb status data).stack =
        .completionHook cb r :: f.noteCallback cb.caller :: rest := by rw [heq]
    refine hh.hook rfl hstack (Eq.trans ?_ hpushed) (.inl rfl)
    rw [State.recordCompletion_eq]
    rfl
  | @callbackDead s s₁ s₂ f rest cb status data halive hstack htake hnote =>
    obtain ⟨out, fhs, dirs, b, r, -, heq⟩ := State.callback_eq htake hnote
    have hpushed : (s₂.enterHook cb status data).stack =
        .completionHook cb r :: f.noteCallback cb.caller :: rest := by rw [heq]
    exact hh.hook rfl hstack hpushed (.inr rfl)
  | skip => exact hh.same rfl fun h => by simp at h
  | execute => exact hh.push rfl rfl
  | drained => exact hh.same rfl fun h => by simp at h
  | finishHook => exact hh.finish rfl
  | @accept s site cb ran rest hstack =>
    refine hh.pop hstack ?_ fun hmode => ?_
    · dsimp only
      rw [State.enqueueRequest_eq]
      split <;> rfl
    · rw [hstack] at hnested
      cases site with
      | pending i op => simp [Site.next] at hmode
      | _ => exact hnested.rest_eq_nil rfl
  | reject hstack =>
    rw [hstack] at hnested
    exact hh.pop hstack (State.resume_stack ..) fun _ => hnested.rest_eq_nil rfl
  | rejectPending hstack => exact hh.pop hstack (State.resume_stack ..) fun hmode => by simp at hmode
  | rejectRaw hstack hran hsite =>
    rw [hstack] at hnested
    refine hh.pop hstack rfl fun _ => hnested.rest_eq_nil ?_
    rcases hsite with rfl | ⟨n, rfl⟩ <;> rfl
  | rejectHandle hstack =>
    rw [hstack] at hnested
    exact hh.pop hstack rfl fun _ => hnested.rest_eq_nil rfl
  | rejectExports hstack hran hrest =>
    subst hrest
    exact single rfl rfl
  | enterRpcDestroy => exact hh.push rfl rfl
  | leaveRpcDestroy hstack =>
    rw [hstack] at hnested
    exact hh.pop hstack rfl fun _ => hnested.rest_eq_nil rfl
  | exportsFailed hstack =>
    rw [hstack] at hnested
    exact hh.pop hstack rfl fun _ => hnested.rest_eq_nil rfl
  | @enterDestroy s kind hctx hstack =>
    exact hh.push (f := .destroy kind s.activeContinuations) rfl rfl
  | leaveDestroy hstack hrest =>
    subst hrest
    exact hh.pop hstack (State.endTeardown_stack ..) fun _ => rfl
  | @teardownNow s kind hctx hstack =>
    refine hh.same ?_ fun _ => .inr ⟨kind, rfl⟩
    rw [State.endTeardown_stack]
    cases kind <;> rfl
  | alreadyDown hctx hactive hm =>
    refine hh.same rfl fun _ => ?_
    rcases hm with rfl | rfl
    · exact .inl rfl
    · exact .inr ⟨_, rfl⟩

end HooksInside

/-- Between two steps no completion hook is innermost. -/
theorem hooksInside_of_reachable {timeout : Int} (h : Reachable step (State.init timeout) s) :
    HooksInside s.config :=
  (run_invariant_init h HooksInside ⟨.nil, fun _ _ hf => nomatch hf⟩
    fun _ _ _ _ _ _ hk hh _ hact => hh.act hk.wellFormed hact).2

/-! ## The drain -/

theorem Frame.effort_noteCallback (f : Frame) (i : Nat) : (f.noteCallback i).effort ≤ f.effort := by
  cases f with
  | handOver site cb ran =>
    simp only [Frame.noteCallback, Frame.effort, List.mem_cons]
    by_cases hran : cb.caller ∈ ran
    · simp [hran]
    · rw [if_neg hran]
      split <;> omega
  | _ => exact le_refl _

/-- The callback of the operation that is being handed over has run. -/
theorem Frame.effort_answered (h : f.inCall = some cb) :
    (f.noteCallback cb.caller).effort + 1 = f.effort := by
  cases f with
  | handOver site c ran =>
    simp only [Frame.inCall] at h
    by_cases hran : c.caller ∈ ran
    · simp [hran] at h
    · rw [if_neg hran] at h
      obtain rfl := Option.some.inj h
      simp only [Frame.noteCallback, Frame.effort, List.mem_cons, hran]
      simp
      omega
  | _ => cases h

theorem effort_congr {s t : Core} (hstack : t.stack = s.stack) (hrequests : t.outstanding = s.outstanding)
    (hpending : t.pendingOperations = s.pendingOperations) : t.effort = s.effort := by
  unfold Core.effort
  rw [hstack, hrequests, hpending]

theorem effort_of_stack {s : Core} (hstack : s.stack = f :: rest) :
    s.effort = f.effort + (rest.map Frame.effort).sum + s.outstanding.length +
      3 * s.pendingOperations.length := by
  unfold Core.effort
  rw [hstack, List.map_cons, List.sum_cons]

/-- A call begins. -/
theorem effort_cons {s t : Core} (hstack : t.stack = f :: s.stack) (hrequests : t.outstanding = s.outstanding)
    (hpending : t.pendingOperations = s.pendingOperations) : t.effort = f.effort + s.effort := by
  rw [effort_of_stack hstack, hrequests, hpending]
  unfold Core.effort
  omega

/-- One for a completion hook that is innermost, which is about to return. -/
def Core.hookEffort (s : Core) : Nat := if s.stack.head?.any Frame.isHook then 1 else 0

theorem finishHook_effort (s : State) : s.finishHook.effort + s.hookEffort ≤ s.effort := by
  unfold State.finishHook
  split
  · rename_i cb r rest hstack
    have hleft : ({ s with stack := rest }.resume cb r).effort = ({ s with stack := rest } : State).effort := by
      apply effort_congr <;> rw [State.resume_eq]
    have hone : s.hookEffort = 1 := by
      unfold Core.hookEffort
      rw [hstack]
      rfl
    have hframe : (Frame.completionHook cb r).effort = 1 := rfl
    rw [hleft, hone, effort_of_stack hstack, hframe]
    unfold Core.effort
    dsimp only
    omega
  · rename_i hnone
    have hzero : s.hookEffort = 0 := by
      unfold Core.hookEffort
      rw [if_neg]
      intro h
      obtain ⟨f, hf, hhook⟩ := (Option.any_eq_true _ _).mp h
      obtain ⟨rest, hstack⟩ := List.head?_eq_some_iff.mp hf
      cases f with
      | completionHook cb r => exact hnone cb r rest hstack
      | _ => cases hhook
    rw [hzero, Nat.add_zero]

theorem executePending_effort {i : Nat} {op : PendingOperation} (h : s.pendingOperations[i]? = some op) :
    (s.executePending i op).effort + 1 = s.effort := by
  obtain ⟨hi, -⟩ := List.getElem?_eq_some_iff.mp h
  have hlength : (s.executePending i op).pendingOperations.length = s.pendingOperations.length - 1 :=
    List.length_eraseIdx_of_lt hi
  have hstack : (s.executePending i op).stack = .handOver (.pending i op) op.cbData [] :: s.stack := rfl
  have hrequests : (s.executePending i op).outstanding = s.outstanding := rfl
  unfold Core.effort
  rw [hlength, hstack, hrequests, List.map_cons, List.sum_cons]
  simp only [Frame.effort, Site.effort, List.not_mem_nil, if_false]
  omega

/-- The drain hands an operation over, or the hook in which it runs returns. -/
theorem drainLoop_effort (s : State) (n i : Nat) : (s.drainLoop n i).effort + s.hookEffort ≤ s.effort := by
  have hhook : s.hookEffort ≤ 1 := by
    unfold Core.hookEffort
    split <;> omega
  induction n generalizing i with
  | zero => exact finishHook_effort s
  | succ n ih =>
    unfold State.drainLoop
    cases hop : s.pendingOperations[i]? with
    | none => exact finishHook_effort s
    | some op =>
      dsimp only
      by_cases hcap : s.hasCapacity op.category
      · rw [if_pos hcap]
        have := executePending_effort hop
        omega
      · rw [if_neg hcap]
        exact ih (i + 1)

theorem issuePendingOperations_effort (s : State) :
    s.issuePendingOperations.effort + s.hookEffort ≤ s.effort := by
  unfold State.issuePendingOperations
  split
  · exact finishHook_effort s
  · exact drainLoop_effort s _ _

theorem updateWriteSource_effort (s : State) : s.updateWriteSource.effort = s.effort := by
  unfold State.updateWriteSource
  split <;> rfl

/-! ## Callbacks -/

theorem handleCallbackCompletion_effort (s : State) (id : Nat) (c : OperationCategory) (ok : Bool) :
    (s.handleCallbackCompletion id c ok).effort + s.hookEffort ≤ s.effort := by
  unfold State.handleCallbackCompletion
  rw [State.recordCompletion_eq]
  exact issuePendingOperations_effort _

theorem completionHook_effort (s : State) (cb : CallbackData) (ok : Bool) :
    (s.completionHook cb ok).effort + s.hookEffort ≤ s.effort := by
  unfold State.completionHook
  by_cases halive : s.alive
  · rw [if_pos halive]
    by_cases hentry : cb.entry = .getexports
    · rw [if_pos hentry]
      exact handleCallbackCompletion_effort { s with exports := { s.exports with rpcExportsDone := true } } ..
    · rw [if_neg hentry]
      exact handleCallbackCompletion_effort s ..
  · rw [if_neg halive]
    exact finishHook_effort s

/-- A callback takes the request it answers, and the hook it enters comes to an end or hands a queued
operation over. -/
theorem fireCallback_effort {id : Nat} {status : Int} {data : Option Value}
    (h : s.fireCallback id status data = some t) : t.effort < s.effort := by
  unfold State.fireCallback at h
  cases hstack : s.stack with
  | nil =>
    rw [hstack] at h
    cases h
  | cons f rest =>
    simp only [hstack, Option.bind_eq_some_iff, Option.map_eq_some_iff] at h
    obtain ⟨⟨cb, s₁⟩, htake, s₂, hnote, rfl⟩ := h
    dsimp only at hnote ⊢
    obtain ⟨out, fhs, dirs, b, r, htaken, heq⟩ := State.callback_eq htake hnote
    have hentered : (s₂.enterHook cb status data).effort ≤ s.effort := by
      have hafter : (s₂.enterHook cb status data).effort =
          1 + ((f.noteCallback cb.caller).effort + (rest.map Frame.effort).sum) + out.length +
            3 * s.pendingOperations.length := by
        rw [heq]
        rfl
      rw [hafter, effort_of_stack hstack]
      obtain ⟨hcall, rfl⟩ | ⟨q, hq, -, -, rfl⟩ := htaken
      · have := Frame.effort_answered hcall
        omega
      · have := Frame.effort_noteCallback f cb.caller
        have := List.length_erase_of_mem hq
        have := List.length_pos_of_mem hq
        omega
    have hhook : (s₂.enterHook cb status data).hookEffort = 1 := by
      rw [heq]
      rfl
    have hdone := completionHook_effort (s₂.enterHook cb status data) cb (s₂.replySucceeds cb status data)
    rw [State.runCallback_eq]
    omega

/-! ## Returns -/

theorem endTeardown_effort (s : State) (kind : Teardown) (l : List CallbackData) :
    (s.endTeardown kind l).effort = s.effort := by
  obtain ⟨bulk, metadata, counts, heq⟩ := State.endTeardown_eq s kind l
  rw [heq, State.foldl_resume_eq]
  rfl

theorem dropRequests_effort (s : State) (ctx : Ctx) : (s.dropRequests ctx).effort ≤ s.effort := by
  have hlength : (s.dropRequests ctx).outstanding.length ≤ s.outstanding.length :=
    List.length_filter_le ..
  have hstack : (s.dropRequests ctx).stack = s.stack := rfl
  have hpending : (s.dropRequests ctx).pendingOperations = s.pendingOperations := rfl
  unfold Core.effort
  rw [hstack, hpending]
  omega

theorem destroyContext_effort (s : State) (kind : Teardown) :
    (s.destroyContext kind).effort ≤ s.effort + 1 := by
  unfold State.destroyContext
  extract_lets conts u v
  have hcleared : v.stack = s.stack ∧ v.outstanding = s.outstanding ∧ v.pendingOperations = [] := by
    cases kind <;> exact ⟨rfl, rfl, rfl⟩
  obtain ⟨hstack, hrequests, hpending⟩ := hcleared
  have hv : v.effort ≤ s.effort := by
    unfold Core.effort
    rw [hstack, hrequests, hpending, List.length_nil]
    omega
  split
  · have hpushed : ({ v with context := none, stack := .destroy kind conts :: v.stack } : State).effort =
        1 + v.effort := effort_cons (s := v.toCore) (f := .destroy kind conts) rfl rfl rfl
    omega
  · rw [endTeardown_effort]
    omega

theorem afterCleanup_effort (s : State) (next : AfterCleanup) :
    (s.afterCleanup next).effort ≤ s.effort + next.effort := by
  cases next with
  | performShutdown => exact destroyContext_effort _ .performShutdown
  | _ => exact Nat.le_refl _

theorem cleanupRpcExports_effort (s : State) (next : AfterCleanup) :
    (s.cleanupRpcExports next).effort ≤ s.effort + 1 + next.effort := by
  unfold State.cleanupRpcExports
  extract_lets u
  split
  · rename_i n hn
    refine Nat.le_of_eq (Eq.trans (effort_cons (s := s.toCore) (f := .rpcDestroy n next) rfl rfl rfl) ?_)
    rw [Frame.effort]
    omega
  · have := afterCleanup_effort u next
    have : u.effort = s.effort := rfl
    omega

theorem rejected_effort (s : State) (site : Site) (cb : CallbackData) (rc : Int) :
    (s.rejected site cb rc).effort ≤ s.effort + site.effort := by
  unfold State.rejected
  extract_lets u error
  cases site with
  | issueOperation =>
    dsimp only
    rw [State.resume_eq]
    exact Nat.le_refl _
  | handleOperation =>
    dsimp only
    rw [State.runCleanup_eq]
    exact Nat.le_refl _
  | mount => exact Nat.le_refl _
  | getexports n => exact cleanupRpcExports_effort _ (.getexports cb)
  | pending i op =>
    dsimp only
    refine le_trans (le_trans (Nat.le_add_right _ _) (drainLoop_effort _ _ i)) ?_
    rw [updateWriteSource_effort, State.resume_eq]
    exact Nat.le_refl _

theorem accepted_effort (s : State) (site : Site) (cb : CallbackData) :
    (s.accepted site cb).effort ≤ s.effort := by
  unfold State.accepted
  cases site with
  | issueOperation | handleOperation => exact Nat.le_of_eq (updateWriteSource_effort _)
  | mount =>
    dsimp only
    split
    · exact Nat.le_of_eq (updateWriteSource_effort _)
    · exact Nat.le_refl _
  | getexports n =>
    dsimp only
    split <;> exact Nat.le_refl _
  | pending i op =>
    dsimp only
    have := drainLoop_effort s.updateWriteSource (s.updateWriteSource.pendingOperations.length - i) i
    rw [updateWriteSource_effort] at this
    unfold State.drainFrom
    omega

theorem serviced_effort (s : State) (rc : Int) : (s.serviced rc).effort ≤ s.effort + 1 := by
  unfold State.serviced
  by_cases hrc : rc < 0
  · rw [if_pos hrc]
    exact destroyContext_effort _ .shutdownWithError
  · rw [if_neg hrc]
    extract_lets u
    have hu : u.effort = s.effort := by
      unfold u
      split <;> rfl
    have := issuePendingOperations_effort u.updateWriteSource
    rw [updateWriteSource_effort] at this
    omega

theorem rpcServiced_effort (s : State) (rc : Int) : (s.rpcServiced rc).effort ≤ s.effort + 1 := by
  unfold State.rpcServiced
  split
  · exact cleanupRpcExports_effort s .done
  · split
    · exact cleanupRpcExports_effort s .done
    · exact Nat.le_add_right _ _

/-- A call that returns is gone, and what the loop does next is no more than the call stood for. -/
theorem returnFromCall_effort {rc : Int} {view : LibView} (h : s.returnFromCall rc view = some t) :
    t.effort < s.effort := by
  have left {f : Frame} {rest : List Frame} (hstack : s.stack = f :: rest) (ctx : Ctx) :
      (({ s with stack := rest } : State).setView ctx view).effort + f.effort = s.effort := by
    rw [effort_of_stack hstack]
    cases ctx <;>
    · show (rest.map Frame.effort).sum + s.outstanding.length + 3 * s.pendingOperations.length + _ = _
      omega
  unfold State.returnFromCall at h
  split at h
  · cases h
  · cases h
  · rename_i site cb ran rest hstack
    have hleft := left hstack site.ctx
    extract_lets u at h
    have hu : u.effort + Frame.effort (.handOver site cb ran) = s.effort := hleft
    rw [Frame.effort] at hu
    by_cases hrc : rc < 0
    · rw [if_pos hrc] at h
      by_cases hran : cb.caller ∈ ran
      · rw [if_pos hran] at h
        cases h
      · rw [if_neg hran] at h hu
        have := rejected_effort u site cb rc
        rw [← Option.some.inj h]
        omega
    · rw [if_neg hrc] at h
      have haccepted := accepted_effort (u.enqueueRequest site.ctx cb ran) site cb
      have hqueued : (u.enqueueRequest site.ctx cb ran).effort =
          u.effort + if cb.caller ∈ ran then 0 else 1 := by
        rw [State.enqueueRequest_eq]
        by_cases hran : cb.caller ∈ ran
        · rw [if_pos hran, if_pos hran]
          rfl
        · rw [if_neg hran, if_neg hran]
          unfold Core.effort
          dsimp only
          rw [List.length_append, List.length_singleton]
          omega
      rw [← Option.some.inj h]
      by_cases hran : cb.caller ∈ ran
      · rw [if_pos hran] at hu hqueued
        omega
      · rw [if_neg hran] at hu hqueued
        omega
  · rename_i rest hstack
    have hleft := left hstack .nfs
    have := serviced_effort (({ s with stack := rest } : State).setView .nfs view) rc
    rw [← Option.some.inj h]
    rw [Frame.effort] at hleft
    omega
  · rename_i n rest hstack
    have hleft := left hstack (.rpc n)
    have := rpcServiced_effort (({ s with stack := rest } : State).setView (.rpc n) view) rc
    rw [← Option.some.inj h]
    rw [Frame.effort] at hleft
    omega
  · rename_i fh rest hstack
    have hleft := left hstack .nfs
    rw [← Option.some.inj h]
    rw [Frame.effort] at hleft
    omega
  · rename_i n next rest hstack
    have hleft : ({ s with stack := rest } : State).effort + _ = s.effort := left hstack .nfs
    have hdropped := dropRequests_effort ({ s with stack := rest } : State) (.rpc n)
    have hafter := afterCleanup_effort (({ s with stack := rest } : State).dropRequests (.rpc n)) next
    rw [← Option.some.inj h]
    rw [Frame.effort] at hleft
    omega
  · rename_i kind conts rest hstack
    have hleft : ({ s with stack := rest } : State).effort + _ = s.effort := left hstack .nfs
    have hdropped := dropRequests_effort ({ s with stack := rest } : State) .nfs
    rw [← Option.some.inj h, endTeardown_effort]
    rw [Frame.effort] at hleft
    omega

/-! ## Runs -/

/-- Between two steps in which libnfs does nothing, the calls in progress stay as they are. -/
theorem step_effort {e : Event} (he : e.starts = false) (hmove : e.isMove = false)
    (h : step s e = some t) : t.effort = s.effort := by
  cases e with
  | block | deinit => cases he
  | callback | ret => cases hmove
  | tick d => rw [← Option.some.inj h]
  | releaseBuffer b =>
    simp only [step] at h
    split at h
    · rw [← Option.some.inj h]
      rfl
    · cases h

/-- In the reachable states the effort ranks the steps of a queue block that has started. -/
theorem ranked_effort (timeout : Int) :
    Ranked step (Reachable step (State.init timeout)) (fun e => !e.starts) Event.isMove
      fun s : State => s.effort where
  keeps s e t hs _ h := hs.tail trivial h
  move s e t _ _ hmove h := by
    cases e with
    | callback id status data => exact fireCallback_effort h
    | ret rc view => exact returnFromCall_effort h
    | _ => cases hmove
  other s e t _ he hmove h := Nat.le_of_eq (step_effort (by simpa using he) hmove h)

/-- The innermost call can return. -/
theorem returns_of_reachable {timeout : Int} (h : Reachable step (State.init timeout) s)
    (hstack : s.stack ≠ []) {rc : Int} (hrc : 0 ≤ rc) (view : LibView) :
    ∃ t, step s (.ret rc view) = some t := by
  have hcall := (hooksInside_of_reachable h).call (.inl rfl)
  obtain ⟨f, rest, hf⟩ := List.exists_cons_of_ne_nil hstack
  have hhook : f.isHook = false := by simpa [State.config, hf] using hcall
  simp only [step, State.returnFromCall, hf]
  cases f with
  | completionHook => cases hhook
  | handOver site cb ran =>
    dsimp only
    rw [if_neg (by omega)]
    exact ⟨_, rfl⟩
  | _ => exact ⟨_, rfl⟩

/-- Whatever libnfs does, a queue block that has started ends after at most as many moves of libnfs as the
effort says, and until then the call in which libnfs is can return. -/
theorem queue_block_ends {timeout : Int} {es : List Event} (hs : Reachable step (State.init timeout) s)
    (hrun : run step s es = some t) (hes : ∀ e ∈ es, e.starts = false) :
    es.countP Event.isMove + t.effort ≤ s.effort ∧
      (t.stack ≠ [] → ∀ rc view, 0 ≤ rc → ∃ u, step t (.ret rc view) = some u) := by
  obtain ⟨hcount, ht⟩ := (ranked_effort timeout).countP_add_le hs (fun e he => by simp [hes e he]) hrun
  exact ⟨hcount, fun hstack rc view hrc => returns_of_reachable ht hstack hrc view⟩

/-- libnfs answers the first of three stats: the third is handed over inside the callback, the two calls
return, and the effort is used up but for what libnfs still holds. -/
theorem queue_block_ends_service :
    ∃ s t, run step (State.init 60000000000)
        [.block Block.stat, .ret 0 {}, .block Block.stat, .ret 0 {}, .block Block.stat,
          .block .handleIOEvent] = some s ∧
      run step s [.callback 1 0 (some (.pointer 7)), .ret 0 {}, .tick 5, .ret 0 {}] = some t ∧
      3 + t.effort ≤ s.effort ∧ t.stack = [] := by
  have hrun : ((run step (State.init 60000000000)
      [.block Block.stat, .ret 0 {}, .block Block.stat, .ret 0 {}, .block Block.stat,
        .block .handleIOEvent]).any fun s =>
      (run step s [.callback 1 0 (some (.pointer 7)), .ret 0 {}, .tick 5, .ret 0 {}]).any fun t =>
        t.stack = []) = true := by
    decide +kernel
  obtain ⟨s, hs, hmoves⟩ := (Option.any_eq_true _ _).mp hrun
  obtain ⟨t, ht, hstack⟩ := (Option.any_eq_true _ _).mp hmoves
  exact ⟨s, t, hs, ht, (queue_block_ends (reachable_of_run hs) ht (by decide)).1, of_decide_eq_true hstack⟩

end NFSKit
