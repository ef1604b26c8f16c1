import NFSKit.EventLoop.Lane
import NFSKit.EventLoop.Proofs.OrderProofs
import NFSKit.EventLoop.Proofs.StrandingProofs
import NFSKit.EventLoop.Proofs.TeardownProofs
import NFSKit.Foundations.Projection

/-!
# The pipelines of the two categories

Both categories share one queue, and every completion drains both. They stay apart because a drain finds
work for one category only: the queued operations of the other one have no capacity, and so have all that
it has passed. Then a step of the loop moves the lane of a category as the event says, and leaves it alone
if the event is not one of the category.
-/

namespace NFSKit

open Machine

variable {s t u : State} {k k' : Config} {a : Action} {e : Event} {c : OperationCategory}

/-! ## A drain works for one category -/

/-- The loop that is running, or that waits for its call to return, works for one category: no queued
operation of the other one has capacity. -/
def DrainsOne (k : Config) : Prop :=
  k.state.alive → k.state.context.isSome →
    match k.mode with
    | .draining _ => ∃ c, ∀ op ∈ k.state.pendingOperations, op.category ≠ c →
        k.state.hasCapacity op.category = false
    | .idle => ∀ c ∈ k.state.stack.head?.bind Frame.drains, ∀ op ∈ k.state.pendingOperations,
        op.category ≠ c → k.state.hasCapacity op.category = false
    | _ => True

theorem drainsOne_init (timeout : Int) : DrainsOne (State.init timeout).config := by
  intro _ _ c hc
  cases hc

/-- A completion makes no room for the other category. -/
theorem recordCompletion_other {d : OperationCategory} (s : State) (ok : Bool) (hne : c ≠ d) :
    (s.recordCompletion d ok).hasCapacity c = s.hasCapacity c := by
  have hcount : (s.recordCompletion d ok).inFlightCount c = s.inFlightCount c := by
    rw [State.recordCompletion_eq]
    exact Function.update_of_ne hne _ _
  have hcontroller : (s.recordCompletion d ok).controller c = s.controller c := by
    rw [State.recordCompletion_controller, if_neg hne.symm]
  unfold Core.hasCapacity
  rw [hcount, hcontroller]

namespace DrainsOne

/-- Nothing is drained. -/
theorem of_head (hmode : k'.mode = .idle) (h : k'.state.stack.head?.bind Frame.drains = none) :
    DrainsOne k' := by
  intro _ _
  rw [hmode]
  intro c hc
  rw [h] at hc
  cases hc

theorem of_nil (hmode : k'.mode = .idle) (h : k'.state.stack = []) : DrainsOne k' :=
  of_head hmode (by rw [h]; rfl)

/-- The loop goes on as it was. -/
theorem keepSame (hd : DrainsOne k) (h : Act k a k') (hmode : k'.mode = k.mode)
    (hstack : k'.state.stack = k.state.stack)
    (hpending : k'.state.pendingOperations = k.state.pendingOperations)
    (hcounts : k'.state.inFlightCount = k.state.inFlightCount)
    (hbulk : k'.state.bulkController = k.state.bulkController)
    (hmetadata : k'.state.metadataController = k.state.metadataController) : DrainsOne k' := by
  intro halive hctx
  obtain ⟨halive', hctx'⟩ := h.up_before halive hctx
  have hone := hd halive' hctx'
  simp only [hmode, hstack, hpending, hasCapacity_congr hcounts hbulk hmetadata]
  exact hone

/-- When a callback is run, the queued operations of the other category have no capacity. -/
theorem callback {f : Frame} {cb : CallbackData} {status : Int} {data : Option Value}
    (hd : DrainsOne k) (hq : QueueFull true k) (hP : CallsBackApart u e) (halive : k.state.alive)
    (hctx : k.state.context.isSome) (ha : Allowed u e k (.callback f cb status data))
    (h : Act k (.callback f cb status data) k') (hmode : k.mode = .idle) {op : PendingOperation}
    (hop : op ∈ k.state.pendingOperations) (hne : op.category ≠ cb.operationCategory) :
    k.state.hasCapacity op.category = false := by
  obtain ⟨hcalled, -⟩ := calledBack_of_callback ha h
  have hsame : k.state = u := ha.1
  cases hhead : k.state.stack.head?.bind Frame.drains with
  | none =>
    refine hq halive hctx op ?_ rfl
    rw [Config.passed_of_index]
    · exact hop
    · unfold Config.index
      rw [hmode]
      dsimp only
      cases hf : k.state.stack.head? with
      | none => rfl
      | some g =>
        rw [hf] at hhead
        cases g with
        | handOver site => cases site <;> first | rfl | cases hhead
        | _ => rfl
  | some d =>
    by_cases hcat : op.category = d
    · rw [hsame] at hhead hop ⊢
      rw [hcat]
      exact hP cb hcalled d hhead (hcat ▸ hne) op hop hcat
    · have hone := hd halive hctx
      rw [hmode] at hone
      exact hone d hhead op hop hcat

/-- One action keeps the drains apart. -/
theorem act (hd : DrainsOne k) (hk : Sound k) (hq : QueueFull true k) (hP : CallsBackApart u e)
    (ha : Allowed u e k a) (h : Act k a k') : DrainsOne k' := by
  have hact := h
  have hnested := hk.wellFormed.nested
  -- the only frame of a stack is popped
  have outer {s : State} {f : Frame} {rest : List Frame} (hstack : s.stack = f :: rest)
      (hn : NestedAbove s.stack) (hf : f.nested = false) : rest = [] := by
    rw [hstack] at hn
    exact hn.rest_eq_nil hf
  cases h with
  | silent hcore =>
    exact hd.keepSame hact rfl (by rw [hcore]) (by rw [hcore]) (by rw [hcore])
      (by rw [hcore]) (by rw [hcore])
  | deinit => exact fun halive => by cases halive
  | @startTeardown s m kind hstack hm => exact fun _ _ => trivial
  | @start s site cb hstack hctx hsite =>
    refine of_head rfl ?_
    show Frame.drains (.handOver site cb []) = none
    cases site <;> first | rfl | cases hsite
  | @enqueue s type cb _ _ _ _ _ hcap _ _ _ hstack => exact of_nil rfl hstack
  | enterClose hstack => exact of_head rfl rfl
  | enter hstack hf =>
    refine of_head rfl ?_
    obtain rfl | ⟨n, rfl⟩ := hf <;> rfl
  | enterRpcDestroy => exact of_head rfl rfl
  | @leave s f rest m hstack hf hm =>
    have hframe : f.nested = false := by cases f <;> first | rfl | cases hf
    have hrest := outer hstack hnested hframe
    obtain rfl | rfl := hm
    · exact of_nil rfl hrest
    · intro halive hctx
      refine ⟨.bulk, fun op hop _ => hq halive hctx op ?_ rfl⟩
      rw [Config.passed_of_index]
      · exact hop
      · show s.stack.head?.bind Frame.loopIndex = none
        rw [hstack]
        exact Frame.loopIndex_of_not_nested hframe
  | @expire s cb hstack =>
    refine of_nil rfl ?_
    rw [(State.expire_fields s cb).1]
    exact hstack
  | @callback s s₁ s₂ f rest cb status data halive hstack htake hnote =>
    obtain ⟨out, fhs, dirs, b, r, -, heq⟩ := State.callback_eq htake hnote
    intro _ hctx
    have hctx : s.context.isSome := by
      rw [heq, State.recordCompletion_eq] at hctx
      exact hctx
    refine ⟨cb.operationCategory, fun op hop hne => ?_⟩
    rw [heq, State.recordCompletion_eq] at hop
    refine (recordCompletion_other _ _ hne).trans ?_
    rw [heq]
    exact hd.callback hq hP halive hctx ha hact rfl hop hne
  | callbackDead => exact fun _ _ => trivial
  | skip => exact hd
  | @execute s i op hctx hop hcap =>
    intro halive _ d hd' x hx hne
    have hd' : op.category = d := Option.some.inj hd'
    obtain ⟨y, hone⟩ := hd halive hctx
    have hy : op.category = y := by
      by_contra hne'
      rw [hone op (List.mem_of_getElem? hop) hne'] at hcap
      cases hcap
    have hne' : x.category ≠ op.category := fun h => hne (h.trans hd')
    have hfull := hone x (List.mem_of_mem_eraseIdx hx) (hy ▸ hne')
    show (s.addInFlight op.category 1).hasCapacity x.category = false
    simp only [Core.hasCapacity, State.addInFlight, Function.update_of_ne hne']
    exact hfull
  | drained => exact fun _ _ => trivial
  | @finishHook s =>
    intro halive hctx
    obtain ⟨stack, resumed, outcomes, failed, heq⟩ := State.finishHook_eq s
    dsimp only at halive hctx ⊢
    rw [heq] at halive hctx ⊢
    intro d _ op hop _
    exact hq halive hctx op hop rfl
  | @accept s site cb ran rest hstack =>
    cases site with
    | pending i op =>
      dsimp only [Site.countsLate, Site.next]
      rw [State.enqueueRequest_eq]
      intro halive hctx
      have hone := hd halive hctx
      exact ⟨op.category, hone op.category (by rw [hstack]; rfl)⟩
    | _ =>
      refine of_nil rfl ?_
      rw [State.enqueueRequest_eq]
      exact outer hstack hnested rfl
  | @reject s cb ran rest r hstack =>
    refine of_nil rfl ?_
    dsimp only
    rw [State.resume_eq]
    exact outer hstack hnested rfl
  | @rejectPending s i op cb ran rest r hstack =>
    rw [State.resume_eq]
    intro halive hctx
    refine ⟨op.category, fun x hx hne => ?_⟩
    have hone := hd halive hctx
    have hfull := hone op.category (by rw [hstack]; rfl) x hx hne
    show (s.addInFlight op.category (-1)).hasCapacity x.category = false
    simp only [Core.hasCapacity, State.addInFlight, Function.update_of_ne hne]
    exact hfull
  | rejectRaw hstack _ hsite =>
    refine of_nil rfl (outer hstack hnested ?_)
    obtain rfl | ⟨n, rfl⟩ := hsite <;> rfl
  | rejectExports => exact of_head rfl rfl
  | rejectHandle hstack | exportsFailed hstack => exact of_nil rfl (outer hstack hnested rfl)
  | @leaveRpcDestroy s n next rest hstack =>
    cases next with
    | performShutdown => exact fun _ _ => trivial
    | _ => exact of_nil rfl (outer hstack hnested rfl)
  | enterDestroy => exact of_head rfl rfl
  | @leaveDestroy s kind conts rest hstack =>
    refine of_nil rfl ?_
    rw [State.endTeardown_stack]
    exact outer hstack hnested rfl
  | @teardownNow s kind hnone hstack =>
    refine of_nil rfl ?_
    rw [State.endTeardown_stack]
    cases kind <;> exact hstack
  | @alreadyDown s m hnone =>
    intro _ hctx
    rw [show s.context = none from hnone] at hctx
    cases hctx
  | immediate | overflow =>
    dsimp only [State.resumeContinuation, State.removeActive, State.register, State.newCaller] at hact ⊢
    exact hd.keepSame hact rfl rfl rfl rfl rfl rfl
  | _ => exact hd.keepSame hact rfl rfl rfl rfl rfl rfl

end DrainsOne

/-! ## The loop stays up -/

theorem up_act (hP : Undisturbed u e) (ha : Allowed u e k a) (h : Act k a k')
    (hup : k.state.alive ∧ k.state.context.isSome) : k'.state.alive ∧ k'.state.context.isSome := by
  obtain ⟨-, hshut, htears, -⟩ := hP
  constructor
  · rcases h.rarely.1 with heq | rfl
    · exact heq ▸ hup.1
    · obtain ⟨q, rfl⟩ := ha
      cases hshut
  · rcases h.rarely.2.1 with heq | ⟨-, kind, rfl⟩
    · exact heq ▸ hup.2
    · rw [ha.1] at htears
      cases htears

/-- What is known between two steps of a run that is undisturbed and drains apart. -/
structure Laned (s : State) : Prop where
  sound : Sound s.config
  full : QueueFull true s.config
  one : DrainsOne s.config
  up : s.alive ∧ s.context.isSome
  handed : ∀ x ∈ s.handOvers, x.cb ∈ s.created

theorem laned_init (timeout : Int) : Laned (State.init timeout) where
  sound := sound_init timeout
  full := queueFull_init timeout
  one := drainsOne_init timeout
  up := ⟨rfl, rfl⟩
  handed := fun x hx => by cases hx

theorem Laned.step (hl : Laned u) (hP : Undisturbed u e ∧ DrainsApart u e)
    (h : NFSKit.step u e = some t) : Laned t := by
  have hscan : scanExpires u e = [] := hP.1.1
  obtain ⟨hs, hI⟩ := step_invariant_sound h hl.sound
    (fun k => (QueueFull true k ∧ DrainsOne k) ∧ (k.state.alive ∧ k.state.context.isSome) ∧
      ∀ x ∈ k.state.handOvers, x.cb ∈ k.state.created)
    ⟨⟨hl.full, hl.one⟩, hl.up, hl.handed⟩ fun k a k' hk hI ha hact => by
      obtain ⟨⟨hq, hd⟩, hup, hhanded⟩ := hI
      exact ⟨⟨hq.act hk hP.2.1 ha hact (not_expire_of_scan hscan ha), hd.act hk hq hP.2.2 ha hact⟩,
        up_act hP.1 ha hact hup, handOvers_created_act hk.wellFormed hhanded hact⟩
  exact ⟨hs, hI.1.1, hI.1.2, hI.2.1, hI.2.2⟩

/-! ## The lane of a state -/

theorem lane_congr (hpending : t.pendingOperations = s.pendingOperations)
    (hcount : t.inFlightCount c = s.inFlightCount c) (hcontroller : t.controller c = s.controller c)
    (hcalls : t.stack.filterMap (Frame.laneCall c) = s.stack.filterMap (Frame.laneCall c))
    (hhanded : t.handOvers = s.handOvers) (hcreated : t.created = s.created) :
    t.lane c = s.lane c := by
  have hoperation : t.laneOperation c = s.laneOperation c := by
    funext cb
    unfold Core.laneOperation
    rw [hcreated]
  unfold Core.lane
  rw [hoperation, hpending, hcount, hcontroller, hcalls, hhanded, hcreated]

theorem lane_hasCapacity (s : Core) (c : OperationCategory) : (s.lane c).hasCapacity = s.hasCapacity c :=
  rfl

theorem finishHook_lane (s : State) (c : OperationCategory) : s.finishHook.lane c = s.lane c := by
  unfold State.finishHook
  split
  · rename_i cb result rest hstack
    rw [State.resume_eq]
    refine lane_congr rfl rfl rfl ?_ rfl rfl
    rw [hstack]
    rfl
  · rfl

/-- A drain does nothing for a category that is at capacity, or of which nothing is queued. -/
theorem drain_of_full (h : ∀ op ∈ s.pendingOperations, op.category = c → s.hasCapacity c = false) :
    (s.lane c).drain = s.lane c := by
  unfold Lane.drain
  split
  · rfl
  · rename_i op rest hqueued
    have hmem : op ∈ (s.lane c).queued := hqueued ▸ List.mem_cons_self ..
    obtain ⟨x, hx, -⟩ := List.mem_map.mp hmem
    obtain ⟨hx, hcat⟩ := List.mem_filter.mp hx
    rw [lane_hasCapacity, h x hx (of_decide_eq_true hcat)]
    rfl

/-- A deferred operation of the other category is handed over. -/
theorem executePending_other {i : Nat} {op : PendingOperation} (hop : s.pendingOperations[i]? = some op)
    (hconsistent : op.Consistent) (hne : op.category ≠ c) :
    (s.executePending i op).lane c = s.lane c := by
  have hcb : op.cbData.operationCategory ≠ c := hconsistent.category_eq ▸ hne
  have hpending : (s.executePending i op).pendingOperations.filter (·.category = c) =
      s.pendingOperations.filter (·.category = c) := by
    show (s.pendingOperations.eraseIdx i).filter _ = _
    obtain ⟨hi, hget⟩ := List.getElem?_eq_some_iff.mp hop
    have hsplit : s.pendingOperations =
        s.pendingOperations.take i ++ op :: s.pendingOperations.drop (i + 1) := by
      rw [← hget, List.cons_getElem_drop_succ, List.take_append_drop]
    rw [List.eraseIdx_eq_take_drop_succ]
    conv_rhs => rw [hsplit]
    simp [List.filter_append, hne]
  have hcalls : (s.executePending i op).stack.filterMap (Frame.laneCall c) =
      s.stack.filterMap (Frame.laneCall c) := by
    show (Frame.handOver (.pending i op) op.cbData [] :: s.stack).filterMap (Frame.laneCall c) = _
    simp [Frame.laneCall, hcb]
  have hhanded : (s.executePending i op).handOvers.filter (·.cb.operationCategory = c) =
      s.handOvers.filter (·.cb.operationCategory = c) := by
    dsimp only [State.executePending, State.handOver]
    rw [List.filter_cons, if_neg (by simpa using hcb)]
    rfl
  unfold Core.lane
  rw [hpending, hcalls, hhanded]
  congr 1
  exact Function.update_of_ne (Ne.symm hne) _ _

/-- The first deferred operation of the category is handed over. -/
theorem executePending_own {i : Nat} {op : PendingOperation} (hop : s.pendingOperations[i]? = some op)
    (hconsistent : op.Consistent) (hcat : op.category = c) (hcap : s.hasCapacity c)
    (hfirst : ∀ x ∈ s.pendingOperations.take i, x.category ≠ c) :
    (s.executePending i op).lane c = (s.lane c).drain := by
  have hcb : op.cbData.operationCategory = c := hconsistent.category_eq ▸ hcat
  obtain ⟨hi, hget⟩ := List.getElem?_eq_some_iff.mp hop
  have hsplit : s.pendingOperations =
      s.pendingOperations.take i ++ op :: s.pendingOperations.drop (i + 1) := by
    rw [← hget, List.cons_getElem_drop_succ, List.take_append_drop]
  have hbefore : (s.pendingOperations.take i).filter (·.category = c) = [] := by
    refine List.filter_eq_nil_iff.mpr fun x hx => ?_
    simpa using hfirst x hx
  have hqueued : (s.lane c).queued = s.laneOperation c op.cbData ::
      ((s.pendingOperations.drop (i + 1)).filter (·.category = c)).map (s.laneOperation c ·.cbData) := by
    show (s.pendingOperations.filter _).map _ = _
    conv_lhs => rw [hsplit]
    rw [List.filter_append, hbefore, List.nil_append, List.filter_cons, if_pos (by simpa using hcat)]
    rfl
  have hleft : ((s.executePending i op).lane c).queued =
      ((s.pendingOperations.drop (i + 1)).filter (·.category = c)).map (s.laneOperation c ·.cbData) := by
    show ((s.pendingOperations.eraseIdx i).filter _).map _ = _
    rw [List.eraseIdx_eq_take_drop_succ, List.filter_append, hbefore, List.nil_append]
    rfl
  have hcalls : ((s.executePending i op).lane c).calls = .deferred :: (s.lane c).calls := by
    show (Frame.handOver (.pending i op) op.cbData [] :: s.stack).filterMap (Frame.laneCall c) = _
    simp [Frame.laneCall, hcb, Site.laneCall, Core.lane]
  have hhanded : ((s.executePending i op).lane c).handedOver =
      s.laneOperation c op.cbData :: (s.lane c).handedOver := by
    dsimp only [Core.lane, State.executePending, State.handOver]
    rw [List.filter_cons, if_pos (by simpa using hcb)]
    rfl
  have hcount : ((s.executePending i op).lane c).inFlightCount = (s.lane c).inFlightCount + 1 := by
    show Function.update s.inFlightCount op.category (s.inFlightCount op.category + 1) c = _
    rw [hcat, Function.update_self]
    rfl
  unfold Lane.drain
  rw [hqueued]
  dsimp only
  rw [lane_hasCapacity, if_pos hcap]
  generalize hl : (s.executePending i op).lane c = l at hleft hcalls hhanded hcount
  obtain ⟨count, controller, queued, calls, handedOver, created⟩ := l
  have hcontroller : controller = s.controller c := congrArg Lane.controller hl.symm
  have hcreated : created = (s.lane c).created := congrArg Lane.created hl.symm
  dsimp only at hleft hcalls hhanded hcount
  rw [hleft, hcalls, hhanded, hcount, hcontroller, hcreated]
  rfl

/-- A drain for one category that has passed no operation with capacity. -/
theorem drainLoop_lane {d : OperationCategory} {n i : Nat}
    (hconsistent : ∀ op ∈ s.pendingOperations, op.Consistent)
    (hother : ∀ op ∈ s.pendingOperations, op.category ≠ d → s.hasCapacity op.category = false)
    (hpassed : ∀ op ∈ s.pendingOperations.take i, s.hasCapacity op.category = false)
    (hn : s.pendingOperations.length ≤ i + n) : (s.drainLoop n i).lane c = (s.lane c).drain := by
  -- nothing is left to look at
  have ended {j : Nat} (h : ∀ op ∈ s.pendingOperations.take j, s.hasCapacity op.category = false)
      (hj : s.pendingOperations.length ≤ j) : s.finishHook.lane c = (s.lane c).drain := by
    rw [finishHook_lane, drain_of_full]
    intro op hop hcat
    rw [← hcat]
    exact h op (by rwa [List.take_of_length_le hj])
  induction n generalizing i with
  | zero => exact ended hpassed hn
  | succ n ih =>
    unfold State.drainLoop
    cases hop : s.pendingOperations[i]? with
    | none => exact ended hpassed (List.getElem?_eq_none_iff.mp hop)
    | some op =>
      dsimp only
      have hmem := List.mem_of_getElem? hop
      by_cases hcap : s.hasCapacity op.category
      · rw [if_pos hcap]
        by_cases hcat : op.category = c
        · refine executePending_own hop (hconsistent op hmem) hcat (hcat ▸ hcap) fun x hx hxc => ?_
          have hfull := hpassed x hx
          rw [hxc, ← hcat, hcap] at hfull
          cases hfull
        · rw [executePending_other hop (hconsistent op hmem) hcat, drain_of_full]
          intro x hx hxc
          have hd : op.category = d := by
            by_contra hne
            rw [hother op hmem hne] at hcap
            cases hcap
          rw [← hxc]
          refine hother x hx ?_
          rw [hxc, ← hd]
          exact Ne.symm hcat
      · rw [if_neg hcap]
        refine ih (fun x hx => ?_) (by omega)
        rw [List.take_add_one, hop] at hx
        rcases List.mem_append.mp hx with hx | hx
        · exact hpassed x hx
        · obtain rfl : x = op := by simpa using hx
          exact (Bool.not_eq_true _).mp hcap

end NFSKit
