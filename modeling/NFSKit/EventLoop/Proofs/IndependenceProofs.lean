import NFSKit.EventLoop.Proofs.LaneProofs
import NFSKit.EventLoop.Proofs.ReadBufferProofs
import NFSKit.Proofs.ClientProofs

/-!
# The pipelines are independent

Every step moves the lane of a category as the event says. So the lane is determined by the events of the
category, and two runs with the same events of a category agree on its lane, whatever the operations of
the other category do in between.
-/

namespace NFSKit

open Machine

variable {s t u : State} {e : Event} {c : OperationCategory} {f : Frame} {rest : List Frame}
  {site : Site} {cb : CallbackData} {ran : List Nat}

/-! ## An operation comes in -/

/-- The number of an operation does not change when the next one comes in. -/
theorem laneOperation_of_created (hw : WellFormed s) (hcreated : t.created = cb :: s.created)
    (hid : cb.continuationID = s.nextContinuationID) {x : CallbackData} (hx : x ∈ s.created) :
    t.laneOperation c x = s.laneOperation c x := by
  have hlt := hw.id_lt x hx
  unfold Core.laneOperation
  rw [hcreated, List.countP_cons_of_neg]
  simp only [Bool.not_eq_true, decide_eq_false_iff_not, not_and]
  intro _
  omega

/-- The next operation gets the next number. -/
theorem laneOperation_incoming (hw : WellFormed s) (hcreated : t.created = cb :: s.created)
    (hid : cb.continuationID = s.nextContinuationID) :
    t.laneOperation c cb = (s.lane c).incoming cb.entry cb.dataHandler := by
  have hcount : t.created.countP (fun x => x.operationCategory = c ∧
      x.continuationID < cb.continuationID) = s.created.countP fun x => x.operationCategory = c := by
    rw [hcreated, List.countP_cons_of_neg (by simp)]
    refine List.countP_congr fun x hx => ?_
    have := hw.id_lt x hx
    simp only [decide_eq_true_eq]
    exact ⟨fun h => h.1, fun h => ⟨h, by omega⟩⟩
  unfold Core.laneOperation
  rw [hcount]
  rfl

/-- An operation has been registered: what is queued and has been handed over keeps its number. -/
theorem lane_of_register (hl : Laned s) (hcreated : t.created = cb :: s.created)
    (hid : cb.continuationID = s.nextContinuationID) :
    (s.pendingOperations.filter (·.category = c)).map (t.laneOperation c ·.cbData) = (s.lane c).queued ∧
      (s.handOvers.filter (·.cb.operationCategory = c)).map (t.laneOperation c ·.cb) =
        (s.lane c).handedOver ∧
      t.created.countP (fun x => x.operationCategory = c) =
        (s.lane c).created + if cb.operationCategory = c then 1 else 0 := by
  have hw := hl.sound.wellFormed
  refine ⟨List.map_congr_left fun x hx => ?_, List.map_congr_left fun x hx => ?_, ?_⟩
  · exact laneOperation_of_created hw hcreated hid (hw.queued_created (List.mem_of_mem_filter hx))
  · exact laneOperation_of_created hw hcreated hid (hl.handed x (List.mem_of_mem_filter hx))
  · rw [hcreated, List.countP_cons]
    simp [Core.lane]

/-- An operation is registered and handed over. -/
theorem lane_of_start (hl : Laned s) (hid : cb.continuationID = s.nextContinuationID)
    (hcreated : t.created = cb :: s.created) (hpending : t.pendingOperations = s.pendingOperations)
    (hcount : t.inFlightCount c = s.inFlightCount c) (hcontroller : t.controller c = s.controller c)
    (hstack : t.stack = .handOver site cb [] :: s.stack)
    (hhanded : ∃ x, t.handOvers = x :: s.handOvers ∧ x.cb = cb) :
    t.lane c = if cb.operationCategory = c then
        { s.lane c with created := (s.lane c).created + 1 }.handOver site.laneCall
          ((s.lane c).incoming cb.entry cb.dataHandler)
      else s.lane c := by
  obtain ⟨hqueued, hbefore, hcreated'⟩ := lane_of_register (c := c) hl hcreated hid
  obtain ⟨x, hhanded, hx⟩ := hhanded
  have hnumber := laneOperation_incoming (c := c) hl.sound.wellFormed hcreated hid
  unfold Core.lane at hcreated' ⊢
  rw [hpending, hqueued, hcount, hcontroller, hstack, hhanded, hcreated']
  by_cases hcat : cb.operationCategory = c
  · rw [if_pos hcat, if_pos hcat, List.filter_cons, if_pos (by simpa [hx] using hcat), List.map_cons,
      hbefore, hx, hnumber, List.filterMap_cons_some (b := site.laneCall) (by simp [Frame.laneCall, hcat])]
    rfl
  · rw [if_neg hcat, if_neg hcat, List.filter_cons, if_neg (by simpa [hx] using hcat), hbefore,
      List.filterMap_cons_none (by simp [Frame.laneCall, hcat])]
    rfl

/-- An operation is registered and queued. -/
theorem lane_of_enqueue (hl : Laned s) {op : PendingOperation} (hop : op.cbData = cb)
    (hopcat : op.category = cb.operationCategory)
    (hid : cb.continuationID = s.nextContinuationID) (hcreated : t.created = cb :: s.created)
    (hpending : t.pendingOperations = s.pendingOperations ++ [op])
    (hcount : t.inFlightCount c = s.inFlightCount c) (hcontroller : t.controller c = s.controller c)
    (hstack : t.stack = s.stack) (hhanded : t.handOvers = s.handOvers) :
    t.lane c = if cb.operationCategory = c then
        { s.lane c with
          created := (s.lane c).created + 1
          queued := (s.lane c).queued ++ [(s.lane c).incoming cb.entry cb.dataHandler] }
      else s.lane c := by
  obtain ⟨hqueued, hbefore, hcreated'⟩ := lane_of_register (c := c) hl hcreated hid
  have hnumber := laneOperation_incoming (c := c) hl.sound.wellFormed hcreated hid
  unfold Core.lane at hcreated' ⊢
  rw [hpending, hcount, hcontroller, hstack, hhanded, hbefore, hcreated', List.filter_append,
    List.map_append, hqueued, List.filter_cons, List.filter_nil]
  by_cases hcat : cb.operationCategory = c
  · rw [if_pos hcat, if_pos hcat, if_pos (by simpa [hopcat] using hcat), List.map_cons, hop, hnumber]
    rfl
  · rw [if_neg hcat, if_neg hcat, if_neg (by simpa [hopcat] using hcat), List.map_nil, List.append_nil]
    rfl

/-! ## Queue blocks -/

theorem submit_lane (hl : Laned s) (hroom : s.pendingOperations.length < maxPendingOperations)
    (type : OperationType) (handler : DataHandler) :
    (s.submit type handler).lane c =
      if type.category = c then (s.lane c).next (.submitted type handler) else s.lane c := by
  obtain ⟨x, hctx⟩ := Option.isSome_iff_exists.mp hl.up.2
  unfold State.submit
  extract_lets caller s₁ cb s₂ s₃
  cases hctx₁ : s₁.context with
  | none =>
    rw [show s₁.context = s.context from rfl, hctx] at hctx₁
    cases hctx₁
  | some _ =>
    dsimp -zeta only
    have hcap₂ : s₂.hasCapacity type.category = s.hasCapacity type.category := rfl
    by_cases hcap : s.hasCapacity type.category
    · rw [if_pos (hcap₂.trans hcap)]
      refine Eq.trans (lane_of_start hl rfl rfl rfl rfl rfl rfl ⟨_, rfl, rfl⟩) ?_
      by_cases hcat : type.category = c
      · rw [if_pos hcat, if_pos hcat]
        exact (if_pos (hcat ▸ hcap : (s.lane c).hasCapacity)).symm
      · rw [if_neg hcat, if_neg hcat]
    · have hroom₂ : ¬ s₂.pendingOperations.length ≥ maxPendingOperations := Nat.not_le.mpr hroom
      rw [if_neg (by rw [hcap₂]; exact hcap), if_neg hroom₂]
      have hop : (⟨cb.continuationID, type, cb⟩ : PendingOperation).cbData = cb := rfl
      refine Eq.trans (lane_of_enqueue hl hop rfl rfl rfl rfl rfl rfl rfl rfl) ?_
      by_cases hcat : type.category = c
      · rw [if_pos hcat, if_pos hcat]
        exact (if_neg (hcat ▸ hcap : ¬ (s.lane c).hasCapacity)).symm
      · rw [if_neg hcat, if_neg hcat]

theorem mount_lane (hl : Laned s) :
    s.mount.lane c =
      if c = .metadata then (s.lane c).next (.issued .uncounted .mount .void) else s.lane c := by
  obtain ⟨x, hctx⟩ := Option.isSome_iff_exists.mp hl.up.2
  have hcase : s.newCaller.context = some x := hctx
  unfold State.mount
  dsimp only
  rw [hcase]
  dsimp only
  refine Eq.trans (lane_of_start (s := s) hl rfl rfl rfl rfl rfl rfl ⟨_, rfl, rfl⟩) ?_
  exact if_congr eq_comm rfl rfl

theorem getexports_lane (hl : Laned s) (available : Bool) :
    (s.getexports available).lane c =
      if (available && s.exports.rpcExportsCtx.isNone) ∧ c = .metadata then
        (s.lane c).next (.issued .uncounted .getexports .exports)
      else s.lane c := by
  obtain ⟨x, hctx⟩ := Option.isSome_iff_exists.mp hl.up.2
  have hcase : s.newCaller.context = some x := hctx
  have hexports : s.newCaller.exports = s.exports := rfl
  unfold State.getexports
  dsimp only
  rw [hcase]
  dsimp only
  rw [hexports]
  cases hrpc : s.exports.rpcExportsCtx with
  | some n =>
    rw [Option.isSome_some, if_pos (by simp), if_neg (by simp)]
    rfl
  | none =>
    rw [if_neg (by simp)]
    cases available with
    | false =>
      rw [if_pos (by simp), if_neg (by simp)]
      rfl
    | true =>
      rw [if_neg (by simp)]
      refine Eq.trans (lane_of_start (s := s) hl rfl rfl rfl rfl rfl rfl ⟨_, rfl, rfl⟩) ?_
      exact if_congr (by simp [eq_comm]) rfl rfl

theorem handleOperation_lane (hl : Laned s) (op : State.HandleOperation) (h : Nat) :
    (s.handleOperation op h).lane c =
      if (s.handleRegistry.lookup h).isSome ∧ op.operationCategory = c then
        (s.lane c).next (.issued .counted op.entry op.dataHandler)
      else s.lane c := by
  obtain ⟨x, hctx⟩ := Option.isSome_iff_exists.mp hl.up.2
  have hcase : s.newCaller.context = some x := hctx
  have hhandles : s.newCaller.handleRegistry = s.handleRegistry := rfl
  unfold State.handleOperation
  dsimp only
  rw [hcase, hhandles]
  cases hfh : s.handleRegistry.lookup h with
  | none =>
    rw [if_neg (by simp)]
    rfl
  | some fh =>
    dsimp only
    cases hcloses : op.closes with
    | true =>
      rw [if_pos rfl]
      refine Eq.trans (lane_of_start (s := s) hl rfl rfl rfl rfl rfl rfl ⟨_, rfl, rfl⟩) ?_
      exact if_congr (by simp) rfl rfl
    | false =>
      rw [if_neg (by simp)]
      refine Eq.trans (lane_of_start (s := s) hl rfl rfl rfl rfl rfl rfl ⟨_, rfl, rfl⟩) ?_
      exact if_congr (by simp) rfl rfl

/-- The operation that a block hands over without a look at the count comes in. -/
theorem directs_lane {b : Block} {x : Lane} {l : Lane} (hb : Event.submits (.block b) = none)
    (hlane : t.lane c = if b.reachesCall s ∧ b.directCategory = some c then x else l)
    (hissues : b.directCategory = some c → ∀ ev ∈ b.issues, x = l.next ev)
    (hsome : b.directCategory = some c → b.issues.isSome) :
    t.lane c = (laneEvent c s (.block b)).toList.foldl Lane.next l := by
  have hevent : laneEvent c s (.block b) = if directs s (.block b) = some c then b.issues else none := by
    unfold laneEvent
    rw [hb]
  have hdirects : directs s (.block b) = some c ↔ b.reachesCall s ∧ b.directCategory = some c := by
    unfold directs
    dsimp only
    split <;> simp_all
  rw [hlane, hevent]
  by_cases hcond : b.reachesCall s ∧ b.directCategory = some c
  · obtain ⟨ev, hev⟩ := Option.isSome_iff_exists.mp (hsome hcond.2)
    rw [if_pos hcond, if_pos (hdirects.mpr hcond), hev, hissues hcond.2 ev hev]
    rfl
  · rw [if_neg hcond, if_neg fun h => hcond (hdirects.mp h)]
    rfl

/-- The export context is cleaned up, and its caller goes on. -/
theorem cleanupRpcExports_lane {next : AfterCleanup} (hnext : next ≠ .performShutdown) :
    (s.cleanupRpcExports next).lane c = s.lane c := by
  unfold State.cleanupRpcExports State.afterCleanup
  dsimp only
  split
  · exact lane_congr rfl rfl rfl (List.filterMap_cons_none rfl) rfl rfl
  · cases next with
    | performShutdown => exact absurd rfl hnext
    | _ => exact lane_congr rfl rfl rfl rfl rfl rfl

/-- A scan that expires nothing may give up an export query that has been answered. -/
theorem scanForTimeouts_lane (hscan : scanExpires s (.block .scanForTimeouts) = []) :
    s.scanForTimeouts.lane c = s.lane c := by
  unfold State.scanForTimeouts
  by_cases htimeout : s.timeout ≤ 0
  · rw [if_pos htimeout]
  · have hnone : s.activeContinuations.filter s.expired = [] := by
      unfold scanExpires at hscan
      rwa [if_pos ⟨rfl, not_le.mp htimeout⟩] at hscan
    rw [if_neg htimeout, hnone]
    dsimp only [List.foldl_nil]
    split
    · split
      · exact cleanupRpcExports_lane (by simp)
      · rfl
    · rfl

theorem runBlock_lane {b : Block} (hl : Laned s) (hP : Undisturbed s (.block b))
    (h : s.runBlock b = some t) : t.lane c = (laneEvent c s (.block b)).toList.foldl Lane.next (s.lane c) := by
  obtain ⟨hscan, hshut, -, hroom⟩ := hP
  have hctx := hl.up.2
  -- the operations on an open handle
  have onHandle {op : State.HandleOperation} {i : Nat} (hb : Event.submits (.block b) = none)
      (ht : s.handleOperation op i = t) (hreach : b.reachesCall s = (s.context.isSome &&
        (s.handleRegistry.lookup i).isSome)) (hcat : b.directCategory = some op.operationCategory)
      (hissues : b.issues = some (.issued .counted op.entry op.dataHandler)) :
      t.lane c = (laneEvent c s (.block b)).toList.foldl Lane.next (s.lane c) := by
    refine directs_lane (x := (s.lane c).next (.issued .counted op.entry op.dataHandler)) hb ?_ ?_ ?_
    · rw [← ht, handleOperation_lane hl, hreach, hctx, Bool.true_and, hcat]
      exact if_congr (by simp) rfl rfl
    · intro _ ev hev
      rw [hissues] at hev
      rw [Option.mem_some_iff.mp hev]
    · intro _
      rw [hissues]
      rfl
  -- the blocks that neither submit nor issue an operation
  have other (hb : Event.submits (.block b) = none) (hcat : b.directCategory = none)
      (ht : t.lane c = s.lane c) :
      t.lane c = (laneEvent c s (.block b)).toList.foldl Lane.next (s.lane c) :=
    directs_lane (x := s.lane c) hb (by rw [ht, ite_self]) (by simp [hcat]) (by simp [hcat])
  cases b with
  | submit type handler | submitWithStatus type handler =>
    obtain rfl := Option.some.inj h
    refine (submit_lane hl hroom type handler).trans ?_
    simp only [laneEvent, Event.submits, hctx, true_and]
    split <;> rfl
  | mount =>
    refine directs_lane (x := (s.lane c).next (.issued .uncounted .mount .void)) rfl ?_ ?_ fun _ => rfl
    · rw [← Option.some.inj h, mount_lane hl]
      refine if_congr ⟨fun hc => ⟨hctx, ?_⟩, fun hc => (Option.some.inj hc.2).symm⟩ rfl rfl
      rw [hc]
      rfl
    · intro _ ev hev
      rw [← Option.some.inj hev]
  | getexports available =>
    refine directs_lane (x := (s.lane c).next (.issued .uncounted .getexports .exports)) rfl ?_ ?_
      fun _ => rfl
    · have hreach : Block.reachesCall s (.getexports available) =
          (available && s.exports.rpcExportsCtx.isNone) := by
        simp only [Block.reachesCall, hctx, Bool.true_and]
      rw [← Option.some.inj h, getexports_lane hl, hreach]
      refine if_congr (and_congr_right fun _ => ⟨fun hc => ?_, fun hc => (Option.some.inj hc).symm⟩) rfl rfl
      rw [hc]
      rfl
    · intro _ ev hev
      rw [← Option.some.inj hev]
  | closeFile i | readFile i | writeFile i | preadFile i | pwriteFile i | fsync i | fstat i
  | ftruncate i | lseek i =>
    exact onHandle rfl (Option.some.inj h) rfl rfl rfl
  | preadIntoBuffer i buffer =>
    simp only [State.runBlock] at h
    split at h
    · cases h
    · exact onHandle rfl (Option.some.inj h) rfl rfl rfl
  | registerHandle opener =>
    refine other rfl rfl ?_
    simp only [State.runBlock] at h
    split at h
    · cases h
    · obtain ⟨fh, -, rfl⟩ := Option.map_eq_some_iff.mp h
      exact lane_congr rfl rfl rfl rfl rfl rfl
  | readdirAll opener =>
    refine other rfl rfl ?_
    simp only [State.runBlock] at h
    split at h
    · cases h
    · obtain ⟨dir, -, rfl⟩ := Option.map_eq_some_iff.mp h
      unfold State.readdirAll
      dsimp only
      split <;> exact lane_congr rfl rfl rfl rfl rfl rfl
  | closeFileFireAndForget i =>
    refine other rfl rfl ?_
    simp only [State.runBlock] at h
    split at h
    · rw [← Option.some.inj h]
      unfold State.closeFileFireAndForget
      split
      · rfl
      · dsimp only
        split <;> exact lane_congr rfl rfl rfl rfl rfl rfl
    · cases h
  | scanForTimeouts =>
    refine other rfl rfl ?_
    rw [← Option.some.inj h]
    exact scanForTimeouts_lane hscan
  | handleIOEvent =>
    refine other rfl rfl ?_
    rw [← Option.some.inj h]
    unfold State.handleIOEvent
    split <;> exact lane_congr rfl rfl rfl rfl rfl rfl
  | handleRpcExportsEvent =>
    refine other rfl rfl ?_
    rw [← Option.some.inj h]
    unfold State.handleRpcExportsEvent
    split <;> exact lane_congr rfl rfl rfl rfl rfl rfl
  | shutdown => cases hshut
  | configure x =>
    refine other rfl rfl ?_
    simp only [State.runBlock] at h
    split at h
    · rename_i s' hs
      obtain rfl := Option.some.inj h
      obtain ⟨-, heq⟩ := configure_ok hs
      rw [heq]
    · rw [← Option.some.inj h]
  | setLogHandler handler =>
    refine other rfl rfl ?_
    rw [← Option.some.inj h]
    unfold State.setLogHandler
    split <;> exact lane_congr rfl rfl rfl rfl rfl rfl

/-! ## libnfs runs a callback -/

theorem Frame.laneCall_noteCallback (f : Frame) (i : Nat) :
    (f.noteCallback i).laneCall c = f.laneCall c := by
  cases f <;> rfl

/-- Only one operation has the id of the callback. -/
theorem eq_of_calledBack (hw : WellFormed s) {x : CallbackData} (hx : x ∈ calledBack s e)
    (hcb : cb ∈ calledBack s e) : x = cb := by
  have created {y : CallbackData} (hy : y ∈ calledBack s e) : y ∈ s.created := by
    refine requested_created hw ?_
    cases e with
    | callback id status data =>
      rcases List.mem_append.mp (List.mem_of_mem_filter hy) with hy | hy
      · obtain ⟨f, hf, hcall⟩ := Option.bind_eq_some_iff.mp (Option.mem_toList.mp hy)
        exact requests_pos_of_holds (.inr ⟨f, List.mem_of_mem_head? hf, hcall⟩)
      · obtain ⟨r, hr, rfl⟩ := List.mem_map.mp hy
        exact requests_pos_of_holds (.inl ⟨r, hr, rfl⟩)
    | _ => cases hy
  refine hw.id_inj x (created hx) cb (created hcb) ?_
  cases e with
  | callback id status data =>
    have hid := of_decide_eq_true (List.mem_filter.mp hx).2
    exact hid.trans (of_decide_eq_true (List.mem_filter.mp hcb).2).symm
  | _ => cases hx

/-- The event of the category that a callback is. -/
theorem laneEvent_callback (hw : WellFormed s) {id : Nat} {status : Int} {data : Option Value}
    (hcb : cb ∈ calledBack s (.callback id status data)) :
    laneEvent c s (.callback id status data) =
      if cb.operationCategory = c then some (.completed (s.replySucceeds cb status data)) else none := by
  have heq (x : CallbackData) (hx : x ∈ calledBack s (.callback id status data)) : x = cb :=
    eq_of_calledBack hw hx hcb
  have hevent : laneEvent c s (.callback id status data) =
      ((calledBack s (.callback id status data)).find? (·.operationCategory = c)).map fun cb =>
        .completed (s.replySucceeds cb status data) := rfl
  rw [hevent]
  by_cases hcat : cb.operationCategory = c
  · have hfound : ((calledBack s (.callback id status data)).find?
        (·.operationCategory = c)).isSome := by
      rw [List.find?_isSome]
      exact ⟨cb, hcb, by simpa using hcat⟩
    obtain ⟨x, hx⟩ := Option.isSome_iff_exists.mp hfound
    rw [if_pos hcat, hx, heq x (List.mem_of_find?_eq_some hx)]
    rfl
  · have hnone : (calledBack s (.callback id status data)).find? (·.operationCategory = c) = none := by
      refine List.find?_eq_none.mpr fun x hx => ?_
      rw [heq x hx]
      simpa using hcat
    rw [if_neg hcat, hnone]
    rfl

/-- A completion is recorded, and the queue is drained for its category. -/
theorem completionHook_lane (halive : s.alive) (hctx : s.context.isSome)
    (hconsistent : ∀ op ∈ s.pendingOperations, op.Consistent)
    (hother : ∀ op ∈ s.pendingOperations, op.category ≠ cb.operationCategory →
      s.hasCapacity op.category = false) (ok : Bool) :
    (s.completionHook cb ok).lane c =
      if cb.operationCategory = c then (s.lane c).next (.completed ok) else s.lane c := by
  obtain ⟨u, hu, hrun⟩ : ∃ u : State, u.toCore = s.toCore ∧ s.completionHook cb ok =
      ((u.removeActive cb.continuationID).recordCompletion cb.operationCategory ok).drainFrom 0 := by
    obtain ⟨x, hx⟩ := Option.isSome_iff_exists.mp hctx
    unfold State.completionHook State.handleCallbackCompletion State.issuePendingOperations
    rw [if_pos halive]
    by_cases hentry : cb.entry = .getexports
    · refine ⟨{ s with exports := { s.exports with rpcExportsDone := true } }, rfl, ?_⟩
      rw [if_pos hentry]
      simp only [State.recordCompletion_eq, State.removeActive, hx]
    · refine ⟨s, rfl, ?_⟩
      rw [if_neg hentry]
      simp only [State.recordCompletion_eq, State.removeActive, hx]
  have hlane : (u.removeActive cb.continuationID).lane c = s.lane c := by
    refine lane_congr ?_ ?_ ?_ ?_ ?_ ?_ <;> dsimp only [State.removeActive, Core.controller] <;> rw [hu]
  generalize hv : u.removeActive cb.continuationID = v at hrun hlane
  have hpending : v.pendingOperations = s.pendingOperations := by rw [← hv, ← hu]; rfl
  have hcap (d : OperationCategory) : v.hasCapacity d = s.hasCapacity d := by rw [← hv, ← hu]; rfl
  -- the queued operations of the other category still have no capacity
  have hother' (op : PendingOperation) (hop : op ∈ s.pendingOperations)
      (hne : op.category ≠ cb.operationCategory) :
      (v.recordCompletion cb.operationCategory ok).hasCapacity op.category = false := by
    rw [recordCompletion_other v ok hne, hcap]
    exact hother op hop hne
  have hrecorded : (v.recordCompletion cb.operationCategory ok).pendingOperations =
      s.pendingOperations := by
    rw [State.recordCompletion_eq]
    exact hpending
  rw [hrun]
  unfold State.drainFrom
  have hfirst : ∀ x ∈ (v.recordCompletion cb.operationCategory ok).pendingOperations.take 0,
      (v.recordCompletion cb.operationCategory ok).hasCapacity x.category = false := by
    intro x hx
    rw [List.take_zero] at hx
    cases hx
  rw [drainLoop_lane (d := cb.operationCategory) (by rwa [hrecorded]) (by rwa [hrecorded]) hfirst
    (by omega)]
  by_cases hcat : cb.operationCategory = c
  · have hnow : (v.recordCompletion cb.operationCategory ok).lane c =
        { s.lane c with
          inFlightCount := max 0 ((s.lane c).inFlightCount - 1)
          controller := (s.lane c).controller.record ok } := by
      rw [← hlane, ← hcat]
      have hcontroller := State.recordCompletion_controller v cb.operationCategory ok cb.operationCategory
      rw [if_pos rfl] at hcontroller
      have hcount : (v.recordCompletion cb.operationCategory ok).inFlightCount cb.operationCategory =
          max 0 (v.inFlightCount cb.operationCategory - 1) := by
        rw [State.recordCompletion_eq]
        exact Function.update_self ..
      unfold Core.lane
      rw [hcontroller, hcount, State.recordCompletion_eq]
      rfl
    rw [if_pos hcat, hnow]
    rfl
  · have hsame : (v.recordCompletion cb.operationCategory ok).lane c = s.lane c := by
      rw [← hlane]
      refine lane_congr ?_ ?_ ?_ ?_ ?_ ?_
      · rw [State.recordCompletion_eq]
      · rw [State.recordCompletion_eq]
        exact Function.update_of_ne (Ne.symm hcat) _ _
      · rw [State.recordCompletion_controller, if_neg hcat]
      all_goals rw [State.recordCompletion_eq]
    rw [if_neg hcat, drain_of_full, hsame]
    intro op hop hopcat
    rw [hrecorded] at hop
    exact hopcat ▸ hother' op hop fun h => hcat (h.symm.trans hopcat)

theorem fireCallback_lane {id : Nat} {status : Int} {data : Option Value} (hl : Laned s)
    (hP : CallsBackApart s (.callback id status data)) (h : s.fireCallback id status data = some t) :
    t.lane c = (laneEvent c s (.callback id status data)).toList.foldl Lane.next (s.lane c) := by
  unfold State.fireCallback at h
  cases hstack : s.stack with
  | nil =>
    rw [hstack] at h
    cases h
  | cons f rest =>
    simp only [hstack, Option.bind_eq_some_iff, Option.map_eq_some_iff] at h
    obtain ⟨⟨cb, s₁⟩, htake, s₂, hnote, rfl⟩ := h
    dsimp only at hnote ⊢
    obtain ⟨rfl, -⟩ := State.takeRequest_cases htake
    obtain ⟨out, fhs, dirs, b, r, -, heq⟩ := State.callback_eq htake hnote
    have hact : Act s.config (.callback f cb status data) _ := .callback hl.up.1 hstack htake hnote
    have hallowed : Allowed s (.callback cb.continuationID status data) s.config
        (.callback f cb status data) := ⟨rfl, rfl⟩
    have hcb : cb ∈ calledBack s (.callback cb.continuationID status data) :=
      (calledBack_of_callback hallowed hact).1
    have hlane : (s₂.enterHook cb status data).lane c = s.lane c := by
      rw [heq]
      refine lane_congr rfl rfl rfl ?_ rfl rfl
      rw [hstack, List.filterMap_cons_none (by rfl), List.filterMap_cons, List.filterMap_cons,
        Frame.laneCall_noteCallback]
    have hw : WellFormed s := hl.sound.wellFormed
    rw [State.runCallback_eq, replySucceeds_eq s₂ s, laneEvent_callback hw hcb,
      completionHook_lane, hlane]
    · split <;> rfl
    · rw [heq]
      exact hl.up.1
    · rw [heq]
      exact hl.up.2
    · rw [heq]
      exact hl.sound.wellFormed.pending_op
    · intro op hop hne
      rw [heq] at hop ⊢
      exact hl.one.callback hl.full hP hl.up.1 hl.up.2 hallowed hact rfl hop hne

/-! ## libnfs returns -/

/-- What is done to the lane when its innermost call returns. -/
def Lane.pop (l : Lane) (rest : List LaneCall) (accepted : Bool) : LaneCall → Lane
  | .counted =>
    { l with calls := rest, inFlightCount := if accepted then l.inFlightCount + 1 else l.inFlightCount }
  | .uncounted => { l with calls := rest }
  | .deferred =>
    { l with
      calls := rest
      inFlightCount := if accepted then l.inFlightCount else l.inFlightCount - 1 }.drain

theorem Lane.next_returned {l : Lane} {call : LaneCall} {rest : List LaneCall} (h : l.calls = call :: rest)
    (accepted : Bool) : l.next (.returned accepted) = l.pop rest accepted call := by
  simp only [Lane.next, h]
  cases call <;> rfl

/-- A call that handed an operation over is over, and the count of its category is now `n`. -/
theorem lane_of_pop {n : Int} (hstack : s.stack = .handOver site cb ran :: rest)
    (hpending : t.pendingOperations = s.pendingOperations) (hcontroller : t.controller c = s.controller c)
    (hcalls : t.stack.filterMap (Frame.laneCall c) = rest.filterMap (Frame.laneCall c))
    (hhanded : t.handOvers = s.handOvers) (hcreated : t.created = s.created)
    (hcount : t.inFlightCount c = if cb.operationCategory = c then n else s.inFlightCount c) :
    t.lane c = if cb.operationCategory = c then
        { s.lane c with calls := rest.filterMap (Frame.laneCall c), inFlightCount := n }
      else s.lane c := by
  have hoperation : t.laneOperation c = s.laneOperation c := by
    funext cb
    unfold Core.laneOperation
    rw [hcreated]
  by_cases hcat : cb.operationCategory = c
  · rw [if_pos hcat] at hcount ⊢
    unfold Core.lane
    rw [hoperation, hpending, hcount, hcontroller, hcalls, hhanded, hcreated]
  · rw [if_neg hcat] at hcount ⊢
    refine lane_congr hpending hcount hcontroller ?_ hhanded hcreated
    rw [hcalls, hstack, List.filterMap_cons_none (by simp [Frame.laneCall, hcat])]

theorem lane_calls (hstack : s.stack = .handOver site cb ran :: rest) (hcat : cb.operationCategory = c) :
    (s.lane c).calls = site.laneCall :: rest.filterMap (Frame.laneCall c) := by
  unfold Core.lane
  rw [hstack, List.filterMap_cons_some (b := site.laneCall) (by simp [Frame.laneCall, hcat])]

/-- The call of an operation that was issued in its own queue block is over. -/
theorem issued_lane {accepted : Bool} (hstack : s.stack = .handOver site cb ran :: rest)
    (hpending : t.pendingOperations = s.pendingOperations) (hcontroller : t.controller c = s.controller c)
    (hcalls : t.stack.filterMap (Frame.laneCall c) = rest.filterMap (Frame.laneCall c))
    (hhanded : t.handOvers = s.handOvers) (hcreated : t.created = s.created)
    (hsite : site.isPending = false)
    (hcount : t.inFlightCount = if accepted ∧ site.countsLate then
        Function.update s.inFlightCount cb.operationCategory (s.inFlightCount cb.operationCategory + 1)
      else s.inFlightCount) :
    t.lane c = if cb.operationCategory = c then (s.lane c).next (.returned accepted) else s.lane c := by
  rw [lane_of_pop (n := t.inFlightCount c) hstack hpending hcontroller hcalls hhanded hcreated]
  · refine if_ctx_congr Iff.rfl (fun hcat => ?_) fun _ => rfl
    rw [Lane.next_returned (lane_calls hstack hcat), hcount]
    subst hcat
    cases site with
    | pending => cases hsite
    | _ => cases accepted <;> simp [Site.countsLate, Site.laneCall, Lane.pop, Core.lane]
  · by_cases hcat : cb.operationCategory = c
    · rw [if_pos hcat]
    · rw [if_neg hcat, hcount]
      split
      · exact Function.update_of_ne (Ne.symm hcat) _ _
      · rfl

/-- The call of a deferred operation is over, and the drain goes on. -/
theorem deferred_lane (accepted : Bool) (hl : Laned s) {i : Nat} {op : PendingOperation}
    (hstack : s.stack = .handOver (.pending i op) cb ran :: rest)
    (hpending : t.pendingOperations = s.pendingOperations)
    (hcontroller : ∀ d, t.controller d = s.controller d)
    (hcalls : t.stack = rest) (hhanded : t.handOvers = s.handOvers) (hcreated : t.created = s.created)
    (hcount : t.inFlightCount = Function.update s.inFlightCount op.category
      (if accepted then s.inFlightCount op.category else s.inFlightCount op.category - 1))
    (hpassed : ∀ x ∈ s.pendingOperations.take i, t.hasCapacity x.category = false) :
    (t.drainFrom i).lane c =
      if cb.operationCategory = c then (s.lane c).next (.returned accepted) else s.lane c := by
  have hw : WellFormed s := hl.sound.wellFormed
  obtain ⟨hop, hconsistent⟩ := hw.frame_op i op cb ran (hstack ▸ List.mem_cons_self ..)
  have hopcat : op.category = cb.operationCategory := hop ▸ hconsistent.category_eq
  -- the queued operations of the other category have no capacity
  have hother (x : PendingOperation) (hx : x ∈ s.pendingOperations) (hne : x.category ≠ op.category) :
      t.hasCapacity x.category = false := by
    have hone := hl.one hl.up.1 hl.up.2 op.category
      (by rw [show s.config.state.stack = _ from hstack]; rfl) x hx hne
    unfold Core.hasCapacity at hone ⊢
    rwa [hcontroller, hcount, Function.update_of_ne hne]
  have hn : t.inFlightCount op.category =
      if accepted then s.inFlightCount op.category else s.inFlightCount op.category - 1 := by
    rw [hcount, Function.update_self]
  unfold State.drainFrom
  rw [drainLoop_lane (d := op.category) (by rw [hpending]; exact hw.pending_op) (by rwa [hpending])
    (by rwa [hpending]) (by omega)]
  have hlane := lane_of_pop (c := c) (n := t.inFlightCount op.category) hstack hpending (hcontroller c)
    (by rw [hcalls]) hhanded hcreated (by
      by_cases hcat : cb.operationCategory = c
      · rw [if_pos hcat, ← hcat, hopcat]
      · rw [if_neg hcat, hcount, Function.update_of_ne (fun h => hcat (hopcat ▸ h.symm))])
  by_cases hcat : cb.operationCategory = c
  · rw [if_pos hcat] at hlane ⊢
    rw [hlane, hn, Lane.next_returned (lane_calls hstack hcat), hopcat, hcat]
    rfl
  · rw [if_neg hcat] at hlane ⊢
    rw [drain_of_full, hlane]
    intro x hx hxc
    rw [hpending] at hx
    exact hxc ▸ hother x hx fun h => hcat (hopcat ▸ h ▸ hxc)

theorem rejected_lane (hl : Laned s) {rc : Int} {view : LibView} (hrc : rc < 0)
    (hP : RefusesInOrder true s (.ret rc view)) (hstack : s.stack = .handOver site cb ran :: rest)
    (hu : u.toCore = (s.leaveTo rest).toCore) :
    (u.rejected site cb rc).lane c =
      if cb.operationCategory = c then (s.lane c).next (.returned false) else s.lane c := by
  have hpending : u.pendingOperations = s.pendingOperations := (congrArg Core.pendingOperations hu :)
  have hcontroller (d : OperationCategory) : u.controller d = s.controller d :=
    (congrArg (fun x : Core => x.controller d) hu :)
  have hcalls : u.stack = rest := (congrArg Core.stack hu :)
  have hhanded : u.handOvers = s.handOvers := (congrArg Core.handOvers hu :)
  have hcreated : u.created = s.created := (congrArg Core.created hu :)
  have hcount : u.inFlightCount = s.inFlightCount := (congrArg Core.inFlightCount hu :)
  unfold State.rejected
  cases site with
  | pending i op =>
    dsimp only
    refine deferred_lane false hl hstack ?_ (fun d => ?_) ?_ ?_ ?_ ?_ fun x hx => ?_
    all_goals
      simp only [State.updateWriteSource_toCore, State.resume_eq, State.removeActive, State.release,
        State.addInFlight, State.setFate]
    · exact hpending
    · exact hcontroller d
    · exact hcalls
    · exact hhanded
    · exact hcreated
    · rw [hcount]
      rfl
    · have hfull := hP (i, op) (by simp [refusedPending, hstack, hrc]) x hx rfl
      refine Eq.trans ?_ hfull
      unfold Core.hasCapacity State.addInFlight
      dsimp only
      rw [hcount]
      exact congrArg (fun d => decide (_ < d)) (congrArg _ (hcontroller x.category))
  | issueOperation =>
    refine issued_lane hstack ?_ ?_ ?_ ?_ ?_ rfl ?_ <;>
      simp only [State.resume_eq, State.removeActive, State.release, State.setFate]
    · exact hpending
    · exact hcontroller c
    · rw [hcalls]
    · exact hhanded
    · exact hcreated
    · exact hcount
  | handleOperation =>
    refine issued_lane hstack ?_ ?_ ?_ ?_ ?_ rfl ?_ <;>
      simp only [State.resumeContinuation, State.removeActive, State.release, State.runCleanup_eq,
        State.setFate]
    · exact hpending
    · exact hcontroller c
    · rw [hcalls]
    · exact hhanded
    · exact hcreated
    · exact hcount
  | mount =>
    exact issued_lane hstack hpending (hcontroller c) (by rw [← hcalls]; rfl) hhanded hcreated rfl hcount
  | getexports n =>
    rw [cleanupRpcExports_lane (by simp)]
    exact issued_lane hstack hpending (hcontroller c) (by rw [← hcalls]; rfl) hhanded hcreated rfl hcount

theorem accepted_lane (hl : Laned s) (hstack : s.stack = .handOver site cb ran :: rest)
    (hu : u.toCore = (s.leaveTo rest).toCore) :
    ((u.enqueueRequest site.ctx cb ran).accepted site cb).lane c =
      if cb.operationCategory = c then (s.lane c).next (.returned true) else s.lane c := by
  have hpending : u.pendingOperations = s.pendingOperations := (congrArg Core.pendingOperations hu :)
  have hcontroller (d : OperationCategory) : u.controller d = s.controller d :=
    (congrArg (fun x : Core => x.controller d) hu :)
  have hcalls : u.stack = rest := (congrArg Core.stack hu :)
  have hhanded : u.handOvers = s.handOvers := (congrArg Core.handOvers hu :)
  have hcreated : u.created = s.created := (congrArg Core.created hu :)
  have hcount : u.inFlightCount = s.inFlightCount := (congrArg Core.inFlightCount hu :)
  rw [State.enqueueRequest_eq]
  unfold State.accepted
  cases site with
  | pending i op =>
    dsimp only
    refine deferred_lane true hl hstack ?_ (fun d => ?_) ?_ ?_ ?_ ?_ fun x hx => ?_
    all_goals simp only [State.updateWriteSource_toCore]
    · exact hpending
    · exact hcontroller d
    · exact hcalls
    · exact hhanded
    · exact hcreated
    · rw [hcount, if_pos trivial, Function.update_eq_self]
    · have hfull := hl.full hl.up.1 hl.up.2 x ?_ rfl
      · refine Eq.trans ?_ hfull
        unfold Core.hasCapacity
        rw [hcount]
        exact congrArg (fun d => decide (_ < d)) (congrArg _ (hcontroller x.category))
      · unfold Config.passed Config.index
        rw [show s.config.mode = .idle from rfl, show s.config.state.stack = _ from hstack]
        exact hx
  | issueOperation | handleOperation =>
    dsimp only
    refine issued_lane hstack ?_ ?_ ?_ ?_ ?_ rfl ?_
    all_goals simp only [State.updateWriteSource_toCore, State.addInFlight]
    · exact hpending
    · exact hcontroller c
    · rw [hcalls]
    · exact hhanded
    · exact hcreated
    · rw [hcount]
      rfl
  | mount =>
    dsimp only
    split
    · refine issued_lane hstack ?_ ?_ ?_ ?_ ?_ rfl ?_ <;> simp only [State.updateWriteSource_toCore]
      · exact hpending
      · exact hcontroller c
      · rw [hcalls]
      · exact hhanded
      · exact hcreated
      · exact hcount
    · exact issued_lane hstack hpending (hcontroller c) (by rw [← hcalls]) hhanded hcreated rfl hcount
  | getexports n =>
    dsimp only
    split <;>
      exact issued_lane hstack hpending (hcontroller c) (by rw [← hcalls]) hhanded hcreated rfl hcount

/-- After `nfs_service` the queue is looked at, and nothing in it has capacity. -/
theorem serviced_lane (hl : Laned s) {rc : Int} (hrc : ¬ rc < 0) (hstack : s.stack = .service :: rest)
    (hu : u.toCore = (s.leaveTo rest).toCore) : (u.serviced rc).lane c = s.lane c := by
  have hw : WellFormed s := hl.sound.wellFormed
  have hfull (op : PendingOperation) (hop : op ∈ s.pendingOperations) :
      s.hasCapacity op.category = false := by
    refine hl.full hl.up.1 hl.up.2 op ?_ rfl
    rw [Config.passed_of_index]
    · exact hop
    · show s.stack.head?.bind Frame.loopIndex = none
      rw [hstack]
      rfl
  have hdrained (v : State) (hv : v.toCore = u.toCore) : (v.updateWriteSource.issuePendingOperations).lane c =
      s.lane c := by
    have hcore : v.updateWriteSource.toCore = (s.leaveTo rest).toCore := by
      rw [State.updateWriteSource_toCore, hv, hu]
    generalize v.updateWriteSource = x at hcore
    have hpending : x.pendingOperations = s.pendingOperations :=
      (congrArg Core.pendingOperations hcore :)
    have hcap (d : OperationCategory) : x.hasCapacity d = s.hasCapacity d :=
      (congrArg (fun y : Core => y.hasCapacity d) hcore :)
    have hlane : x.lane c = s.lane c := by
      refine lane_congr hpending (congrArg (fun y : Core => y.inFlightCount c) hcore :)
        (congrArg (fun y : Core => y.controller c) hcore :) ?_ (congrArg Core.handOvers hcore :)
        (congrArg Core.created hcore :)
      rw [(congrArg Core.stack hcore : x.stack = rest), hstack]
      exact (List.filterMap_cons_none rfl).symm
    obtain ⟨y, hy⟩ := Option.isSome_iff_exists.mp hl.up.2
    have hctx : x.context = some y := (congrArg Core.context hcore).trans hy
    have hfull' (op : PendingOperation) (hop : op ∈ x.pendingOperations) :
        x.hasCapacity op.category = false := by
      rw [hcap]
      exact hfull op (hpending ▸ hop)
    unfold State.issuePendingOperations State.drainFrom
    rw [hctx]
    dsimp only
    rw [drainLoop_lane (d := .bulk) (by rw [hpending]; exact hw.pending_op) (fun op hop _ => hfull' op hop)
      (fun op hop => hfull' op (List.mem_of_mem_take hop)) (by omega), drain_of_full, hlane]
    intro op hop hcat
    exact hcat ▸ hfull' op hop
  unfold State.serviced
  rw [if_neg hrc]
  dsimp only
  split
  · exact hdrained _ rfl
  · exact hdrained _ rfl

theorem rpcServiced_lane {rc : Int} : (s.rpcServiced rc).lane c = s.lane c := by
  unfold State.rpcServiced
  split
  · exact cleanupRpcExports_lane (by simp)
  split
  · exact cleanupRpcExports_lane (by simp)
  · exact lane_congr rfl rfl rfl rfl rfl rfl

theorem returnFromCall_lane (hl : Laned s) {rc : Int} {view : LibView}
    (htears : s.tearsDown (.ret rc view) = false) (hP : RefusesInOrder true s (.ret rc view))
    (h : s.returnFromCall rc view = some t) :
    t.lane c = (laneEvent c s (.ret rc view)).toList.foldl Lane.next (s.lane c) := by
  have hview (s' : State) (ctx : Ctx) : (s'.setView ctx view).toCore = s'.toCore :=
    State.setView_toCore s' ctx view
  have hevent (hnone : ∀ site cb ran rest, s.stack ≠ .handOver site cb ran :: rest) :
      laneEvent c s (.ret rc view) = none := by
    unfold laneEvent
    dsimp only
    split
    · rename_i hstack
      exact absurd hstack (hnone _ _ _ _)
    · rfl
  -- a call that hands nothing over is left
  have left {f : Frame} {rest : List Frame} (hstack : s.stack = f :: rest) (hf : f.laneCall c = none)
      {v : State} (hv : v.toCore = (s.leaveTo rest).toCore) : v.lane c = s.lane c := by
    refine lane_congr (congrArg Core.pendingOperations hv :)
      (congrArg (fun y : Core => y.inFlightCount c) hv :)
      (congrArg (fun y : Core => y.controller c) hv :) ?_ (congrArg Core.handOvers hv :)
      (congrArg Core.created hv :)
    rw [(congrArg Core.stack hv : v.stack = rest), hstack]
    exact (List.filterMap_cons_none hf).symm
  unfold State.returnFromCall at h
  split at h
  · cases h
  · cases h
  · rename_i site cb ran rest hstack
    have hu : (({ s with stack := rest } : State).setView site.ctx view).toCore = (s.leaveTo rest).toCore :=
      hview _ _
    have hret : laneEvent c s (.ret rc view) =
        if cb.operationCategory = c then some (.returned (0 ≤ rc)) else none := by
      unfold laneEvent
      rw [hstack]
    rw [hret]
    dsimp only at h
    split at h
    · rename_i hrc
      split at h
      · cases h
      · rw [← Option.some.inj h, rejected_lane hl hrc hP hstack hu, decide_eq_false (by omega)]
        split <;> rfl
    · rename_i hrc
      rw [← Option.some.inj h, accepted_lane hl hstack hu, decide_eq_true (by omega)]
      split <;> rfl
  · rename_i rest hstack
    have hrc : ¬ rc < 0 := by simpa [State.tearsDown, hstack] using htears
    rw [hevent (by simp [hstack]), ← Option.some.inj h]
    exact serviced_lane hl hrc hstack (hview _ _)
  · rename_i n rest hstack
    rw [hevent (by simp [hstack]), ← Option.some.inj h]
    exact rpcServiced_lane.trans (left hstack rfl (hview _ _))
  · rename_i fh rest hstack
    rw [hevent (by simp [hstack]), ← Option.some.inj h]
    exact left hstack rfl (hview _ _)
  · rename_i n next rest hstack
    rw [hevent (by simp [hstack]), ← Option.some.inj h]
    cases next with
    | performShutdown => simp [State.tearsDown, hstack] at htears
    | done =>
      refine Eq.trans ?_ (left hstack rfl rfl)
      exact lane_congr rfl rfl rfl rfl rfl rfl
    | getexports cb =>
      refine Eq.trans ?_ (left hstack rfl rfl)
      exact lane_congr rfl rfl rfl rfl rfl rfl
  · rename_i kind conts rest hstack
    have hnone := hl.sound.ending.destroyed kind conts
      (by rw [show s.config.state.stack = _ from hstack]; exact List.mem_cons_self ..)
    have hsome : s.config.state.context.isSome := hl.up.2
    rw [hnone] at hsome
    cases hsome

/-! ## Runs -/

/-- Every step moves the lane of a category as the event says. -/
theorem step_lane (hl : Laned s) (hP : Undisturbed s e ∧ DrainsApart s e) (h : step s e = some t) :
    t.lane c = (laneEvent c s e).toList.foldl Lane.next (s.lane c) := by
  obtain ⟨hundisturbed, hinOrder, happart⟩ := hP
  cases e with
  | block b =>
    simp only [step] at h
    split at h
    · exact runBlock_lane hl hundisturbed h
    · cases h
  | callback id status data => exact fireCallback_lane hl happart h
  | ret rc view => exact returnFromCall_lane hl hundisturbed.2.2.1 hinOrder h
  | tick d =>
    rw [← Option.some.inj h]
    exact lane_congr rfl rfl rfl rfl rfl rfl
  | releaseBuffer b =>
    simp only [step] at h
    split at h
    · rw [← Option.some.inj h]
      exact lane_congr rfl rfl rfl rfl rfl rfl
    · cases h
  | deinit onQueue => cases hundisturbed.2.1

theorem laned_of_reaches {timeout : Int}
    (h : Reaches step (fun s e => Undisturbed s e ∧ DrainsApart s e) (State.init timeout) t) : Laned t :=
  h.invariant (laned_init timeout) fun _ _ _ hl hP hs => hl.step hP hs

/-- The lane of a category after a run is what its events make of the lane at the start. -/
theorem lane_of_traces {timeout : Int} {events : List LaneEvent}
    (h : Traces step (laneEvent c) (fun s e => Undisturbed s e ∧ DrainsApart s e) (State.init timeout)
      events t) :
    t.lane c = events.foldl Lane.next ((State.init timeout).lane c) :=
  h.view_eq fun _ _ _ hs hP hstep => step_lane (laned_of_reaches hs) hP hstep

theorem init_lane (timeout : Int) : (State.init timeout).lane c = {} := by cases c <;> rfl

/-- The loop refines two separate pipelines: in a run that is undisturbed and whose drains stay apart, the
count, the controller, the queue, the calls in progress and the operations handed to libnfs of a category
are those of a lane by itself that has seen the events of the category and no others. -/
theorem pipeline_refines_lane {timeout : Int} {events : List LaneEvent}
    (h : Traces step (laneEvent c) (fun s e => Undisturbed s e ∧ DrainsApart s e) (State.init timeout)
      events t) :
    t.lane c = events.foldl Lane.next {} := by
  rw [lane_of_traces h, init_lane]

/-- Three reads on a mounted loop, of which the last waits for the first to be called back, among three
stats; half the timeout passes, and a scan finds nothing to expire. -/
theorem pipeline_refines_lane_read :
    ∃ t, run step (State.init 60000000000) (mountEvents ++
      [.block (.submitWithStatus .read .byteCount), .ret 0 .connected, .block Block.stat,
        .ret 0 .connected, .block (.submitWithStatus .read .byteCount), .ret 0 .connected,
        .block Block.stat, .ret 0 .connected, .tick 30000000000, .block .scanForTimeouts,
        .block (.submitWithStatus .read .byteCount), .block Block.stat, .ret 0 .connected,
        .block .handleIOEvent, .callback 2 4096 none, .ret 0 .connected, .ret 0 .connected]) = some t ∧
      t.lane .bulk = [.submitted .read .byteCount, .returned true, .submitted .read .byteCount,
        .returned true, .submitted .read .byteCount, .completed true,
        .returned true].foldl Lane.next {} := by
  have hrun : (run step (State.init 60000000000) (mountEvents ++
      [.block (.submitWithStatus .read .byteCount), .ret 0 .connected, .block Block.stat,
        .ret 0 .connected, .block (.submitWithStatus .read .byteCount), .ret 0 .connected,
        .block Block.stat, .ret 0 .connected, .tick 30000000000, .block .scanForTimeouts,
        .block (.submitWithStatus .read .byteCount), .block Block.stat, .ret 0 .connected,
        .block .handleIOEvent, .callback 2 4096 none, .ret 0 .connected,
        .ret 0 .connected])).isSome = true := by
    decide +kernel
  have hapart : meets step (fun s e => decide (Undisturbed s e ∧ DrainsApart s e))
      (State.init 60000000000) (mountEvents ++
      [.block (.submitWithStatus .read .byteCount), .ret 0 .connected, .block Block.stat,
        .ret 0 .connected, .block (.submitWithStatus .read .byteCount), .ret 0 .connected,
        .block Block.stat, .ret 0 .connected, .tick 30000000000, .block .scanForTimeouts,
        .block (.submitWithStatus .read .byteCount), .block Block.stat, .ret 0 .connected,
        .block .handleIOEvent, .callback 2 4096 none, .ret 0 .connected, .ret 0 .connected]) = true := by
    decide +kernel
  have hlabels : labelsOf step (laneEvent .bulk) (State.init 60000000000) (mountEvents ++
      [.block (.submitWithStatus .read .byteCount), .ret 0 .connected, .block Block.stat,
        .ret 0 .connected, .block (.submitWithStatus .read .byteCount), .ret 0 .connected,
        .block Block.stat, .ret 0 .connected, .tick 30000000000, .block .scanForTimeouts,
        .block (.submitWithStatus .read .byteCount), .block Block.stat, .ret 0 .connected,
        .block .handleIOEvent, .callback 2 4096 none, .ret 0 .connected, .ret 0 .connected]) =
      [.submitted .read .byteCount, .returned true, .submitted .read .byteCount, .returned true,
        .submitted .read .byteCount, .completed true, .returned true] := by
    decide +kernel
  obtain ⟨t, ht⟩ := Option.isSome_iff_exists.mp hrun
  have htraces : Traces step (laneEvent .bulk) (fun s e => Undisturbed s e ∧ DrainsApart s e)
      (State.init 60000000000) _ t := traces_of_run (fun _ _ => of_decide_eq_true) ht hapart
  rw [hlabels] at htraces
  exact ⟨t, ht, pipeline_refines_lane htraces⟩

/-! ## Two runs -/

/-- Two undisturbed runs whose drains stay apart, and in which the events of a category are the same: they
agree on the category's count, controller and queue and on the operations handed to libnfs, whatever the
events of the other category. (Both runs may end after any of these events.) -/
theorem pipelines_independent {timeout timeout' : Int} {events : List LaneEvent}
    (h : Traces step (laneEvent c) (fun s e => Undisturbed s e ∧ DrainsApart s e) (State.init timeout)
      events s)
    (h' : Traces step (laneEvent c) (fun s e => Undisturbed s e ∧ DrainsApart s e) (State.init timeout')
      events t) :
    s.lane c = t.lane c := by
  rw [lane_of_traces h, lane_of_traces h', init_lane, init_lane]

/-- Three reads among a mount and three stats, and the same reads alone. -/
theorem pipelines_independent_reads :
    ∃ s t, run step (State.init 0) (mountEvents ++
        [.block (.submitWithStatus .read .byteCount), .ret 0 .connected, .block Block.stat,
          .ret 0 .connected, .block (.submitWithStatus .read .byteCount), .ret 0 .connected,
          .block Block.stat, .ret 0 .connected, .block (.submitWithStatus .read .byteCount),
          .block Block.stat, .ret 0 .connected, .block .handleIOEvent, .callback 3 (-2) none,
          .callback 2 4096 none, .ret 0 .connected, .ret 0 .connected]) = some s ∧
      run step (State.init 0)
        [.block (.submitWithStatus .read .byteCount), .ret 0 .connected,
          .block (.submitWithStatus .read .byteCount), .ret 0 .connected,
          .block (.submitWithStatus .read .byteCount), .block .handleIOEvent, .callback 1 4096 none,
          .ret 0 .connected] = some t ∧
      s.lane .bulk = t.lane .bulk := by
  have hruns : ((run step (State.init 0) (mountEvents ++
        [.block (.submitWithStatus .read .byteCount), .ret 0 .connected, .block Block.stat,
          .ret 0 .connected, .block (.submitWithStatus .read .byteCount), .ret 0 .connected,
          .block Block.stat, .ret 0 .connected, .block (.submitWithStatus .read .byteCount),
          .block Block.stat, .ret 0 .connected, .block .handleIOEvent, .callback 3 (-2) none,
          .callback 2 4096 none, .ret 0 .connected, .ret 0 .connected])).isSome &&
      (run step (State.init 0)
        [.block (.submitWithStatus .read .byteCount), .ret 0 .connected,
          .block (.submitWithStatus .read .byteCount), .ret 0 .connected,
          .block (.submitWithStatus .read .byteCount), .block .handleIOEvent, .callback 1 4096 none,
          .ret 0 .connected]).isSome) = true := by
    decide +kernel
  have hapart : (meets step (fun s e => decide (Undisturbed s e ∧ DrainsApart s e)) (State.init 0)
      (mountEvents ++
        [.block (.submitWithStatus .read .byteCount), .ret 0 .connected, .block Block.stat,
          .ret 0 .connected, .block (.submitWithStatus .read .byteCount), .ret 0 .connected,
          .block Block.stat, .ret 0 .connected, .block (.submitWithStatus .read .byteCount),
          .block Block.stat, .ret 0 .connected, .block .handleIOEvent, .callback 3 (-2) none,
          .callback 2 4096 none, .ret 0 .connected, .ret 0 .connected]) &&
      meets step (fun s e => decide (Undisturbed s e ∧ DrainsApart s e)) (State.init 0)
        [.block (.submitWithStatus .read .byteCount), .ret 0 .connected,
          .block (.submitWithStatus .read .byteCount), .ret 0 .connected,
          .block (.submitWithStatus .read .byteCount), .block .handleIOEvent, .callback 1 4096 none,
          .ret 0 .connected]) = true := by
    decide +kernel
  have hlabels : labelsOf step (laneEvent .bulk) (State.init 0) (mountEvents ++
        [.block (.submitWithStatus .read .byteCount), .ret 0 .connected, .block Block.stat,
          .ret 0 .connected, .block (.submitWithStatus .read .byteCount), .ret 0 .connected,
          .block Block.stat, .ret 0 .connected, .block (.submitWithStatus .read .byteCount),
          .block Block.stat, .ret 0 .connected, .block .handleIOEvent, .callback 3 (-2) none,
          .callback 2 4096 none, .ret 0 .connected, .ret 0 .connected]) =
      labelsOf step (laneEvent .bulk) (State.init 0)
        [.block (.submitWithStatus .read .byteCount), .ret 0 .connected,
          .block (.submitWithStatus .read .byteCount), .ret 0 .connected,
          .block (.submitWithStatus .read .byteCount), .block .handleIOEvent, .callback 1 4096 none,
          .ret 0 .connected] := by
    decide +kernel
  rw [Bool.and_eq_true] at hruns hapart
  obtain ⟨s, hs⟩ := Option.isSome_iff_exists.mp hruns.1
  obtain ⟨t, ht⟩ := Option.isSome_iff_exists.mp hruns.2
  have hmixed : Traces step (laneEvent .bulk) (fun s e => Undisturbed s e ∧ DrainsApart s e)
      (State.init 0) _ s := traces_of_run (fun _ _ => of_decide_eq_true) hs hapart.1
  have halone : Traces step (laneEvent .bulk) (fun s e => Undisturbed s e ∧ DrainsApart s e)
      (State.init 0) _ t := traces_of_run (fun _ _ => of_decide_eq_true) ht hapart.2
  rw [hlabels] at hmixed
  exact ⟨s, t, hs, ht, pipelines_independent hmixed halone⟩

/-- Two reads are in flight and a third waits. Eight stats fail inside the call that closes a handle, which
hands a queued unlink over; inside the call of the unlink a read is called back and the third is handed
over. Then the unlink is refused. -/
def entangledEvents : List Event :=
  openEvents 7 ++
    [.block (.submit .read .void), .ret 0 .connected, .block (.submit .read .void), .ret 0 .connected,
      .block (.submit .read .void), .block Block.stat, .ret 0 .connected, .block Block.stat,
      .ret 0 .connected, .block Block.stat, .ret 0 .connected, .block Block.stat, .ret 0 .connected,
      .block Block.stat, .ret 0 .connected, .block Block.stat, .ret 0 .connected, .block Block.stat,
      .ret 0 .connected, .block Block.stat, .ret 0 .connected, .block Block.unlink, .block Block.stat,
      .block (.closeFileFireAndForget 1), .callback 6 (-5) none, .callback 7 (-5) none,
      .callback 8 (-5) none, .callback 9 (-5) none, .callback 10 (-5) none, .callback 11 (-5) none,
      .callback 12 (-5) none, .callback 13 (-5) none, .callback 3 0 none, .ret 0 .connected,
      .ret (-5) .connected]

/-- The same without the reads. -/
def disentangledEvents : List Event :=
  openEvents 7 ++
    [.block Block.stat, .ret 0 .connected, .block Block.stat, .ret 0 .connected, .block Block.stat,
      .ret 0 .connected, .block Block.stat, .ret 0 .connected, .block Block.stat, .ret 0 .connected,
      .block Block.stat, .ret 0 .connected, .block Block.stat, .ret 0 .connected, .block Block.stat,
      .ret 0 .connected, .block Block.unlink, .block Block.stat, .block (.closeFileFireAndForget 1),
      .callback 3 (-5) none, .callback 4 (-5) none, .callback 5 (-5) none, .callback 6 (-5) none,
      .callback 7 (-5) none, .callback 8 (-5) none, .callback 9 (-5) none, .callback 10 (-5) none,
      .ret (-5) .connected]

/-- Both runs are undisturbed and have the same metadata events. With the reads, the stat behind the unlink
stays in the queue; without them it is handed over. -/
theorem pipelines_entangled :
    ∃ s t, run step (State.init 0) entangledEvents = some s ∧
      run step (State.init 0) disentangledEvents = some t ∧
      meets step (fun s e => decide (Undisturbed s e)) (State.init 0) entangledEvents ∧
      meets step (fun s e => decide (Undisturbed s e)) (State.init 0) disentangledEvents ∧
      labelsOf step (laneEvent .metadata) (State.init 0) entangledEvents =
        labelsOf step (laneEvent .metadata) (State.init 0) disentangledEvents ∧
      (s.lane .metadata).queued.length = 1 ∧ (s.lane .metadata).handedOver.length = 11 ∧
      (t.lane .metadata).queued = [] ∧ (t.lane .metadata).handedOver.length = 12 := by
  have hmixed : ((run step (State.init 0) entangledEvents).any fun s =>
      (s.lane .metadata).queued.length = 1 ∧ (s.lane .metadata).handedOver.length = 11) = true := by
    decide +kernel
  have halone : ((run step (State.init 0) disentangledEvents).any fun t =>
      (t.lane .metadata).queued = [] ∧ (t.lane .metadata).handedOver.length = 12) = true := by
    decide +kernel
  obtain ⟨s, hs, hstays⟩ := (Option.any_eq_true _ _).mp hmixed
  obtain ⟨t, ht, hgoes⟩ := (Option.any_eq_true _ _).mp halone
  obtain ⟨hqueued, hhanded⟩ := of_decide_eq_true hstays
  obtain ⟨hempty, hhanded'⟩ := of_decide_eq_true hgoes
  exact ⟨s, t, hs, ht, by decide +kernel, by decide +kernel, by decide +kernel, hqueued, hhanded, hempty,
    hhanded'⟩

end NFSKit
