import NFSKit.EventLoop.Proofs.DeadlineProofs
import NFSKit.EventLoop.Proofs.TeardownProofs

/-!
# The export query in time

A query keeps later ones off until its context is given up. That happens when it is answered, or else at the
first scan that finds it due, so it does not hold longer than a caller waits.
-/

namespace NFSKit

open Machine

variable {s t u : State} {e : Event}

/-- What becomes of the export query in a step. -/
inductive QueryStep (s t : State) : Prop where
  | kept (hctx : t.exports.rpcExportsCtx = s.exports.rpcExportsCtx)
      (hid : t.exports.rpcExportsContID = s.exports.rpcExportsContID) : QueryStep s t
  /-- Its context is given up, if there is one. -/
  | closed (hctx : t.exports.rpcExportsCtx = none) : QueryStep s t
  /-- A query starts. -/
  | opened (cb : CallbackData) (hcb : cb ∈ t.created) (hentry : cb.entry = .getexports)
      (hid : t.exports.rpcExportsContID = some cb.continuationID) (hstart : cb.startTime = s.clock) :
      QueryStep s t

namespace QueryStep

theorem of_outskirts (h : t.outskirts = s.outskirts) : QueryStep s t :=
  .kept (congrArg (fun o => o.exports.rpcExportsCtx) h)
    (congrArg (fun o => o.exports.rpcExportsContID) h)

theorem of_exports (h : t.exports = s.exports) : QueryStep s t :=
  .kept (congrArg RpcExports.rpcExportsCtx h) (congrArg RpcExports.rpcExportsContID h)

/-- What is done, seen from a state with the same query. -/
theorem congr (h : QueryStep u t) (hexports : u.exports = s.exports) (hclock : u.clock = s.clock) :
    QueryStep s t := by
  cases h with
  | kept hctx hid => exact .kept (hctx.trans (by rw [hexports])) (hid.trans (by rw [hexports]))
  | closed hctx => exact .closed hctx
  | opened cb hcb hentry hid hstart => exact .opened cb hcb hentry hid (hstart.trans hclock)

end QueryStep

/-! ## Teardown and timeouts -/

theorem destroyContext_query (s : State) (kind : Teardown) :
    (s.destroyContext kind).exports = s.exports := by
  unfold State.destroyContext
  cases hctx : s.context with
  | some ctx => cases kind <;> rfl
  | none =>
    cases kind
    all_goals
      dsimp only
      obtain ⟨bulk, metadata, counts, heq⟩ := State.endTeardown_eq _ _ _
      rw [heq, State.foldl_resume_eq]

/-- After `cleanupRpcExports` there is no query. -/
theorem cleanupRpcExports_query (s : State) (next : AfterCleanup) :
    (s.cleanupRpcExports next).exports.rpcExportsCtx = none := by
  unfold State.cleanupRpcExports
  extract_lets u
  cases hctx : u.exports.rpcExportsCtx with
  | some n => rfl
  | none =>
    cases afterCleanup_exports u next with
    | kept hkept _ _ => exact hkept.trans hctx
    | closed n _ hnone _ _ _ => exact hnone

theorem performShutdown_query (s : State) : QueryStep s s.performShutdown := by
  unfold State.performShutdown
  by_cases hdone : (s.context.isNone && s.activeContinuations.isEmpty) = true
  · rw [if_pos hdone]
    exact .of_exports rfl
  · rw [if_neg hdone]
    exact .closed (cleanupRpcExports_query _ _)

theorem foldl_expire_exports (s : State) (l : List CallbackData) :
    (l.foldl State.expire s).exports.rpcExportsCtx = s.exports.rpcExportsCtx ∧
      (l.foldl State.expire s).exports.rpcExportsContID = s.exports.rpcExportsContID := by
  have hscan := State.foldl_expire_outskirts l s
  exact ⟨congrArg (fun o => o.exports.rpcExportsCtx) hscan,
    congrArg (fun o => o.exports.rpcExportsContID) hscan⟩

/-- After a scan the query is gone, unless its operation is still registered. -/
theorem scanForTimeouts_query (htimeout : 0 < s.timeout) :
    s.scanForTimeouts.exports.rpcExportsCtx = none ∨
      s.scanForTimeouts = (s.activeContinuations.filter s.expired).foldl State.expire s ∧
        ∀ id, s.exports.rpcExportsContID = some id →
          ∃ c ∈ s.scanForTimeouts.activeContinuations, c.continuationID = id := by
  obtain ⟨-, hid⟩ := foldl_expire_exports s (s.activeContinuations.filter s.expired)
  unfold State.scanForTimeouts
  rw [if_neg (by omega)]
  dsimp only
  rw [hid]
  cases hcont : s.exports.rpcExportsContID with
  | none => exact .inr ⟨rfl, by simp⟩
  | some id =>
    dsimp only
    split
    · exact .inl (cleanupRpcExports_query _ _)
    · rename_i hactive
      refine .inr ⟨rfl, ?_⟩
      rintro _ ⟨⟩
      simpa using hactive

theorem scanForTimeouts_step (s : State) : QueryStep s s.scanForTimeouts := by
  by_cases htimeout : 0 < s.timeout
  · rcases scanForTimeouts_query htimeout with hnone | ⟨heq, -⟩
    · exact .closed hnone
    · rw [heq]
      obtain ⟨hctx, hid⟩ := foldl_expire_exports s (s.activeContinuations.filter s.expired)
      exact .kept hctx hid
  · unfold State.scanForTimeouts
    rw [if_pos (by omega)]
    exact .of_exports rfl

/-! ## Queue blocks -/

theorem getexports_query (s : State) (available : Bool) : QueryStep s (s.getexports available) := by
  unfold State.getexports
  extract_lets caller s' n cb t u
  split
  · exact .of_exports rfl
  · split
    · exact .of_exports rfl
    · split
      · exact .of_exports rfl
      · exact .opened cb (List.mem_cons_self ..) rfl rfl rfl

theorem runBlock_query {b : Block} (h : s.runBlock b = some t) : QueryStep s t := by
  cases hb : b.isPlain with
  | true => exact .of_outskirts (State.runBlock_outskirts hb h)
  | false =>
    cases b with
    | getexports available => exact Option.some.inj h ▸ getexports_query s available
    | scanForTimeouts => exact Option.some.inj h ▸ scanForTimeouts_step s
    | handleRpcExportsEvent =>
      refine Option.some.inj h ▸ .of_exports ?_
      unfold State.handleRpcExportsEvent
      split <;> rfl
    | shutdown => exact Option.some.inj h ▸ performShutdown_query s
    | configure x =>
      simp only [State.runBlock] at h
      split at h
      · rename_i u hu
        obtain ⟨-, rfl⟩ := configure_ok hu
        exact Option.some.inj h ▸ .of_exports rfl
      · exact Option.some.inj h ▸ .of_exports rfl
    | setLogHandler handler =>
      refine Option.some.inj h ▸ .of_exports ?_
      unfold State.setLogHandler
      split <;> rfl
    | _ => cases hb

/-! ## Returns from libnfs -/

theorem setupRpcExportsSources_query (x : RpcExports) (fd : Int) :
    (x.setupRpcExportsSources fd).rpcExportsContID = x.rpcExportsContID := by
  obtain ⟨dropped, heq⟩ := x.cancelRpcExportsSources_eq
  unfold RpcExports.setupRpcExportsSources
  rw [heq]
  rfl

theorem updateRpcExportsWriteSource_query (x : RpcExports) (pollout : Bool) :
    (x.updateRpcExportsWriteSource pollout).rpcExportsContID = x.rpcExportsContID := by
  unfold RpcExports.updateRpcExportsWriteSource
  split
  · split
    · split <;> rfl
    · split <;> rfl
  · rfl

theorem updateWriteSource_exports_eq (s : State) : s.updateWriteSource.exports = s.exports := by
  unfold State.updateWriteSource
  split <;> rfl

theorem rejected_query (s : State) (site : Site) (cb : CallbackData) (rc : Int) :
    QueryStep s (s.rejected site cb rc) := by
  unfold State.rejected
  cases site with
  | issueOperation => exact .of_outskirts (State.resume_outskirts _ _ _)
  | handleOperation =>
    dsimp only
    rw [State.runCleanup_eq]
    exact .of_exports rfl
  | mount => exact .of_exports rfl
  | getexports n => exact .closed (cleanupRpcExports_query _ _)
  | pending i op =>
    refine .congr (.of_outskirts (State.drainFrom_outskirts _ _)) ?_ ?_
    · rw [updateWriteSource_exports_eq, State.resume_eq]
      rfl
    · exact congrArg Prod.fst ((State.updateWriteSource_time _).trans (State.resume_time _ _ _))

theorem accepted_query (s : State) (site : Site) (cb : CallbackData) :
    QueryStep s (s.accepted site cb) := by
  unfold State.accepted
  cases site with
  | issueOperation | handleOperation => exact .of_exports (updateWriteSource_exports_eq _)
  | mount =>
    dsimp only
    split
    · exact .of_exports (updateWriteSource_exports_eq _)
    · exact .of_exports rfl
  | getexports n =>
    dsimp only
    split
    · exact .kept (setupRpcExportsSources_ctx _ _) (setupRpcExportsSources_query _ _)
    · exact .of_exports rfl
  | pending i op =>
    refine .congr (.of_outskirts (State.drainFrom_outskirts _ _)) (updateWriteSource_exports_eq _) ?_
    exact congrArg Prod.fst (State.updateWriteSource_time _)

theorem serviced_query (s : State) (rc : Int) : QueryStep s (s.serviced rc) := by
  unfold State.serviced
  split
  · exact .of_exports (destroyContext_query _ _)
  · extract_lets u
    have hu : u.exports = s.exports ∧ u.clock = s.clock := by
      simp only [u]
      split <;> exact ⟨rfl, rfl⟩
    refine .congr (.of_outskirts (State.issuePendingOperations_outskirts _)) ?_ ?_
    · exact (updateWriteSource_exports_eq u).trans hu.1
    · exact (congrArg Prod.fst (State.updateWriteSource_time u)).trans hu.2

theorem rpcServiced_query (s : State) (rc : Int) : QueryStep s (s.rpcServiced rc) := by
  unfold State.rpcServiced
  split
  · exact .closed (cleanupRpcExports_query _ _)
  · split
    · exact .closed (cleanupRpcExports_query _ _)
    · refine .kept ((updateRpcExportsWriteSource_ctx _ _).trans ?_)
        ((updateRpcExportsWriteSource_query _ _).trans ?_)
      · split
        · exact setupRpcExportsSources_ctx _ _
        · rfl
      · split
        · exact setupRpcExportsSources_query _ _
        · rfl

theorem returnFromCall_query {rc : Int} {view : LibView} (hx : ExportContexts s)
    (h : s.returnFromCall rc view = some t) : QueryStep s t := by
  have viewed (ctx : Ctx) (u : State) (hexports : u.exports = s.exports) (hclock : u.clock = s.clock) :
      (u.setView ctx view).exports = s.exports ∧ (u.setView ctx view).clock = s.clock := by
    cases ctx <;> exact ⟨hexports, hclock⟩
  unfold State.returnFromCall at h
  split at h
  · cases h
  · cases h
  · rename_i site cb ran rest hstack
    obtain ⟨hexports, hclock⟩ := viewed site.ctx { s with stack := rest } rfl rfl
    dsimp only at h
    split at h
    · split at h
      · cases h
      · obtain rfl := Option.some.inj h
        exact (rejected_query _ site cb rc).congr hexports hclock
    · obtain rfl := Option.some.inj h
      refine (accepted_query _ site cb).congr ?_ ?_
      · rw [State.enqueueRequest_eq]
        exact hexports
      · rw [State.enqueueRequest_eq]
        exact hclock
  · obtain rfl := Option.some.inj h
    exact (serviced_query _ rc).congr rfl rfl
  · obtain rfl := Option.some.inj h
    exact (rpcServiced_query _ rc).congr rfl rfl
  · obtain rfl := Option.some.inj h
    exact .of_exports rfl
  · rename_i n next rest hstack
    obtain rfl := Option.some.inj h
    -- the context has been given up before the call
    have hnone := (hx.destroying n (mem_rpcCalls (hstack ▸ List.mem_cons_self ..) rfl)).1
    refine .closed ?_
    cases afterCleanup_exports _ next with
    | kept hkept _ _ => exact hkept.trans hnone
    | closed _ _ hnone' _ _ _ => exact hnone'
  · rename_i kind conts rest hstack
    obtain rfl := Option.some.inj h
    exact .congr (.of_outskirts (State.endTeardown_outskirts _ _ _)) rfl rfl

theorem step_query (hx : ExportContexts s) (h : step s e = some t) : QueryStep s t := by
  cases e with
  | block b =>
    simp only [step] at h
    split at h
    · exact runBlock_query h
    · cases h
  | callback id status data => exact .of_outskirts (State.fireCallback_outskirts h)
  | ret rc view => exact returnFromCall_query hx h
  | tick d => exact Option.some.inj h ▸ .of_exports rfl
  | releaseBuffer b =>
    simp only [step] at h
    split at h
    · exact Option.some.inj h ▸ .of_exports rfl
    · cases h
  | deinit q =>
    simp only [step] at h
    split at h
    · obtain rfl := Option.some.inj h
      exact (performShutdown_query _).congr rfl rfl
    · cases h

/-! ## Whole runs -/

/-- The operations of the list leave the registry. -/
theorem foldl_expire_active (l : List CallbackData) (s : State) {c : CallbackData}
    (h : c ∈ (l.foldl State.expire s).activeContinuations) : c ∈ s.activeContinuations ∧ c ∉ l := by
  induction l generalizing s with
  | nil => exact ⟨h, List.not_mem_nil⟩
  | cons d l ih =>
    obtain ⟨hexpired, hl⟩ := ih (s.expire d) h
    have hactive : (s.expire d).activeContinuations
        = (s.removeActive d.continuationID).activeContinuations := by
      unfold State.expire
      rw [State.resume_eq, State.recordCompletion_eq]
    rw [hactive] at hexpired
    obtain ⟨hc, hne⟩ := List.mem_filter.mp hexpired
    refine ⟨hc, fun hmem => ?_⟩
    rcases List.mem_cons.mp hmem with rfl | hmem
    · simp at hne
    · exact hl hmem

namespace Watched

variable {w w' : Watched} {interval : Nat}

/-- A query that a scan leaves was not due. -/
theorem QueryOnTime.scan (hq : QueryOnTime w) (hw : WellFormed w.state) (htimeout : 0 < w.state.timeout)
    {n : Nat} (hn : w.state.scanForTimeouts.exports.rpcExportsCtx = some n) :
    ∃ cb ∈ w.state.scanForTimeouts.created, cb.entry = .getexports ∧
      w.state.scanForTimeouts.exports.rpcExportsContID = some cb.continuationID ∧
        (w.state.clock : Int) ≤ cb.startTime + w.state.timeout := by
  rcases scanForTimeouts_query htimeout with hnone | ⟨heq, hactive⟩
  · rw [hnone] at hn
    cases hn
  · rw [heq] at hactive hn ⊢
    obtain ⟨hctx, hid⟩ := foldl_expire_exports w.state (w.state.activeContinuations.filter w.state.expired)
    have hcreated := (foldl_expire_fields (w.state.activeContinuations.filter w.state.expired)
      w.state).2.2.1
    obtain ⟨cb, hcb, hentry, hcont, -⟩ := hq n (hctx.symm.trans hn)
    obtain ⟨c, hc, hsame⟩ := hactive _ hcont
    obtain ⟨hregistered, hfresh⟩ := foldl_expire_active _ _ hc
    obtain rfl := hw.id_inj c (hw.active_created c hregistered) cb hcb hsame
    refine ⟨c, hcreated ▸ hcb, hentry, hid.trans hcont, ?_⟩
    by_contra hlate
    refine hfresh (List.mem_filter.mpr ⟨hregistered, ?_⟩)
    simp only [State.expired, decide_eq_true_eq]
    omega

/-- The step lemma: a scan gives a query up that is due, and a new one is not due before the timeout has
passed. -/
theorem QueryOnTime.step (hq : QueryOnTime w) (hk : Sound w.state.config)
    (hx : ExportContexts w.state) (hlast : w.last ≤ w.state.clock) (htimeout : 0 < w.state.timeout)
    (h : w.step e = some w') : QueryOnTime w' := by
  obtain ⟨t, ht, rfl⟩ := step_eq h
  obtain ⟨hsame, -⟩ := step_time ht
  intro n hn
  dsimp only at hn ⊢
  by_cases hscan : e = .block .scanForTimeouts
  · obtain ⟨rfl⟩ : t = w.state.scanForTimeouts := by
      subst hscan
      simp only [NFSKit.step] at ht
      split at ht
      · exact (Option.some.inj ht).symm
      · cases ht
    obtain ⟨cb, hcb, hentry, hid, hdue⟩ := hq.scan hk.wellFormed htimeout hn
    refine ⟨cb, hcb, hentry, hid, fun _ => ?_⟩
    simp only [hscan, decide_true, Bool.or_true, if_true]
    have hclock : w.state.scanForTimeouts.clock = w.state.clock :=
      congrArg Prod.fst w.state.scanForTimeouts_time
    rw [hclock, hsame]
    exact le_max_of_le_left hdue
  · cases step_query hx ht with
    | closed hnone =>
      rw [hnone] at hn
      cases hn
    | kept hctx hid =>
      obtain ⟨cb, hcb, hentry, hcont, hdue⟩ := hq n (hctx.symm.trans hn)
      refine ⟨cb, step_created_mono hk ht hcb, hentry, hid.trans hcont, fun htimer => ?_⟩
      by_cases hset : w.sets t
      · simp only [hset, Bool.true_or, if_true]
        exact le_max_right _ _
      · have hon : w.state.sources.timeoutTimer := by
          by_contra hoff
          exact hset (by simp [sets, htimer, hoff])
        simp only [hset, hscan, decide_false, Bool.or_false, Bool.false_eq_true, if_false]
        rw [hsame]
        exact hdue hon
    | opened cb hcb hentry hid hstart =>
      refine ⟨cb, hcb, hentry, hid, fun htimer => ?_⟩
      by_cases hset : w.sets t
      · simp only [hset, Bool.true_or, if_true]
        exact le_max_right _ _
      · simp only [hset, hscan, decide_false, Bool.or_false, Bool.false_eq_true, if_false]
        rw [hsame, hstart]
        exact le_max_of_le_left (by omega)

theorem queryOnTime_of_reaches {timeout : Int} (htimeout : 0 < timeout)
    (h : Reaches step (fun w e => w.punctual interval e) (init timeout) w) : QueryOnTime w := by
  induction h with
  | refl => exact fun n hn => by cases hn
  | @tail a b e hrest hP hs ih =>
    have hrun := reachable hrest.reachable
    have hsafe := contextsSafe_of_reachable hrun
    refine ih.step hsafe.sound hsafe.exports (onTime_of_reaches htimeout hrest).past.2 ?_ hs
    rw [timeout_eq hrun]
    exact htimeout

/-- While the timer is set and Dispatch is in time, an export query keeps later ones off for no longer than
the timeout and one interval. -/
theorem query_bounded {timeout : Int} (htimeout : 0 < timeout)
    (h : Reaches step (fun w e => w.punctual interval e) (init timeout) w)
    (htimer : w.state.sources.timeoutTimer) {n : Nat}
    (hslot : w.state.exports.rpcExportsCtx = some n) :
    ∃ cb ∈ w.state.created, cb.entry = .getexports ∧
      w.state.exports.rpcExportsContID = some cb.continuationID ∧
        (w.state.clock : Int) ≤ max (cb.startTime + timeout) w.since + interval := by
  obtain ⟨cb, hcb, hentry, hid, hdue⟩ := queryOnTime_of_reaches htimeout h n hslot
  have hdue := hdue htimer
  have hscanned := (onTime_of_reaches htimeout h).scanned htimer
  rw [timeout_eq (reachable h.reachable)] at hdue
  exact ⟨cb, hcb, hentry, hid, by omega⟩

/-- A query that is never answered, after two seconds and the first scan. -/
theorem query_bounded_unanswered :
    ∃ w, run step (init 1500000000)
        [.block (.getexports true), .ret 0 { fd := 5 }, .tick 1000000000, .block .scanForTimeouts,
          .tick 1000000000] = some w ∧
      ∃ cb ∈ w.state.created, cb.entry = .getexports ∧
        w.state.exports.rpcExportsContID = some cb.continuationID ∧
          (w.state.clock : Int) ≤ max ((cb.startTime : Int) + 1500000000) w.since + (1000000000 : Nat) := by
  have hrun : ((run step (init 1500000000)
      [.block (.getexports true), .ret 0 { fd := 5 }, .tick 1000000000, .block .scanForTimeouts,
        .tick 1000000000]).any fun w =>
      w.state.sources.timeoutTimer ∧ w.state.exports.rpcExportsCtx = some 0) = true := by
    decide +kernel
  have hmeets : meets step (fun w e => w.punctual 1000000000 e) (init 1500000000)
      [.block (.getexports true), .ret 0 { fd := 5 }, .tick 1000000000, .block .scanForTimeouts,
        .tick 1000000000] = true := by
    decide +kernel
  obtain ⟨w, hw, hfacts⟩ := (Option.any_eq_true _ _).mp hrun
  obtain ⟨htimer, hslot⟩ := of_decide_eq_true hfacts
  have hreaches := reaches_of_run (P := fun w e => w.punctual 1000000000 e) (fun _ _ h => h) hw hmeets
  exact ⟨w, hw, query_bounded (by decide) hreaches htimer hslot⟩

end Watched

end NFSKit
