import NFSKit.EventLoop.Deadlines
import NFSKit.EventLoop.Proofs.BacklogProofs
import NFSKit.EventLoop.Proofs.BackpressureProofs
import NFSKit.Proofs.ClientProofs

/-!
# Nobody waits much longer than the timeout

A scan resumes every caller who is due, so what a caller waits for beyond the timeout is the time until the
next scan.
-/

namespace NFSKit

open Machine

variable {s t u : State} {e : Event}

namespace State

/-! ## Only the clock moves the clock -/

/-- The readings of the clock, and the timeout they are compared with. -/
def time (s : State) : Nat × Int := (s.clock, s.timeout)

theorem resume_time (s : State) (cb : CallbackData) (r : Outcome) : (s.resume cb r).time = s.time := by
  rw [resume_eq]
  rfl

theorem finishHook_time (s : State) : s.finishHook.time = s.time := by
  obtain ⟨stack, resumed, outcomes, failed, heq⟩ := finishHook_eq s
  rw [heq]
  rfl

theorem drainLoop_time (s : State) (n i : Nat) : (s.drainLoop n i).time = s.time := by
  induction n generalizing i with
  | zero => exact s.finishHook_time
  | succ n ih =>
    unfold drainLoop
    cases s.pendingOperations[i]? with
    | none => exact s.finishHook_time
    | some op =>
      by_cases hcap : s.hasCapacity op.category
      · simp only [hcap, if_true]
        rfl
      · simp only [hcap]
        exact ih (i + 1)

theorem issuePendingOperations_time (s : State) : s.issuePendingOperations.time = s.time := by
  unfold issuePendingOperations
  split
  · exact s.finishHook_time
  · exact s.drainLoop_time _ 0

theorem completionHook_time (s : State) (cb : CallbackData) (ok : Bool) :
    (s.completionHook cb ok).time = s.time := by
  unfold completionHook handleCallbackCompletion
  by_cases halive : s.alive
  · rw [if_pos halive, issuePendingOperations_time, recordCompletion_eq]
    by_cases hentry : cb.entry = .getexports
    · rw [if_pos hentry]
      rfl
    · rw [if_neg hentry]
      rfl
  · rw [if_neg halive]
    exact s.finishHook_time

theorem dataHandler_time (s : State) (cb : CallbackData) (status : Int) (data : Option Value) :
    (s.dataHandler cb status data).2.time = s.time := by
  unfold dataHandler
  split
  · rfl
  · split <;> rfl
  · rfl
  · split <;> rfl
  · split <;> rfl
  · rfl
  · rfl

theorem complete_time (s : State) (cb : CallbackData) (r : Outcome) (ok : Bool) :
    (s.complete cb r ok).time = s.time :=
  completionHook_time _ cb ok

theorem runCallback_time (s : State) (cb : CallbackData) (status : Int) (data : Option Value) :
    (s.runCallback cb status data).time = s.time := by
  unfold runCallback rpcCallback nfsCallback
  split
  · dsimp only
    split
    · rw [complete_time]
      rfl
    · rw [complete_time, dataHandler_time]
      rfl
  · dsimp only
    split
    · rw [complete_time, runCleanup_eq]
      rfl
    · rw [complete_time, dataHandler_time]
      rfl

theorem fireCallback_time {id : Nat} {status : Int} {data : Option Value}
    (h : s.fireCallback id status data = some t) : t.time = s.time := by
  unfold fireCallback at h
  split at h
  · cases h
  · obtain ⟨⟨cb, s₁⟩, htake, hmap⟩ := Option.bind_eq_some_iff.mp h
    obtain ⟨s₂, hnote, rfl⟩ := Option.map_eq_some_iff.mp hmap
    obtain ⟨fhs, dirs, rfl⟩ := noteDelivery_eq hnote
    rw [runCallback_time]
    obtain ⟨-, ⟨-, rfl⟩ | ⟨r, -, -, -, rfl⟩⟩ := takeRequest_cases htake <;> rfl

theorem updateWriteSource_time (s : State) : s.updateWriteSource.time = s.time := by
  unfold updateWriteSource
  split <;> rfl

theorem endTeardown_time (s : State) (kind : Teardown) (l : List CallbackData) :
    (s.endTeardown kind l).time = s.time := by
  obtain ⟨bulk, metadata, counts, heq⟩ := endTeardown_eq s kind l
  rw [heq, foldl_resume_eq]
  rfl

theorem destroyContext_time (s : State) (kind : Teardown) : (s.destroyContext kind).time = s.time := by
  unfold destroyContext
  cases kind <;> dsimp only <;> split <;> first | rfl | exact endTeardown_time _ _ _

theorem afterCleanup_time (s : State) (next : AfterCleanup) : (s.afterCleanup next).time = s.time := by
  cases next with
  | done | getexports => rfl
  | performShutdown => exact destroyContext_time _ _

theorem cleanupRpcExports_time (s : State) (next : AfterCleanup) :
    (s.cleanupRpcExports next).time = s.time := by
  unfold cleanupRpcExports
  extract_lets t
  split
  · rfl
  · exact afterCleanup_time t next

theorem performShutdown_time (s : State) : s.performShutdown.time = s.time := by
  unfold performShutdown
  split
  · rfl
  · exact cleanupRpcExports_time _ _

theorem foldl_expire_time (l : List CallbackData) (s : State) : (l.foldl expire s).time = s.time := by
  induction l generalizing s with
  | nil => rfl
  | cons cb l ih =>
    rw [List.foldl_cons, ih, expire, resume_time, recordCompletion_eq]
    rfl

theorem scanForTimeouts_time (s : State) : s.scanForTimeouts.time = s.time := by
  have hscan := foldl_expire_time (s.activeContinuations.filter s.expired) s
  unfold scanForTimeouts
  split
  · rfl
  · dsimp only
    split
    · split
      · exact (cleanupRpcExports_time _ _).trans hscan
      · exact hscan
    · exact hscan

theorem submit_time (s : State) (type : OperationType) (handler : DataHandler) :
    (s.submit type handler).time = s.time := by
  unfold submit
  extract_lets caller s' cb t
  split
  · rfl
  · split
    · rfl
    · split <;> rfl

theorem mount_time (s : State) : s.mount.time = s.time := by
  unfold mount
  extract_lets caller s'
  split <;> rfl

theorem getexports_time (s : State) (available : Bool) : (s.getexports available).time = s.time := by
  unfold getexports
  extract_lets caller s' n cb t u
  split
  · rfl
  · split
    · rfl
    · split <;> rfl

theorem handleOperation_time (s : State) (op : HandleOperation) (h : Nat) :
    (s.handleOperation op h).time = s.time := by
  unfold handleOperation
  extract_lets caller s'
  split
  · rfl
  · split
    · rfl
    · extract_lets cb t u
      have hu : u.time = s.time := by
        simp only [u]
        split <;> rfl
      exact hu

theorem readdirAll_time (s : State) (opener dir : Nat) : (s.readdirAll opener dir).time = s.time := by
  unfold readdirAll
  extract_lets caller s'
  split <;> rfl

theorem closeFileFireAndForget_time (s : State) (h : Nat) :
    (s.closeFileFireAndForget h).time = s.time := by
  unfold closeFileFireAndForget
  split
  · rfl
  · extract_lets s'
    split <;> rfl

theorem configure_time {x : Setting} (h : s.configure x = .ok t) : t.time = s.time := by
  obtain ⟨-, rfl⟩ := configure_ok h
  rfl

theorem runBlock_time {b : Block} (h : s.runBlock b = some t) : t.time = s.time := by
  have handle {op : HandleOperation} {n : Nat} (h : some (s.handleOperation op n) = some t) :
      t.time = s.time :=
    Option.some.inj h ▸ s.handleOperation_time op n
  cases b with
  | submit type handler | submitWithStatus type handler =>
    exact Option.some.inj h ▸ s.submit_time type handler
  | mount => exact Option.some.inj h ▸ s.mount_time
  | getexports available => exact Option.some.inj h ▸ s.getexports_time available
  | closeFile | readFile | writeFile | preadFile | pwriteFile | fsync | fstat | ftruncate | lseek =>
    exact handle h
  | preadIntoBuffer n buffer =>
    simp only [runBlock] at h
    split at h
    · cases h
    · exact handle h
  | registerHandle opener =>
    simp only [runBlock] at h
    split at h
    · cases h
    · obtain ⟨fh, -, rfl⟩ := Option.map_eq_some_iff.mp h
      rfl
  | readdirAll opener =>
    simp only [runBlock] at h
    split at h
    · cases h
    · obtain ⟨dir, -, rfl⟩ := Option.map_eq_some_iff.mp h
      exact s.readdirAll_time opener dir
  | closeFileFireAndForget n =>
    simp only [runBlock] at h
    split at h
    · exact Option.some.inj h ▸ s.closeFileFireAndForget_time n
    · cases h
  | scanForTimeouts => exact Option.some.inj h ▸ s.scanForTimeouts_time
  | handleIOEvent =>
    refine Option.some.inj h ▸ ?_
    unfold handleIOEvent
    split <;> rfl
  | handleRpcExportsEvent =>
    refine Option.some.inj h ▸ ?_
    unfold handleRpcExportsEvent
    split <;> rfl
  | shutdown => exact Option.some.inj h ▸ s.performShutdown_time
  | configure x =>
    simp only [runBlock] at h
    split at h
    · rename_i v hv
      exact Option.some.inj h ▸ configure_time hv
    · exact Option.some.inj h ▸ rfl
  | setLogHandler handler =>
    refine Option.some.inj h ▸ ?_
    unfold setLogHandler
    split <;> rfl

theorem rejected_time (s : State) (site : Site) (cb : CallbackData) (rc : Int) :
    (s.rejected site cb rc).time = s.time := by
  unfold rejected
  cases site with
  | issueOperation => exact resume_time _ _ _
  | handleOperation =>
    dsimp only
    rw [runCleanup_eq]
    rfl
  | mount => rfl
  | getexports n => exact cleanupRpcExports_time _ _
  | pending i op =>
    refine (drainLoop_time _ _ _).trans ?_
    rw [updateWriteSource_time]
    exact resume_time _ _ _

theorem accepted_time (s : State) (site : Site) (cb : CallbackData) :
    (s.accepted site cb).time = s.time := by
  unfold accepted
  cases site with
  | issueOperation | handleOperation => exact updateWriteSource_time _
  | mount =>
    dsimp only
    split
    · exact updateWriteSource_time _
    · rfl
  | getexports n =>
    dsimp only
    split <;> rfl
  | pending i op => exact (drainLoop_time _ _ _).trans (updateWriteSource_time _)

theorem serviced_time (s : State) (rc : Int) : (s.serviced rc).time = s.time := by
  unfold serviced
  split
  · exact destroyContext_time _ _
  · extract_lets u
    have hu : u.time = s.time := by
      simp only [u]
      split <;> rfl
    rw [issuePendingOperations_time, updateWriteSource_time, hu]

theorem rpcServiced_time (s : State) (rc : Int) : (s.rpcServiced rc).time = s.time := by
  unfold rpcServiced
  split
  · exact cleanupRpcExports_time _ _
  · split
    · exact cleanupRpcExports_time _ _
    · rfl

theorem setView_time (s : State) (ctx : Ctx) (view : LibView) : (s.setView ctx view).time = s.time := by
  cases ctx <;> rfl

theorem returnFromCall_time {rc : Int} {view : LibView} (h : s.returnFromCall rc view = some t) :
    t.time = s.time := by
  unfold returnFromCall at h
  split at h
  · cases h
  · cases h
  · dsimp only at h
    split at h
    · split at h
      · cases h
      · obtain rfl := Option.some.inj h
        exact (rejected_time _ _ _ _).trans (setView_time _ _ _)
    · obtain rfl := Option.some.inj h
      rw [accepted_time, enqueueRequest_eq]
      exact setView_time _ _ _
  · obtain rfl := Option.some.inj h
    exact (serviced_time _ _).trans (setView_time _ _ _)
  · obtain rfl := Option.some.inj h
    exact (rpcServiced_time _ _).trans (setView_time _ _ _)
  · obtain rfl := Option.some.inj h
    exact setView_time _ _ _
  · obtain rfl := Option.some.inj h
    exact afterCleanup_time _ _
  · obtain rfl := Option.some.inj h
    exact endTeardown_time _ _ _

end State

/-- Only the passing of time moves the clock. -/
theorem step_time (h : step s e = some t) :
    t.timeout = s.timeout ∧ (t.clock = s.clock ∨ ∃ d, e = .tick d ∧ t = { s with clock := s.clock + d }) := by
  have same (h : t.time = s.time) : t.timeout = s.timeout ∧
      (t.clock = s.clock ∨ ∃ d, e = .tick d ∧ t = { s with clock := s.clock + d }) :=
    ⟨congrArg Prod.snd h, .inl (congrArg Prod.fst h)⟩
  cases e with
  | block b =>
    simp only [step] at h
    split at h
    · exact same (State.runBlock_time h)
    · cases h
  | callback id status data => exact same (State.fireCallback_time h)
  | ret rc view => exact same (State.returnFromCall_time h)
  | tick d =>
    obtain rfl := Option.some.inj h
    exact ⟨rfl, .inr ⟨d, rfl, rfl⟩⟩
  | releaseBuffer b =>
    simp only [step] at h
    split at h
    · obtain rfl := Option.some.inj h
      exact same rfl
    · cases h
  | deinit q =>
    simp only [step] at h
    split at h
    · obtain rfl := Option.some.inj h
      exact same (State.performShutdown_time _)
    · cases h

/-! ## When an operation starts -/

/-- Every operation that the block has made starts now. -/
def StartsNow (s t : State) : Prop := ∀ cb ∈ t.created, cb ∈ s.created ∨ cb.startTime = s.clock

theorem submit_made {type : OperationType} {handler : DataHandler} {cb : CallbackData}
    (h : cb ∈ (s.submit type handler).created) :
    cb ∈ s.created ∨ cb.startTime = s.clock ∧ cb.entry = .submit type ∧
      cb.continuationID = s.nextContinuationID := by
  unfold State.submit at h
  extract_lets caller s' cb' s'' at h
  split at h
  · exact .inl h
  · have hmade : cb ∈ cb' :: s.created := by
      split at h
      · exact h
      · split at h <;> exact h
    rcases List.mem_cons.mp hmade with rfl | hold
    · exact .inr ⟨rfl, rfl, rfl⟩
    · exact .inl hold

theorem mount_startsNow (s : State) : StartsNow s s.mount := by
  intro cb hcb
  unfold State.mount at hcb
  extract_lets caller s' at hcb
  split at hcb
  · exact .inl hcb
  · rcases List.mem_cons.mp hcb with rfl | hold
    · exact .inr rfl
    · exact .inl hold

theorem getexports_startsNow (s : State) (available : Bool) : StartsNow s (s.getexports available) := by
  intro cb hcb
  unfold State.getexports at hcb
  extract_lets caller s' n cb' t u at hcb
  split at hcb
  · exact .inl hcb
  · split at hcb
    · exact .inl hcb
    · split at hcb
      · exact .inl hcb
      · rcases List.mem_cons.mp hcb with rfl | hold
        · exact .inr rfl
        · exact .inl hold

theorem handleOperation_startsNow (s : State) (op : State.HandleOperation) (h : Nat) :
    StartsNow s (s.handleOperation op h) := by
  intro cb hcb
  unfold State.handleOperation at hcb
  extract_lets caller s' at hcb
  split at hcb
  · exact .inl hcb
  · split at hcb
    · exact .inl hcb
    · extract_lets cb' t u at hcb
      have hu : u.created = cb' :: s.created := by
        simp only [u]
        split <;> rfl
      have hmade : cb ∈ u.created := hcb
      rw [hu] at hmade
      rcases List.mem_cons.mp hmade with rfl | hold
      · exact .inr rfl
      · exact .inl hold

/-- An operation that an event makes without submitting it passes the queue. -/
theorem Act.made_direct {k k' : Config} {a : Action} (h : Act k a k') (ha : Allowed s e k a)
    (hsubmits : e.submits = none) {cb : CallbackData} (hmade : a.made = some cb) :
    cb.continuationID = k.state.nextContinuationID ∧ directs s e = some cb.operationCategory := by
  have untyped {c : CallbackData} (hentry : ∃ type, c.entry = .submit type)
      (ha : ∀ type, c.entry = .submit type → e.submits = some (type, c.dataHandler)) : False := by
    obtain ⟨type, hentry⟩ := hentry
    rw [ha type hentry] at hsubmits
    cases hsubmits
  cases h with
  | start _ _ _ hid =>
    obtain rfl := Option.some.inj hmade
    refine ⟨hid, ?_⟩
    obtain ⟨-, -, ⟨-, x, hx, -⟩ | ⟨b, rfl, hb, hreaches⟩, -⟩ := ha
    · rw [hsubmits] at hx
      cases hx
    · simp only [directs, hreaches, if_true]
      exact hb
  | overflow _ _ _ _ hentry => exact (untyped hentry ha).elim
  | enqueue _ _ _ _ hentry => exact (untyped ⟨_, hentry⟩ ha.1).elim
  | _ => cases hmade

/-- A step that neither submits nor calls libnfs directly makes no operation. -/
theorem step_created (hs : Sound s.config) (h : step s e = some t) (hsubmits : e.submits = none)
    (hdirect : directs s e = none) : t.created = s.created := by
  refine (step_invariant_sound h hs (fun k => k.state.created = s.created) rfl fun k a k' hk hI ha hact => ?_).2
  rw [hact.effects.created, hI]
  cases hmade : a.made with
  | none => rfl
  | some cb =>
    have hsome := (hact.made_direct ha hsubmits hmade).2
    rw [hdirect] at hsome
    cases hsome

/-- Every operation starts at the time of the step that makes it. -/
theorem step_startsNow (hs : Sound s.config) (h : step s e = some t) : StartsNow s t := by
  cases hsubmits : e.submits with
  | some x =>
    obtain ⟨-, rfl⟩ := step_submits hsubmits h
    exact fun cb hcb => (submit_made hcb).imp_right And.left
  | none =>
    by_cases hdirect : ∀ b, e = .block b → b.directCategory = none
    · intro cb hcb
      have hnone : directs s e = none := by
        cases e with
        | block b => simp [directs, hdirect b rfl]
        | _ => rfl
      rw [step_created hs h hsubmits hnone] at hcb
      exact .inl hcb
    · push Not at hdirect
      obtain ⟨b, rfl, hb⟩ := hdirect
      have handle {op : State.HandleOperation} {n : Nat} (h : some (s.handleOperation op n) = some t) :
          StartsNow s t :=
        Option.some.inj h ▸ handleOperation_startsNow s op n
      simp only [step] at h
      split at h
      · cases b with
        | mount => exact Option.some.inj h ▸ mount_startsNow s
        | getexports available => exact Option.some.inj h ▸ getexports_startsNow s available
        | preadIntoBuffer n buffer =>
          simp only [State.runBlock] at h
          split at h
          · cases h
          · exact handle h
        | closeFile | readFile | writeFile | preadFile | pwriteFile | fsync | fstat | ftruncate | lseek =>
          exact handle h
        | _ => exact absurd rfl hb
      · cases h

/-- Who has been resumed stays so. -/
theorem step_resumed (hs : Sound s.config) (h : step s e = some t) {i : Nat} (hi : t.outcomes i = []) :
    s.outcomes i = [] := by
  by_contra hne
  refine (step_invariant_sound h hs (fun k => k.state.outcomes i ≠ []) hne fun k a k' _ hI _ hact => ?_).2 hi
  exact hact.effects.outcomes i hI

/-- Whoever is waited for has made an operation. -/
theorem covers_created {cb : CallbackData} (hw : WellFormed s) (h : s.Covers cb) : cb ∈ s.created := by
  rcases h with hactive | ⟨f, hf, hawaits⟩
  · exact hw.active_created cb hactive
  · have hheld (hholds : cb ∈ f.holds) : cb ∈ s.created := by
      have hpos : 0 < (s.stack.flatMap Frame.holds).count cb :=
        List.count_pos_iff.mpr (List.mem_flatMap.mpr ⟨f, hf, hholds⟩)
      exact hw.tokens_created cb (Nat.lt_of_lt_of_le hpos (Nat.le_add_left ..))
    cases f with
    | completionHook c r => exact hheld hawaits
    | rpcDestroy n next =>
      cases next with
      | getexports c => exact hheld hawaits
      | _ => cases hawaits
    | destroy kind conts => exact hw.snapshot_created _ hf cb hawaits
    | _ => cases hawaits

/-! ## What a scan leaves -/

/-- Every operation of the list has been resumed, now or before. -/
theorem foldl_expire_resumes {cb : CallbackData} :
    ∀ {l : List CallbackData} {s : State}, (∀ i, s.hasResumed i = true → s.outcomes i ≠ []) → cb ∈ l →
      (l.foldl State.expire s).outcomes cb.caller ≠ [] := by
  intro l
  induction l with
  | nil => exact fun _ hcb => nomatch hcb
  | cons c l ih =>
    intro s hmarked hcb
    have hout (i : Nat) : (s.expire c).outcomes i = [] → s.outcomes i = [] ∧ (i = c.caller → s.hasResumed i) := by
      rw [State.expire_outcomes]
      split
      · simp
      · rename_i hno
        intro hnil
        refine ⟨hnil, fun hi => ?_⟩
        by_contra hnot
        exact hno ⟨hi, by simpa using hnot⟩
    have hflag (i : Nat) : (s.expire c).hasResumed i = (s.hasResumed i || decide (i = c.caller)) := by
      unfold State.expire
      rw [State.resume_hasResumed, State.recordCompletion_eq]
      rfl
    rw [List.foldl_cons]
    by_cases hc : cb = c
    · subst hc
      refine (foldl_expire_fields l _).2.2.2 cb.caller fun hnil => ?_
      obtain ⟨hnil, hdone⟩ := hout _ hnil
      exact hmarked _ (hdone rfl) hnil
    · refine ih (fun i hi hnil => ?_) ((List.mem_cons.mp hcb).resolve_left hc)
      obtain ⟨hnil, hdone⟩ := hout i hnil
      rw [hflag, Bool.or_eq_true, decide_eq_true_eq] at hi
      exact hmarked i (hi.elim id hdone) hnil

/-- After a scan nobody waits who is due. -/
theorem scan_due (hk : Sound s.config) (hwt : Waiting s) (hstack : s.stack = []) (htimeout : 0 < s.timeout)
    {cb : CallbackData} (hcb : cb ∈ s.scanForTimeouts.created)
    (hnil : s.scanForTimeouts.outcomes cb.caller = []) : (s.clock : Int) ≤ cb.startTime + s.timeout := by
  obtain ⟨⟨-, hout, -, hcreated⟩, -⟩ := scanForTimeouts_fields s htimeout
  obtain ⟨-, -, hsame, hkept⟩ := foldl_expire_fields (s.activeContinuations.filter s.expired) s
  rw [hcreated, hsame] at hcb
  rw [hout] at hnil
  have hw := hk.wellFormed
  rcases hwt cb.caller (hw.caller_lt cb hcb) with hne | ⟨c, hcaller, hc⟩
  · exact absurd hnil (hkept _ hne)
  · have hactive : c ∈ s.activeContinuations := by
      rcases hc with hactive | ⟨f, hf, -⟩
      · exact hactive
      · rw [hstack] at hf
        cases hf
    obtain rfl := hw.caller_inj c (hw.active_created c hactive) cb hcb hcaller
    by_contra hlate
    refine foldl_expire_resumes hk.resumption.marked (List.mem_filter.mpr ⟨hactive, ?_⟩) hnil
    simp only [State.expired, decide_eq_true_eq]
    omega

/-! ## Whole runs -/

namespace Watched

variable {w w' : Watched} {interval : Nat}

theorem step_eq (h : w.step e = some w') : ∃ t, NFSKit.step w.state e = some t ∧ w' =
    { state := t
      since := if w.sets t then t.clock else w.since
      last := if w.sets t || e = .block .scanForTimeouts then t.clock else w.last } := by
  obtain ⟨t, ht, heq⟩ := Option.map_eq_some_iff.mp h
  exact ⟨t, ht, heq.symm⟩

/-- What is watched is a run of the loop. -/
theorem reachable {timeout : Int} {P : Watched → Event → Prop}
    (h : Reaches step P (init timeout) w) : Reachable NFSKit.step (State.init timeout) w.state := by
  refine h.invariant (I := fun w => Reachable NFSKit.step (State.init timeout) w.state) .refl ?_
  intro a e b ha _ hs
  obtain ⟨t, ht, rfl⟩ := step_eq hs
  exact ha.tail trivial ht

theorem timeout_eq {timeout : Int} (h : Reachable NFSKit.step (State.init timeout) s) :
    s.timeout = timeout := by
  refine h.invariant (I := fun s => s.timeout = timeout) rfl fun a e b ha _ hs => ?_
  rw [(step_time hs).1, ha]

/-- The step lemma: a scan looks at everyone who waits, and whoever comes later is not due before the
timeout has passed. -/
theorem OnTime.step (ho : OnTime interval w) (hk : Sound w.state.config) (hwt : Waiting w.state)
    (htimeout : 0 < w.state.timeout) (hpunctual : w.punctual interval e) (h : w.step e = some w') :
    OnTime interval w' := by
  obtain ⟨t, ht, rfl⟩ := step_eq h
  obtain ⟨hsame, hclock⟩ := step_time ht
  obtain ⟨hsince, hlast⟩ := ho.past
  by_cases hset : w.sets t
  · -- nobody has waited since the timer was set
    simp only [hset, Bool.true_or, if_true]
    exact ⟨⟨le_refl _, le_refl _⟩, fun _ => Nat.le_add_right .., fun _ _ _ _ => le_max_right _ _⟩
  · have hon : t.sources.timeoutTimer → w.state.sources.timeoutTimer := by
      intro hon
      by_contra hoff
      exact hset (by simp [sets, hon, hoff])
    simp only [hset, Bool.false_or, decide_eq_true_eq]
    by_cases hscan : e = .block .scanForTimeouts
    · subst hscan
      obtain ⟨hstack, rfl⟩ : w.state.stack = [] ∧ t = w.state.scanForTimeouts := by
        simp only [NFSKit.step] at ht
        split at ht
        · rename_i hidle
          simp only [Bool.and_eq_true, List.isEmpty_iff] at hidle
          exact ⟨hidle.1, (Option.some.inj ht).symm⟩
        · cases ht
      have hclock : w.state.scanForTimeouts.clock = w.state.clock := by
        obtain heq | ⟨d, hd, -⟩ := hclock
        · exact heq
        · cases hd
      simp only [if_true, Bool.false_eq_true, if_false]
      refine ⟨⟨?_, le_refl _⟩, fun _ => Nat.le_add_right .., fun _ cb hcb hnil => ?_⟩
      · rw [hclock]
        exact hsince.trans hlast
      · rw [hclock, hsame]
        exact le_max_of_le_left (scan_due hk hwt hstack htimeout hcb hnil)
    · simp only [if_neg hscan, Bool.false_eq_true, if_false]
      have hforward : w.state.clock ≤ t.clock := by
        obtain heq | ⟨d, -, rfl⟩ := hclock
        · exact heq.ge
        · exact Nat.le_add_right ..
      refine ⟨⟨hsince, hlast.trans hforward⟩, fun htimer => ?_, fun htimer cb hcb hnil => ?_⟩
      · obtain heq | ⟨d, rfl, rfl⟩ := hclock
        · rw [heq]
          exact ho.scanned (hon htimer)
        · simpa [punctual, hon htimer] using hpunctual
      · rw [hsame]
        rcases step_startsNow hk ht cb hcb with hold | hnow
        · exact ho.due (hon htimer) cb hold (step_resumed hk ht hnil)
        · have hnew : (w.last : Int) ≤ w.state.clock + w.state.timeout := by omega
          rw [hnow]
          exact le_max_of_le_left hnew

/-- Whatever happens, scans are in time. -/
theorem onTime_of_reaches {timeout : Int} (htimeout : 0 < timeout)
    (h : Reaches step (fun w e => w.punctual interval e) (init timeout) w) : OnTime interval w := by
  have hinit : OnTime interval (init timeout) :=
    ⟨⟨le_refl _, le_refl _⟩, fun _ => Nat.zero_le _, fun h => nomatch h⟩
  refine h.strengthen.invariant hinit fun a e b ho hP hs => ?_
  obtain ⟨hpunctual, hrun, -⟩ := hP
  have hrun := reachable hrun
  refine ho.step (sound_of_reachable hrun) (resumption_of_reachable hrun).2 ?_ hpunctual hs
  rw [timeout_eq hrun]
  exact htimeout

/-- While the timer is set and Dispatch is in time, nobody waits longer than the timeout and one interval,
counted from the start of the operation, or from the setting of the timer if that was later. -/
theorem waits_bounded {timeout : Int} (htimeout : 0 < timeout)
    (h : Reaches step (fun w e => w.punctual interval e) (init timeout) w)
    (htimer : w.state.sources.timeoutTimer) {i : Nat} (hi : i < w.state.nextCaller)
    (hwaits : w.state.outcomes i = []) :
    ∃ cb ∈ w.state.created, cb.caller = i ∧
      (w.state.clock : Int) ≤ max (cb.startTime + timeout) w.since + interval := by
  have ho := onTime_of_reaches htimeout h
  have hrun := reachable h.reachable
  have hw := (sound_of_reachable hrun).wellFormed
  obtain ⟨cb, rfl, hcovers⟩ := ((resumption_of_reachable hrun).2 i hi).resolve_left (not_not_intro hwaits)
  have hcb := covers_created hw hcovers
  have hdue := ho.due htimer cb hcb hwaits
  have hscanned := ho.scanned htimer
  rw [timeout_eq hrun] at hdue
  exact ⟨cb, hcb, rfl, by omega⟩

/-- A stat that has waited for two seconds: it is due after a second and a half, which the first scan does
not see. -/
theorem waits_bounded_stat :
    ∃ w, run step (init 1500000000)
        [.block .mount, .ret 0 { fd := 5, socketIno := 1 }, .block Block.stat,
          .ret 0 { fd := 5, socketIno := 1 }, .tick 1000000000, .block .scanForTimeouts,
          .tick 1000000000] = some w ∧
      w.state.outcomes 1 = [] ∧ ∃ cb ∈ w.state.created, cb.caller = 1 ∧
        (w.state.clock : Int) ≤ max ((cb.startTime : Int) + 1500000000) w.since + (1000000000 : Nat) := by
  have hrun : ((run step (init 1500000000)
      [.block .mount, .ret 0 { fd := 5, socketIno := 1 }, .block Block.stat,
        .ret 0 { fd := 5, socketIno := 1 }, .tick 1000000000, .block .scanForTimeouts,
        .tick 1000000000]).any fun w =>
      w.state.sources.timeoutTimer ∧ w.state.nextCaller = 2 ∧ w.state.outcomes 1 = []) = true := by
    decide +kernel
  have hmeets : meets step (fun w e => w.punctual 1000000000 e) (init 1500000000)
      [.block .mount, .ret 0 { fd := 5, socketIno := 1 }, .block Block.stat,
        .ret 0 { fd := 5, socketIno := 1 }, .tick 1000000000, .block .scanForTimeouts,
        .tick 1000000000] = true := by
    decide +kernel
  obtain ⟨w, hw, hfacts⟩ := (Option.any_eq_true _ _).mp hrun
  obtain ⟨htimer, hnext, hwaits⟩ := of_decide_eq_true hfacts
  have hreaches := reaches_of_run (P := fun w e => w.punctual 1000000000 e) (fun _ _ h => h) hw hmeets
  exact ⟨w, hw, hwaits, waits_bounded (by decide) hreaches htimer (by omega) hwaits⟩

end Watched

end NFSKit
