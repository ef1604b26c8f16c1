import NFSKit.EventLoop.Outskirts
import NFSKit.EventLoop.Proofs.FieldsProofs

/-!
# What a step does to the outskirts

The completion of an operation, the drain of the queue and the end of a teardown leave the sources, the
export query, the log handler and the settings alone. What is left are the blocks that set them.
-/

namespace NFSKit

theorem Frame.rpcCall_noteCallback (f : Frame) (i : Nat) :
    (f.noteCallback i).rpcCall = f.rpcCall := by
  cases f with
  | handOver site cb ran => cases site <;> rfl
  | _ => rfl

namespace State

/-! ## Completions and the drain -/

@[simp] theorem resume_outskirts (s : State) (cb : CallbackData) (r : Outcome) :
    (s.resume cb r).outskirts = s.outskirts := by
  rw [resume_eq]
  rfl

@[simp] theorem finishHook_outskirts (s : State) : s.finishHook.outskirts = s.outskirts := by
  unfold finishHook
  split
  · rename_i hstack
    rw [resume_outskirts]
    unfold outskirts
    rw [hstack]
    rfl
  · rfl

@[simp] theorem drainLoop_outskirts (s : State) (n i : Nat) :
    (s.drainLoop n i).outskirts = s.outskirts := by
  induction n generalizing i with
  | zero => exact s.finishHook_outskirts
  | succ n ih =>
    unfold drainLoop
    cases s.pendingOperations[i]? with
    | none => exact s.finishHook_outskirts
    | some op =>
      by_cases hcap : s.hasCapacity op.category
      · simp only [hcap, if_true]
        rfl
      · simp only [hcap]
        exact ih (i + 1)

@[simp] theorem drainFrom_outskirts (s : State) (i : Nat) :
    (s.drainFrom i).outskirts = s.outskirts :=
  s.drainLoop_outskirts _ i

@[simp] theorem issuePendingOperations_outskirts (s : State) :
    s.issuePendingOperations.outskirts = s.outskirts := by
  unfold issuePendingOperations
  cases s.context with
  | none => exact s.finishHook_outskirts
  | some _ => exact s.drainFrom_outskirts 0

theorem recordCompletion_outskirts (s : State) (c : OperationCategory) (ok : Bool) :
    (s.recordCompletion c ok).outskirts = s.outskirts := by
  rw [recordCompletion_eq]
  rfl

@[simp] theorem completionHook_outskirts (s : State) (cb : CallbackData) (ok : Bool) :
    (s.completionHook cb ok).outskirts = s.outskirts := by
  unfold completionHook handleCallbackCompletion
  by_cases halive : s.alive
  · rw [if_pos halive, issuePendingOperations_outskirts, recordCompletion_outskirts]
    by_cases hentry : cb.entry = .getexports
    · rw [if_pos hentry]
      rfl
    · rw [if_neg hentry]
      rfl
  · rw [if_neg halive]
    exact s.finishHook_outskirts

theorem dataHandler_outskirts (s : State) (cb : CallbackData) (status : Int)
    (data : Option Value) : (s.dataHandler cb status data).2.outskirts = s.outskirts := by
  unfold dataHandler
  split
  · rfl
  · split <;> rfl
  · rfl
  · split <;> rfl
  · split <;> rfl
  · rfl
  · rfl

theorem complete_outskirts (s : State) (cb : CallbackData) (r : Outcome) (ok : Bool) :
    (s.complete cb r ok).outskirts = s.outskirts := by
  unfold complete
  rw [completionHook_outskirts]
  rfl

theorem runCallback_outskirts (s : State) (cb : CallbackData) (status : Int)
    (data : Option Value) : (s.runCallback cb status data).outskirts = s.outskirts := by
  have hhandler (t : State) : (t.dataHandler cb status data).2.outskirts = t.outskirts :=
    t.dataHandler_outskirts cb status data
  unfold runCallback rpcCallback nfsCallback
  split
  · dsimp only
    split
    · rw [complete_outskirts]
      rfl
    · rw [complete_outskirts, hhandler]
      rfl
  · dsimp only
    split
    · rw [complete_outskirts, runCleanup_eq]
      rfl
    · rw [complete_outskirts, hhandler]
      rfl

/-- A callback leaves the outskirts alone. -/
theorem fireCallback_outskirts {s t : State} {id : Nat} {status : Int} {data : Option Value}
    (h : s.fireCallback id status data = some t) : t.outskirts = s.outskirts := by
  unfold fireCallback at h
  split at h
  · cases h
  · obtain ⟨⟨cb, s₁⟩, htake, hmap⟩ := Option.bind_eq_some_iff.mp h
    obtain ⟨s₂, hnote, rfl⟩ := Option.map_eq_some_iff.mp hmap
    rename_i f rest hstack
    have hnoted := f.rpcCall_noteCallback cb.caller
    have hcalls : (f.noteCallback cb.caller :: rest).filterMap Frame.rpcCall =
        s.stack.filterMap Frame.rpcCall := by
      rw [hstack, List.filterMap_cons, List.filterMap_cons, hnoted]
    have htaken : s₁.outskirts = s.outskirts := by
      obtain ⟨-, ⟨-, rfl⟩ | ⟨r, -, -, -, rfl⟩⟩ := takeRequest_cases htake <;>
        simp only [outskirts, hcalls]
    obtain ⟨fhs, dirs, rfl⟩ := noteDelivery_eq hnote
    rw [runCallback_outskirts]
    exact htaken

/-- The end of a teardown leaves the outskirts alone. -/
theorem endTeardown_outskirts (s : State) (kind : Teardown) (l : List CallbackData) :
    (s.endTeardown kind l).outskirts = s.outskirts := by
  obtain ⟨bulk, metadata, counts, heq⟩ := endTeardown_eq s kind l
  rw [heq, foldl_resume_eq]
  rfl

/-! ## Queue blocks -/

theorem submit_outskirts (s : State) (type : OperationType) (handler : DataHandler) :
    (s.submit type handler).outskirts = s.outskirts := by
  unfold submit
  extract_lets caller s' cb t
  split
  · rfl
  · split
    · rfl
    · split <;> rfl

theorem mount_outskirts (s : State) : s.mount.outskirts = s.outskirts := by
  unfold mount
  extract_lets caller s'
  split <;> rfl

theorem handleOperation_outskirts (s : State) (op : HandleOperation) (h : Nat) :
    (s.handleOperation op h).outskirts = s.outskirts := by
  unfold handleOperation
  extract_lets caller s'
  split
  · rfl
  · split
    · rfl
    · extract_lets cb t u
      have hu : u.outskirts = s.outskirts := by
        simp only [u]
        split <;> rfl
      exact hu

theorem readdirAll_outskirts (s : State) (opener dir : Nat) :
    (s.readdirAll opener dir).outskirts = s.outskirts := by
  unfold readdirAll
  extract_lets caller s'
  split <;> rfl

theorem closeFileFireAndForget_outskirts (s : State) (h : Nat) :
    (s.closeFileFireAndForget h).outskirts = s.outskirts := by
  unfold closeFileFireAndForget
  split
  · rfl
  · extract_lets s'
    split <;> rfl

theorem handleIOEvent_outskirts (s : State) : s.handleIOEvent.outskirts = s.outskirts := by
  unfold handleIOEvent
  split <;> rfl

/-- A block of an operation leaves the outskirts alone. -/
theorem runBlock_outskirts {s t : State} {b : Block} (hb : b.isPlain)
    (h : s.runBlock b = some t) : t.outskirts = s.outskirts := by
  have handle {op : HandleOperation} {n : Nat} (h : some (s.handleOperation op n) = some t) :
      t.outskirts = s.outskirts :=
    Option.some.inj h ▸ s.handleOperation_outskirts op n
  cases b with
  | getexports | scanForTimeouts | handleRpcExportsEvent | shutdown | configure
  | setLogHandler => cases hb
  | submit type handler | submitWithStatus type handler =>
    exact Option.some.inj h ▸ s.submit_outskirts type handler
  | mount => exact Option.some.inj h ▸ s.mount_outskirts
  | closeFile | readFile | writeFile | preadFile | pwriteFile | fsync | fstat | ftruncate
  | lseek => exact handle h
  | preadIntoBuffer n buffer =>
    simp only [runBlock] at h
    split at h
    · cases h
    · exact handle h
  | registerHandle opener =>
    simp only [runBlock] at h
    split at h
    · cases h
    · obtain ⟨fh, -, rfl⟩ := Option.map_eq_some_iff.mp h
      rfl
  | readdirAll opener =>
    simp only [runBlock] at h
    split at h
    · cases h
    · obtain ⟨dir, -, rfl⟩ := Option.map_eq_some_iff.mp h
      exact s.readdirAll_outskirts opener dir
  | closeFileFireAndForget n =>
    simp only [runBlock] at h
    split at h
    · exact Option.some.inj h ▸ s.closeFileFireAndForget_outskirts n
    · cases h
  | handleIOEvent => exact Option.some.inj h ▸ s.handleIOEvent_outskirts

/-! ## The settings -/

theorem settings_of_outskirts {s t : State} (h : t.outskirts = s.outskirts) :
    t.settings = s.settings :=
  congrArg Outskirts.settings h

theorem updateWriteSource_settings (s : State) : s.updateWriteSource.settings = s.settings := by
  unfold updateWriteSource
  split <;> rfl

theorem destroyContext_settings (s : State) (kind : Teardown) :
    (s.destroyContext kind).settings = s.settings := by
  unfold destroyContext
  cases kind <;> dsimp only <;> split <;>
    first | rfl | exact settings_of_outskirts (endTeardown_outskirts _ _ _)

theorem afterCleanup_settings (s : State) (next : AfterCleanup) :
    (s.afterCleanup next).settings = s.settings := by
  cases next with
  | done | getexports => rfl
  | performShutdown => exact destroyContext_settings _ _

theorem cleanupRpcExports_settings (s : State) (next : AfterCleanup) :
    (s.cleanupRpcExports next).settings = s.settings := by
  unfold cleanupRpcExports
  extract_lets t
  split
  · rfl
  · exact afterCleanup_settings t next

theorem performShutdown_settings (s : State) : s.performShutdown.settings = s.settings := by
  unfold performShutdown
  split
  · rfl
  · exact cleanupRpcExports_settings _ _

theorem foldl_expire_outskirts (l : List CallbackData) (s : State) :
    (l.foldl expire s).outskirts = s.outskirts := by
  induction l generalizing s with
  | nil => rfl
  | cons cb l ih =>
    rw [List.foldl_cons, ih, expire, resume_outskirts, recordCompletion_outskirts]
    rfl

theorem scanForTimeouts_settings (s : State) : s.scanForTimeouts.settings = s.settings := by
  have hscan := foldl_expire_outskirts (s.activeContinuations.filter s.expired) s
  unfold scanForTimeouts
  split
  · rfl
  · dsimp only
    split
    · split
      · exact (cleanupRpcExports_settings _ _).trans (settings_of_outskirts hscan)
      · exact settings_of_outskirts hscan
    · exact settings_of_outskirts hscan

theorem getexports_settings (s : State) (available : Bool) :
    (s.getexports available).settings = s.settings := by
  unfold getexports
  extract_lets caller s' n cb t u
  split
  · rfl
  · split
    · rfl
    · split <;> rfl

/-- Only the setters change the settings. -/
theorem runBlock_settings {s t : State} {b : Block} (h : s.runBlock b = some t) :
    t.settings = s.settings ∨ ∃ x, b = .configure x ∧ s.configure x = .ok t := by
  cases hb : b.isPlain with
  | true => exact .inl (settings_of_outskirts (runBlock_outskirts hb h))
  | false =>
    cases b with
    | getexports available => exact .inl (Option.some.inj h ▸ getexports_settings s available)
    | scanForTimeouts => exact .inl (Option.some.inj h ▸ scanForTimeouts_settings s)
    | handleRpcExportsEvent =>
      refine .inl (Option.some.inj h ▸ ?_)
      unfold handleRpcExportsEvent
      split <;> rfl
    | shutdown => exact .inl (Option.some.inj h ▸ performShutdown_settings s)
    | configure x =>
      simp only [runBlock] at h
      split at h
      · rename_i u hu
        obtain rfl := Option.some.inj h
        exact .inr ⟨x, rfl, hu⟩
      · exact .inl (Option.some.inj h ▸ rfl)
    | setLogHandler handler =>
      refine .inl (Option.some.inj h ▸ ?_)
      unfold setLogHandler
      split <;> rfl
    | _ => cases hb

theorem setView_settings (s : State) (ctx : Ctx) (view : LibView) :
    (s.setView ctx view).settings = s.settings := by
  cases ctx <;> rfl

theorem rejected_settings (s : State) (site : Site) (cb : CallbackData) (rc : Int) :
    (s.rejected site cb rc).settings = s.settings := by
  unfold rejected
  cases site with
  | issueOperation => exact settings_of_outskirts (resume_outskirts _ _ _)
  | handleOperation =>
    dsimp only
    rw [runCleanup_eq]
    rfl
  | mount => rfl
  | getexports n => exact cleanupRpcExports_settings _ _
  | pending i op =>
    refine (settings_of_outskirts (drainFrom_outskirts _ _)).trans ?_
    rw [updateWriteSource_settings]
    exact settings_of_outskirts (resume_outskirts _ _ _)

theorem accepted_settings (s : State) (site : Site) (cb : CallbackData) :
    (s.accepted site cb).settings = s.settings := by
  unfold accepted
  cases site with
  | issueOperation | handleOperation => exact updateWriteSource_settings _
  | mount =>
    dsimp only
    split
    · exact updateWriteSource_settings _
    · rfl
  | getexports n =>
    dsimp only
    split <;> rfl
  | pending i op =>
    exact (settings_of_outskirts (drainFrom_outskirts _ _)).trans (updateWriteSource_settings _)

theorem serviced_settings (s : State) (rc : Int) : (s.serviced rc).settings = s.settings := by
  unfold serviced
  split
  · exact destroyContext_settings _ _
  · extract_lets t
    have ht : t.settings = s.settings := by
      simp only [t]
      split <;> rfl
    refine (settings_of_outskirts (issuePendingOperations_outskirts _)).trans ?_
    rw [updateWriteSource_settings, ht]

theorem rpcServiced_settings (s : State) (rc : Int) : (s.rpcServiced rc).settings = s.settings := by
  unfold rpcServiced
  split
  · exact cleanupRpcExports_settings _ _
  · split
    · exact cleanupRpcExports_settings _ _
    · rfl

theorem enqueueRequest_settings (s : State) (ctx : Ctx) (cb : CallbackData) (ran : List Nat) :
    (s.enqueueRequest ctx cb ran).settings = s.settings := by
  rw [enqueueRequest_eq]

theorem returnFromCall_settings {s t : State} {rc : Int} {view : LibView}
    (h : s.returnFromCall rc view = some t) : t.settings = s.settings := by
  unfold returnFromCall at h
  split at h
  · cases h
  · cases h
  · dsimp only at h
    split at h
    · split at h
      · cases h
      · obtain rfl := Option.some.inj h
        rw [rejected_settings, setView_settings]
    · obtain rfl := Option.some.inj h
      rw [accepted_settings, enqueueRequest_settings, setView_settings]
  · obtain rfl := Option.some.inj h
    rw [serviced_settings, setView_settings]
  · obtain rfl := Option.some.inj h
    rw [rpcServiced_settings, setView_settings]
  · obtain rfl := Option.some.inj h
    rw [setView_settings]
  · obtain rfl := Option.some.inj h
    exact afterCleanup_settings _ _
  · obtain rfl := Option.some.inj h
    exact (settings_of_outskirts (endTeardown_outskirts _ _ _)).trans rfl

end State

/-- Only the setters change the settings. -/
theorem step_settings {s t : State} {e : Event} (h : step s e = some t) :
    t.settings = s.settings ∨ ∃ x, e = .block (.configure x) ∧ s.configure x = .ok t := by
  cases e with
  | block b =>
    simp only [step] at h
    split at h
    · rcases State.runBlock_settings h with heq | ⟨x, rfl, hx⟩
      · exact .inl heq
      · exact .inr ⟨x, rfl, hx⟩
    · cases h
  | callback id status data =>
    exact .inl (State.settings_of_outskirts (State.fireCallback_outskirts h))
  | ret rc view => exact .inl (State.returnFromCall_settings h)
  | tick d =>
    obtain rfl := Option.some.inj h
    exact .inl rfl
  | releaseBuffer b =>
    simp only [step] at h
    split at h
    · obtain rfl := Option.some.inj h
      exact .inl rfl
    · cases h
  | deinit q =>
    simp only [step] at h
    split at h
    · obtain rfl := Option.some.inj h
      exact .inl (State.performShutdown_settings _)
    · cases h

end NFSKit
