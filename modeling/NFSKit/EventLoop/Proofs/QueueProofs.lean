import NFSKit.EventLoop.Proofs.RequestProofs

/-!
# The pending queue and the registry

A queued operation stays registered and its caller waiting, as long as no timeout scan expires it: the
scan takes the operation out of the registry and resumes its caller, but leaves it in the queue, from
where it is handed to libnfs later.
-/

namespace NFSKit

open Machine

variable {s s' : State}

/-- Every queued operation is registered, its caller is waiting, and so it was for every operation
handed over out of the queue. -/
structure Queued (s : State) : Prop where
  registered : ∀ op ∈ s.pendingOperations, op.cbData ∈ s.activeContinuations
  waiting : ∀ op ∈ s.pendingOperations, s.outcomes op.cbData.caller = []
  handed : ∀ h ∈ s.handOvers, h.deferred → h.resumed = false

/-- A queued operation is requested. -/
theorem requests_pos_of_pending {op : PendingOperation} (h : op ∈ s.pendingOperations) :
    0 < s.requests op.cbData := by
  have : 0 < s.pendingOperations.countP (fun o => o.cbData = op.cbData) :=
    List.countP_pos_iff.mpr ⟨op, h, by simp⟩
  unfold Core.requests
  omega

/-- An operation that a frame is responsible for is not queued. -/
theorem pending_ne_of_holds {f : Frame} {rest : List Frame} {cb : CallbackData} (hw : WellFormed s)
    (hstack : s.stack = f :: rest) (hcb : cb ∈ f.holds) {op : PendingOperation}
    (hop : op ∈ s.pendingOperations) : op.cbData ≠ cb := by
  rintro rfl
  have hpending : 0 < s.pendingOperations.countP (fun o => o.cbData = op.cbData) :=
    List.countP_pos_iff.mpr ⟨op, hop, by simp⟩
  have hheld := List.count_pos_iff.mpr hcb
  have := Core.tokens_cons hstack op.cbData
  have := hw.tokens_le op.cbData
  omega

/-- An operation whose callback libnfs runs is not queued. -/
theorem pending_ne_of_taken {f : Frame} {rest : List Frame} {cb : CallbackData}
    {out : List Request} (hw : WellFormed s) (hstack : s.stack = f :: rest)
    (htaken : s.Taken f cb out) {op : PendingOperation} (hop : op ∈ s.pendingOperations) :
    op.cbData ≠ cb := by
  obtain ⟨hcall, -⟩ | ⟨r, hr, rfl, -⟩ := htaken
  · refine pending_ne_of_holds hw hstack ?_ hop
    rw [(Frame.holds_of_inCall hcall).1]
    exact List.mem_singleton_self cb
  · intro heq
    have hpending : 0 < s.pendingOperations.countP (fun o => o.cbData = r.cb) :=
      List.countP_pos_iff.mpr ⟨op, hop, by simp [heq]⟩
    have hout : 0 < s.outstanding.countP (fun q => q.cb = r.cb) :=
      List.countP_pos_iff.mpr ⟨r, hr, by simp⟩
    have := hw.tokens_le r.cb
    unfold Core.tokens at this
    omega

namespace Queued

/-- Operations leave the queue, and what is left stays registered and waiting. -/
theorem shrink (hq : Queued s) (hpending : ∀ op ∈ s'.pendingOperations, op ∈ s.pendingOperations)
    (hactive : ∀ op ∈ s'.pendingOperations, op.cbData ∈ s.activeContinuations →
      op.cbData ∈ s'.activeContinuations)
    (hout : ∀ op ∈ s'.pendingOperations,
      s'.outcomes op.cbData.caller = s.outcomes op.cbData.caller)
    (hhanded : s'.handOvers = s.handOvers) : Queued s' where
  registered := fun op hop => hactive op hop (hq.registered op (hpending op hop))
  waiting := fun op hop => (hout op hop).trans (hq.waiting op (hpending op hop))
  handed := by
    rw [hhanded]
    exact hq.handed

/-- Another operation leaves the registry. -/
theorem kept {cb : CallbackData} (hw : WellFormed s) (hcb : cb ∈ s.created) {op : PendingOperation}
    (hne : op.cbData ≠ cb) (hop : op.cbData ∈ s.activeContinuations) :
    op.cbData ∈ s.activeContinuations.filter (·.continuationID ≠ cb.continuationID) := by
  refine List.mem_filter.mpr ⟨hop, ?_⟩
  have hid : op.cbData.continuationID ≠ cb.continuationID := fun h =>
    hne (hw.id_inj _ (hw.active_created _ hop) cb hcb h)
  simpa using hid

end Queued

/-- A step whose scan spares the queue resumes the caller of no queued operation. -/
theorem pending_untouched {u : State} {e : Event} {k k' : Config} {a : Action}
    (hspares : ScanSparesQueue u e) (hk : Sound k) (ha : Allowed u e k a) (h : Act k a k')
    {op : PendingOperation} (hop : op ∈ k'.state.pendingOperations) :
    a ≠ .expire op.cbData ∧
      k'.state.outcomes op.cbData.caller = k.state.outcomes op.cbData.caller := by
  have hexpire : a ≠ .expire op.cbData := by
    rintro rfl
    obtain ⟨rfl, hmem, hexpired, htimeout, hpending, -⟩ := ha
    cases h with
    | @expire s c hstack hactive =>
      rw [(State.expire_fields s op.cbData).2.1] at hop
      have hcons := hk.wellFormed.pending_op op hop
      refine hspares op.cbData ?_ op (hpending ▸ hop) hcons.id_eq
      simp [scanExpires, htimeout, hmem, hexpired]
  refine ⟨hexpire, ?_⟩
  cases h.untouched hk (requests_pos_of_pending hop) with
  | same h => exact h
  | expired => exact absurd rfl hexpire
  | tornDown _ _ hpending =>
    rw [hpending] at hop
    cases hop

namespace Queued

/-- One action keeps the queue registered, if it is no expiry of a queued operation. -/
theorem act {u : State} {e : Event} {k k' : Config} {a : Action}
    (hspares : ScanSparesQueue u e) (hk : Sound k) (hq : Queued k.state)
    (ha : Allowed u e k a) (h : Act k a k') : Queued k'.state := by
  have hw := hk.wellFormed
  have huntouched : ∀ op ∈ k'.state.pendingOperations, a ≠ .expire op.cbData ∧
      k'.state.outcomes op.cbData.caller = k.state.outcomes op.cbData.caller :=
    fun op hop => pending_untouched hspares hk ha h hop
  have hout := fun op hop => (huntouched op hop).2
  cases h with
  | silent hcore =>
    exact hq.shrink (by rw [hcore]; exact fun _ h => h) (by rw [hcore]; exact fun _ _ h => h) hout
      (by rw [hcore])
  | releaseBuffer | deinit | startTeardown | closing | dropHandle | registerHandle | readdirAll
  | dropDir | skip | drained | alreadyDown | immediate | enterClose | enter | leave
  | enterRpcDestroy | leaveRpcDestroy | exportsFailed =>
    exact hq.shrink (fun _ h => h) (fun _ _ h => h) hout rfl
  | @start s site cb hstack hctx hsite =>
    refine ⟨fun op hop => List.mem_append_left _ (hq.registered op hop), hq.waiting, ?_⟩
    intro x hx hdeferred
    rcases List.mem_cons.mp hx with rfl | hx
    · rw [show site.isPending = true from hdeferred] at hsite
      cases hsite
    · exact hq.handed x hx hdeferred
  | @overflow s cb r hctx hid hcaller =>
    refine hq.shrink (fun _ h => h) (fun op hop hmem => ?_) hout rfl
    refine List.mem_filter.mpr ⟨List.mem_append_left _ hmem, ?_⟩
    have hlt : op.cbData.continuationID < s.nextContinuationID :=
      hw.id_lt _ (hw.active_created _ hmem)
    have hne : op.cbData.continuationID ≠ cb.continuationID := by omega
    simpa using hne
  | @enqueue s type cb hctx hid hcaller =>
    have hfresh : s.outcomes cb.caller = [] := (hk.resumption.fresh cb.caller hcaller.ge).1
    refine ⟨fun op hop => ?_, fun op hop => ?_, hq.handed⟩
    · rcases List.mem_append.mp hop with hop | hop
      · exact List.mem_append_left _ (hq.registered op hop)
      · obtain rfl := List.mem_singleton.mp hop
        exact List.mem_append_right _ (List.mem_singleton_self cb)
    · rcases List.mem_append.mp hop with hop | hop
      · exact hq.waiting op hop
      · obtain rfl := List.mem_singleton.mp hop
        exact hfresh
  | @expire s cb hstack hmem =>
    obtain ⟨-, hpending, -, hactive⟩ := State.expire_fields s cb
    refine hq.shrink (fun op hop => hpending ▸ hop) (fun op hop hreg => ?_) hout ?_
    · have hne : op.cbData ≠ cb := fun h => (huntouched op hop).1 (by rw [h])
      rw [show (s.expire cb).activeContinuations = _ from hactive]
      exact kept hw (hw.active_created cb hmem) hne hreg
    · dsimp only [State.expire]
      rw [State.resume_eq, State.recordCompletion_eq]
      rfl
  | @callback s s₁ s₂ f rest cb status data halive hstack htake hnote =>
    obtain ⟨out, fhs, dirs, b, r, htaken, heq⟩ := State.callback_eq htake hnote
    have hcreated : cb ∈ s.created :=
      hw.tokens_created cb (Nat.lt_of_lt_of_le (by simp [Frame.holds])
        (tokens_callback_le hstack htaken r cb))
    rw [State.recordCompletion_eq, heq] at hout ⊢
    refine hq.shrink (fun _ h => h) (fun op hop hreg => ?_) hout rfl
    exact kept hw hcreated (pending_ne_of_taken hw hstack htaken hop) hreg
  | callbackDead _ hstack htake hnote =>
    obtain ⟨out, fhs, dirs, b, r, -, heq⟩ := State.callback_eq htake hnote
    rw [heq] at hout ⊢
    exact hq.shrink (fun _ h => h) (fun _ _ h => h) hout rfl
  | @execute s i op hctx hop =>
    refine ⟨fun o ho => hq.registered o (List.mem_of_mem_eraseIdx ho),
      fun o ho => hq.waiting o (List.mem_of_mem_eraseIdx ho), ?_⟩
    intro x hx hdeferred
    rcases List.mem_cons.mp hx with rfl | hx
    · have hnone : s.outcomes op.cbData.caller = [] :=
        hq.waiting op (List.mem_of_getElem? hop)
      simp [State.addInFlight, hnone]
    · exact hq.handed x hx hdeferred
  | @finishHook s =>
    obtain ⟨stack, resumed, outcomes, failed, heq⟩ := State.finishHook_eq s
    rw [heq] at hout ⊢
    exact hq.shrink (fun _ h => h) (fun _ _ h => h) hout rfl
  | @accept s site cb ran rest hstack =>
    rw [State.enqueueRequest_eq] at hout ⊢
    split <;> exact hq.shrink (fun _ h => h) (fun _ _ h => h) (fun _ _ => rfl) rfl
  | @reject s cb ran rest r hstack hran =>
    have hholds := Frame.mem_holds_handOver .issueOperation hran
    have hcreated := hk.resumption.held_created hw hstack hholds
    rw [State.resume_eq] at hout ⊢
    exact hq.shrink (fun _ h => h)
      (fun op hop => kept hw hcreated (pending_ne_of_holds hw hstack hholds hop)) hout rfl
  | @rejectPending s i op cb ran rest r hstack hran =>
    have hholds := Frame.mem_holds_handOver (.pending i op) hran
    have hcreated := hk.resumption.held_created hw hstack hholds
    obtain ⟨rfl, hop⟩ := hw.frame_op i op cb ran (hstack ▸ List.mem_cons_self ..)
    rw [hop.id_eq, State.resume_eq] at hout ⊢
    exact hq.shrink (fun _ h => h)
      (fun o ho => kept hw hcreated (pending_ne_of_holds hw hstack hholds ho)) hout rfl
  | @rejectRaw s site cb ran rest r hstack hran =>
    have hholds := Frame.mem_holds_handOver site hran
    have hcreated := hk.resumption.held_created hw hstack hholds
    exact hq.shrink (fun _ h => h)
      (fun op hop => kept hw hcreated (pending_ne_of_holds hw hstack hholds hop)) hout rfl
  | @rejectHandle s cb ran rest r hstack hran =>
    have hholds := Frame.mem_holds_handOver .handleOperation hran
    have hcreated := hk.resumption.held_created hw hstack hholds
    exact hq.shrink (fun _ h => h)
      (fun op hop => kept hw hcreated (pending_ne_of_holds hw hstack hholds hop)) hout rfl
  | @rejectExports s n k cb ran rest hstack hran =>
    have hholds := Frame.mem_holds_handOver (.getexports n) hran
    have hcreated := hk.resumption.held_created hw hstack hholds
    exact hq.shrink (fun _ h => h)
      (fun op hop => kept hw hcreated (pending_ne_of_holds hw hstack hholds hop)) hout rfl
  | @enterDestroy s kind =>
    have hclear : (s.clearRegistries kind).pendingOperations = [] ∧
        (s.clearRegistries kind).handOvers = s.handOvers := by cases kind <;> exact ⟨rfl, rfl⟩
    refine hq.shrink ?_ ?_ hout hclear.2 <;> simp [hclear.1]
  | @leaveDestroy s kind conts rest hstack =>
    obtain ⟨bulk, metadata, counts, heq⟩ :=
      State.endTeardown_eq ((s.leaveTo rest).dropRequests .nfs) kind conts
    rw [heq, State.foldl_resume_eq] at hout ⊢
    exact hq.shrink (fun _ h => h) (fun _ _ h => h) hout rfl
  | @teardownNow s kind hctx hstack =>
    have hclear : (s.clearRegistries kind).pendingOperations = [] ∧
        (s.clearRegistries kind).handOvers = s.handOvers := by cases kind <;> exact ⟨rfl, rfl⟩
    obtain ⟨bulk, metadata, counts, heq⟩ :=
      State.endTeardown_eq (s.clearRegistries kind) kind s.activeContinuations
    rw [heq, State.foldl_resume_eq] at hout ⊢
    refine hq.shrink ?_ ?_ hout hclear.2 <;> simp [hclear.1]

end Queued

/-- As long as no timeout scan expires a queued operation, every queued operation is registered, and
no operation is handed to libnfs out of the queue after its caller has been resumed. -/
theorem queued_before_resumed {timeout : Int} {t : State}
    (h : Reaches step ScanSparesQueue (State.init timeout) t) :
    (∀ op ∈ t.pendingOperations, ∃ cb ∈ t.activeContinuations, cb.continuationID = op.id) ∧
      ∀ x ∈ t.handOvers, x.deferred → x.resumed = false := by
  obtain ⟨hk, hq⟩ := run_invariant_init h (fun k => Queued k.state)
    ⟨by simp [State.init, State.config], by simp [State.init, State.config],
      by simp [State.init, State.config]⟩
    fun u e k a k' hspares hk hq ha hact => hq.act hspares hk ha hact
  refine ⟨fun op hop => ⟨op.cbData, hq.registered op hop, ?_⟩, hq.handed⟩
  exact (hk.wellFormed.pending_op op hop).id_eq.symm

/-- At the initial depth of two, two stats are accepted and an unlink waits in the queue; the answer
to the first stat lets it go. -/
theorem queued_before_resumed_unlink :
    ∃ t, run step (State.init 60000000000)
      [.block Block.stat, .ret 0 {}, .block Block.stat, .ret 0 {}, .block Block.unlink,
        .block .handleIOEvent, .callback 1 0 (some (.pointer 7))] = some t ∧
      (t.handOvers.head?.any fun x => x.deferred && x.cb.entry == .submit .unlink) = true ∧
      ∀ x ∈ t.handOvers, x.deferred → x.resumed = false := by
  have hrun : ((run step (State.init 60000000000)
      [.block Block.stat, .ret 0 {}, .block Block.stat, .ret 0 {}, .block Block.unlink,
        .block .handleIOEvent, .callback 1 0 (some (.pointer 7))]).any fun t =>
      t.handOvers.head?.any fun x => x.deferred && x.cb.entry == .submit .unlink) = true := by
    decide +kernel
  have hspares : meets step (fun s e => decide (ScanSparesQueue s e)) (State.init 60000000000)
      [.block Block.stat, .ret 0 {}, .block Block.stat, .ret 0 {}, .block Block.unlink,
        .block .handleIOEvent, .callback 1 0 (some (.pointer 7))] = true := by
    decide +kernel
  obtain ⟨t, ht, hhead⟩ := (Option.any_eq_true _ _).mp hrun
  exact ⟨t, ht, hhead,
    (queued_before_resumed (reaches_of_run (fun _ _ => of_decide_eq_true) ht hspares)).2⟩

/-- The timeout scan resumes the caller of a queued unlink with `ETIMEDOUT` and leaves the unlink in the
queue; the late answer to the first stat hands it to libnfs. -/
theorem resumed_before_handOver :
    ∃ t, run step (State.init 60000000000)
      [.block Block.stat, .ret 0 {}, .block Block.stat, .ret 0 {}, .block Block.unlink,
        .tick 60000000001, .block .scanForTimeouts,
        .block .handleIOEvent, .callback 1 0 (some (.pointer 7))] = some t ∧
      ∃ x ∈ t.handOvers, x.deferred ∧ x.resumed ∧ x.cb.entry = .submit .unlink := by
  have hrun : ((run step (State.init 60000000000)
      [.block Block.stat, .ret 0 {}, .block Block.stat, .ret 0 {}, .block Block.unlink,
        .tick 60000000001, .block .scanForTimeouts,
        .block .handleIOEvent, .callback 1 0 (some (.pointer 7))]).any fun t =>
      t.handOvers.any fun x => x.deferred ∧ x.resumed ∧ x.cb.entry = .submit .unlink) = true := by
    decide +kernel
  obtain ⟨t, ht, hx⟩ := (Option.any_eq_true _ _).mp hrun
  obtain ⟨x, hmem, hx⟩ := List.any_eq_true.mp hx
  exact ⟨t, ht, x, hmem, of_decide_eq_true hx⟩

end NFSKit
