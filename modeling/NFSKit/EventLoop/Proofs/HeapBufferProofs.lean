import NFSKit.EventLoop.Proofs.RequestProofs

/-!
# Heap buffers

`readFile`, `preadFile`, `writeFile` and `pwriteFile` allocate a heap buffer. A failed call or reply
frees it through the `cleanup` closure, and the reply to a read frees it or hands it over to the
returned `Data`. The reply to a write that succeeds does neither.
-/

namespace NFSKit

open Machine

variable {s s' : State} {k k' : Config} {a : Action}

/-- Whether the request was answered by a success. -/
def Fate.isSuccess : Fate → Bool
  | .rejected => false
  | .called status => 0 ≤ status

/-- What has become of the heap buffer of `cb` when its request has met its fate. -/
def CallbackData.disposal (cb : CallbackData) : Option Fate → HeapBuffer
  | none => {}
  | some .rejected => { deallocations := 1 }
  | some (.called status) =>
    if status < 0 then { deallocations := 1 }
    else if cb.dataHandler = .takeBuffer then
      if 0 < status then { handovers := 1 } else { deallocations := 1 }
    else {}

/-- The buffers of all operations are disposed of as their requests are answered. -/
structure Disposal (s : State) : Prop where
  fresh : ∀ i, s.nextCaller ≤ i → s.fates i = none ∧ s.buffers i = {}
  wellMade : ∀ cb ∈ s.created, cb.WellMade
  frames : ∀ site cb ran, Frame.handOver site cb ran ∈ s.stack → cb.cleanup → site = .handleOperation
  unanswered : ∀ cb, 0 < s.requests cb → s.fates cb.caller = none
  balanced : ∀ cb ∈ s.created, cb.cleanup → s.buffers cb.caller = cb.disposal (s.fates cb.caller)

/-! ## One reply -/

namespace State

theorem deallocate_of_ne (s : State) {caller i : Nat} (h : i ≠ caller) :
    (s.deallocate caller).buffers i = s.buffers i := Function.update_of_ne h _ _

theorem handOverBuffer_of_ne (s : State) {caller i : Nat} (h : i ≠ caller) :
    (s.handOverBuffer caller).buffers i = s.buffers i := Function.update_of_ne h _ _

theorem runCleanup_of_ne (s : State) {cb : CallbackData} {i : Nat} (h : i ≠ cb.caller) :
    (s.runCleanup cb).buffers i = s.buffers i := by
  unfold runCleanup
  split
  · exact s.deallocate_of_ne h
  · rfl

theorem runCleanup_buffer (s : State) {cb : CallbackData} (hcleanup : cb.cleanup)
    (hbuffer : s.buffers cb.caller = {}) :
    (s.runCleanup cb).buffers cb.caller = { deallocations := 1 } := by
  simp [runCleanup, deallocate, hcleanup, hbuffer]

/-- A reply disposes of no other buffer. -/
theorem settle_of_ne (s : State) {cb : CallbackData} {status : Int} {data : Option Value} {i : Nat}
    (h : i ≠ cb.caller) : (s.settle cb status data).2.2.buffers i = s.buffers i := by
  have hhandler : (s.dataHandler cb status data).2.buffers i = s.buffers i := by
    unfold dataHandler
    cases cb.dataHandler with
    | takeBuffer =>
      dsimp only
      split
      · exact s.handOverBuffer_of_ne h
      · exact s.deallocate_of_ne h
    | unwrap | «exports» => cases data <;> simp only <;> split <;> rfl
    | _ => rfl
  unfold settle
  by_cases hentry : cb.entry = .getexports
  · by_cases hs : status = 0
    · simpa [hentry, hs] using hhandler
    · simp [hentry, hs]
  · by_cases hs : status < 0
    · simpa [hentry, hs] using s.runCleanup_of_ne h
    · simpa [hentry, hs] using hhandler

/-- What a reply does to the buffer of its operation. -/
theorem settle_buffer (s : State) {cb : CallbackData} {status : Int} {data : Option Value}
    (hmade : cb.WellMade) (hcleanup : cb.cleanup) (hbuffer : s.buffers cb.caller = {}) :
    (s.settle cb status data).2.2.buffers cb.caller = cb.disposal (some (.called status)) := by
  have hsome : cb.entry.bufferHandler.isSome := hmade.cleanup ▸ hcleanup
  obtain ⟨d, hd⟩ := Option.isSome_iff_exists.mp hsome
  have hhandler := hmade.handler d hd
  have hentry : cb.entry ≠ .getexports := by
    intro h
    rw [h] at hd
    cases hd
  have hd' : d = .takeBuffer ∨ d = .byteCount := by
    cases he : cb.entry <;> rw [he] at hd <;> simp [EntryPoint.bufferHandler] at hd <;> simp [← hd]
  unfold settle CallbackData.disposal
  by_cases hs : status < 0
  · simpa [hentry, hs] using s.runCleanup_buffer hcleanup hbuffer
  · simp only [hentry, hs, if_false, dataHandler, hhandler]
    rcases hd' with rfl | rfl
    · by_cases hpos : 0 < status
      · simp [hpos, handOverBuffer, hbuffer]
      · simp [hpos, deallocate, hbuffer]
    · simp [hbuffer]

end State

/-! ## One action -/

/-- How an action may touch the fates and the buffers: the request of `cb` meets its fate `f`. -/
structure Answered (s s' : State) (cb : CallbackData) (f : Fate) : Prop where
  requested : 0 < s.requests cb
  gone : ∀ c, 0 < s'.requests c → c.caller ≠ cb.caller
  fates : s'.fates = Function.update s.fates cb.caller (some f)
  others : ∀ i, i ≠ cb.caller → s'.buffers i = s.buffers i
  disposed : cb.cleanup → s'.buffers cb.caller = cb.disposal (some f)

theorem requests_pos_of_taken {f : Frame} {rest : List Frame} {cb : CallbackData}
    {out : List Request} (hstack : s.stack = f :: rest) (htaken : s.Taken f cb out) :
    0 < s.requests cb := by
  have := requests_callback_le hstack htaken cb
  rw [if_pos rfl] at this
  omega

/-- The callback of `cb` disposes of its buffer. -/
theorem answered_callback {s₁ s₂ : State} {f : Frame} {rest : List Frame} {cb : CallbackData}
    {status : Int} {data : Option Value} (hw : WellFormed s) (hd : Disposal s)
    (hstack : s.stack = f :: rest)
    (htake : s.takeRequest f rest cb.continuationID = some (cb, s₁))
    (hnote : s₁.noteDelivery cb status data = some s₂) :
    Answered s (s₂.enterHook cb status data) cb (.called status) := by
  obtain ⟨out, fhs, dirs, b, r, htaken, heq⟩ := State.callback_eq htake hnote
  have hpos := requests_pos_of_taken hstack htaken
  have hcreated := requested_created hw hpos
  have hbuffers : s₂.buffers = s.buffers := by
    obtain ⟨fhs, dirs, rfl⟩ := State.noteDelivery_eq hnote
    obtain ⟨-, ⟨-, rfl⟩ | ⟨q, -, -, -, rfl⟩⟩ := State.takeRequest_cases htake <;> rfl
  have hsettle : (s₂.enterHook cb status data).buffers =
      (((s₂.setFate cb.caller (.called status)).release cb).settle cb status data).2.2.buffers := rfl
  refine ⟨hpos, fun c hc => ?_, ?_, fun i hi => ?_, fun hcleanup => ?_⟩
  · intro hcaller
    rw [heq] at hc
    have hle := requests_callback_le hstack htaken c
    have hc' : 0 < s.pendingOperations.countP (fun op => op.cbData = c) +
        out.countP (fun r => r.cb = c) +
        ((f.noteCallback cb.caller :: rest).filterMap Frame.inCall).count c := hc
    obtain rfl : c = cb :=
      hw.caller_inj c (requested_created hw (by omega)) cb hcreated hcaller
    have := requests_le_tokens s c
    have := hw.tokens_le c
    rw [if_pos rfl] at hle
    omega
  · rw [heq]
  · rw [hsettle, State.settle_of_ne _ hi, ← hbuffers]
    rfl
  · rw [hsettle]
    refine State.settle_buffer _ (hd.wellMade cb hcreated) hcleanup ?_
    show s₂.buffers cb.caller = {}
    rw [hbuffers, hd.balanced cb hcreated hcleanup, hd.unanswered cb hpos]
    rfl

/-- A refused operation is requested only by the call that hands it over. -/
theorem answered_refuse {site : Site} {cb : CallbackData} {ran : List Nat} {rest : List Frame}
    (hw : WellFormed s) (hd : Disposal s) (hstack : s.stack = .handOver site cb ran :: rest)
    (hran : cb.caller ∉ ran) (hsite : site ≠ .handleOperation)
    (hrequests : ∀ c, s'.requests c ≤ (s.refuse rest cb.continuationID cb).requests c)
    (hfates : s'.fates = Function.update s.fates cb.caller (some .rejected))
    (hbuffers : s'.buffers = s.buffers) : Answered s s' cb .rejected where
  requested := by
    rw [Core.requests_cons hstack]
    simp [Frame.inCall, hran]
  gone := fun c hc =>
    caller_ne_of_refused hw hstack hran cb.continuationID (Nat.lt_of_lt_of_le hc (hrequests c))
  fates := hfates
  others := fun i _ => by rw [hbuffers]
  disposed := fun hcleanup =>
    absurd (hd.frames site cb ran (hstack ▸ List.mem_cons_self ..) hcleanup) hsite

/-- An action leaves the buffers alone, or one request meets its fate. -/
theorem Act.answers (hw : WellFormed k.state) (hd : Disposal k.state) (h : Act k a k') :
    (k'.state.fates = k.state.fates ∧ k'.state.buffers = k.state.buffers) ∨
      ∃ cb f, Answered k.state k'.state cb f := by
  cases h with
  | silent hcore => exact .inl (by rw [hcore]; exact ⟨rfl, rfl⟩)
  | expire =>
    left
    dsimp only [State.expire]
    rw [State.resume_eq, State.recordCompletion_eq]
    exact ⟨rfl, rfl⟩
  | callback _ hstack htake hnote =>
    have h := answered_callback hw hd hstack htake hnote
    rw [State.recordCompletion_eq]
    exact .inr ⟨_, _, h.requested, h.gone, h.fates, h.others, h.disposed⟩
  | callbackDead _ hstack htake hnote =>
    exact .inr ⟨_, _, answered_callback hw hd hstack htake hnote⟩
  | @finishHook s =>
    obtain ⟨stack, resumed, outcomes, failed, heq⟩ := State.finishHook_eq s
    rw [heq]
    exact .inl ⟨rfl, rfl⟩
  | accept =>
    rw [State.enqueueRequest_eq]
    split <;> exact .inl ⟨rfl, rfl⟩
  | @reject s cb ran rest r hstack hran =>
    refine .inr ⟨cb, .rejected, answered_refuse hw hd hstack hran (by simp) (fun c => ?_) ?_ ?_⟩
    · rw [State.resume_requests]
    · rw [State.resume_eq]
      rfl
    · rw [State.resume_eq]
      rfl
  | @rejectPending s i op cb ran rest r hstack hran =>
    refine .inr ⟨cb, .rejected, answered_refuse hw hd hstack hran (by simp) (fun c => ?_) ?_ ?_⟩
    · rw [State.resume_requests]
      exact le_refl _
    · rw [State.resume_eq]
      rfl
    · rw [State.resume_eq]
      rfl
  | @rejectRaw s site cb ran rest r hstack hran hsite =>
    have hne : site ≠ .handleOperation := by
      obtain rfl | ⟨n, rfl⟩ := hsite <;> simp
    exact .inr ⟨cb, .rejected,
      answered_refuse hw hd hstack hran hne (fun c => le_refl _) rfl rfl⟩
  | @rejectHandle s cb ran rest r hstack hran =>
    have hpos : 0 < s.requests cb := by
      rw [Core.requests_cons hstack]
      simp [Frame.inCall, hran]
    have hcreated := requested_created hw hpos
    refine .inr ⟨cb, .rejected, hpos, fun c hc =>
      caller_ne_of_refused hw hstack hran cb.continuationID hc, rfl,
      fun i hi => s.runCleanup_of_ne hi, fun hcleanup => s.runCleanup_buffer hcleanup ?_⟩
    rw [hd.balanced cb hcreated hcleanup, hd.unanswered cb hpos]
    rfl
  | @rejectExports s n k cb ran rest hstack hran =>
    exact .inr ⟨cb, .rejected,
      answered_refuse hw hd hstack hran (by simp) (fun c => le_refl _) rfl rfl⟩
  | @enterDestroy s kind => cases kind <;> exact .inl ⟨rfl, rfl⟩
  | @leaveDestroy s kind conts rest =>
    obtain ⟨bulk, metadata, counts, heq⟩ :=
      State.endTeardown_eq ((s.leaveTo rest).dropRequests .nfs) kind conts
    rw [heq, State.foldl_resume_eq]
    exact .inl ⟨rfl, rfl⟩
  | @teardownNow s kind =>
    obtain ⟨bulk, metadata, counts, heq⟩ :=
      State.endTeardown_eq (s.clearRegistries kind) kind s.activeContinuations
    rw [heq, State.foldl_resume_eq]
    cases kind <;> exact .inl ⟨rfl, rfl⟩
  | start =>
    dsimp only [State.handOver, State.passRetained, State.register, State.newCaller]
    exact .inl ⟨rfl, rfl⟩
  | immediate | overflow =>
    dsimp only [State.resumeContinuation, State.removeActive, State.register, State.newCaller]
    exact .inl ⟨rfl, rfl⟩
  | _ => exact .inl ⟨rfl, rfl⟩

/-- An operation that no request is answered for keeps its fate and its buffer. -/
theorem Act.keeps (hw : WellFormed k.state) (hd : Disposal k.state) (h : Act k a k') {i : Nat}
    (hi : k.state.nextCaller ≤ i ∨ ∃ cb, cb.caller = i ∧ 0 < k'.state.requests cb) :
    k'.state.fates i = k.state.fates i ∧ k'.state.buffers i = k.state.buffers i := by
  rcases h.answers hw hd with ⟨hfates, hbuffers⟩ | ⟨cb, f, hans⟩
  · rw [hfates, hbuffers]
    exact ⟨rfl, rfl⟩
  · have hne : i ≠ cb.caller := by
      rcases hi with hi | ⟨c, rfl, hc⟩
      · have := hw.caller_lt cb (requested_created hw hans.requested)
        omega
      · exact hans.gone c hc
    rw [hans.fates, Function.update_of_ne hne]
    exact ⟨rfl, hans.others i hne⟩

namespace Disposal

/-- One action keeps the account of the buffers. -/
theorem act (hw : WellFormed k.state) (hd : Disposal k.state) (h : Act k a k') :
    Disposal k'.state where
  fresh := by
    intro i hi
    have hi' := h.effects.nextCaller.trans hi
    rw [(h.keeps hw hd (.inl hi')).1, (h.keeps hw hd (.inl hi')).2]
    exact hd.fresh i hi'
  wellMade := by
    intro cb hcb
    rw [h.effects.created, List.mem_append, Option.mem_toList] at hcb
    rcases hcb with hcb | hcb
    · exact (h.made_fresh hcb).1
    · exact hd.wellMade cb hcb
  frames := by
    intro site cb ran hf hcleanup
    rcases h.handOver_mem hf with ⟨ran', hf'⟩ | rfl | ⟨i, op, -, hop, rfl⟩
    · exact hd.frames site cb ran' hf' hcleanup
    · cases h with
      | start _ _ _ _ _ _ hissued => exact hissued.buffered hcleanup
    · rw [(hw.pending_op op hop).cleanup_eq] at hcleanup
      cases hcleanup
  unanswered := by
    intro cb hcb
    rw [(h.keeps hw hd (.inr ⟨cb, rfl, hcb⟩)).1]
    by_cases hmade : a.made = some cb
    · exact (hd.fresh cb.caller (h.made_fresh hmade).2.ge).1
    · exact hd.unanswered cb (Nat.lt_of_lt_of_le hcb (h.requests_le hmade))
  balanced := by
    intro cb hcb hcleanup
    rw [h.effects.created, List.mem_append, Option.mem_toList] at hcb
    rcases hcb with hcb | hcb
    · -- the operation has just been made
      have hge := (h.made_fresh hcb).2.ge
      rw [(h.keeps hw hd (.inl hge)).1, (h.keeps hw hd (.inl hge)).2, (hd.fresh _ hge).1,
        (hd.fresh _ hge).2]
      rfl
    · rcases h.answers hw hd with ⟨hfates, hbuffers⟩ | ⟨c, f, hans⟩
      · rw [hfates, hbuffers]
        exact hd.balanced cb hcb hcleanup
      · by_cases heq : cb.caller = c.caller
        · obtain rfl : cb = c :=
            hw.caller_inj cb hcb c (requested_created hw hans.requested) heq
          rw [hans.fates, Function.update_self]
          exact hans.disposed hcleanup
        · rw [hans.fates, Function.update_of_ne heq, hans.others _ heq]
          exact hd.balanced cb hcb hcleanup

end Disposal

/-! ## Runs -/

/-- The account of the buffers holds in every reachable state. -/
theorem disposal_of_reachable {timeout : Int} {t : State}
    (h : Reachable step (State.init timeout) t) : Disposal t := by
  refine (run_invariant_init h (fun k => Disposal k.state) ?_ ?_).2
  · exact ⟨by simp [State.init, State.config], by simp [State.init, State.config],
      by simp [State.init, State.config], by simp [State.init, State.config],
      by simp [State.init, State.config]⟩
  · exact fun u e k a k' _ hk hd _ hact => hd.act hk.wellFormed hact

/-- The buffer is disposed of by every fate but one. -/
theorem CallbackData.WellMade.disposal_count {cb : CallbackData} (hmade : cb.WellMade)
    (hentry : cb.entry ∈ [EntryPoint.readFile, .preadFile, .writeFile, .pwriteFile]) (f : Fate) :
    (cb.disposal (some f)).deallocations + (cb.disposal (some f)).handovers =
      if cb.entry ∈ [EntryPoint.writeFile, .pwriteFile] ∧ f.isSuccess then 0 else 1 := by
  have hhandler : cb.dataHandler = .takeBuffer ↔
      ¬ cb.entry ∈ [EntryPoint.writeFile, .pwriteFile] := by
    simp only [List.mem_cons, List.not_mem_nil, or_false] at hentry
    rcases hentry with he | he | he | he <;>
      rw [hmade.handler _ (show cb.entry.bufferHandler = _ by rw [he]; rfl), he] <;> decide
  cases f with
  | rejected => simp [CallbackData.disposal, Fate.isSuccess]
  | called status =>
    unfold CallbackData.disposal Fate.isSuccess
    by_cases hs : status < 0
    · have hnot : ¬ 0 ≤ status := by omega
      simp [hs, hnot]
    · have hle : 0 ≤ status := by omega
      by_cases hwrite : cb.entry ∈ [EntryPoint.writeFile, .pwriteFile]
      · have hne : ¬ cb.dataHandler = .takeBuffer := fun h => hhandler.mp h hwrite
        simp only [hs, if_false, hne]
        rw [if_pos ⟨hwrite, by simpa using hle⟩]
      · simp only [hs, if_false, hhandler.mpr hwrite, if_true]
        rw [@if_neg (cb.entry ∈ [EntryPoint.writeFile, .pwriteFile] ∧ _) _ fun h => hwrite h.1]
        split <;> rfl

/-- When the issuing call of a read or a write has failed or its callback has been processed, its heap
buffer has been deallocated or handed over exactly once, unless it was a write and the reply a
success; and no buffer is ever disposed of twice. -/
theorem buffer_disposed_once {timeout : Int} {t : State}
    (h : Reachable step (State.init timeout) t) {cb : CallbackData} (hcb : cb ∈ t.created)
    (hentry : cb.entry ∈ [EntryPoint.readFile, .preadFile, .writeFile, .pwriteFile]) :
    (t.buffers cb.caller).deallocations + (t.buffers cb.caller).handovers ≤ 1 ∧
      ∀ f, t.fates cb.caller = some f →
        ((t.buffers cb.caller).deallocations + (t.buffers cb.caller).handovers = 1 ↔
          ¬ (cb.entry ∈ [EntryPoint.writeFile, .pwriteFile] ∧ f.isSuccess)) := by
  have hd := disposal_of_reachable h
  have hmade := hd.wellMade cb hcb
  have hcleanup : cb.cleanup := by
    rw [hmade.cleanup]
    simp only [List.mem_cons, List.not_mem_nil, or_false] at hentry
    rcases hentry with he | he | he | he <;> rw [he] <;> rfl
  rw [hd.balanced cb hcb hcleanup]
  cases hfate : t.fates cb.caller with
  | none => simp [CallbackData.disposal]
  | some f =>
    have hcount := hmade.disposal_count hentry f
    refine ⟨?_, fun f' hf' => ?_⟩
    · rw [hcount]
      split <;> omega
    · obtain rfl : f = f' := Option.some.inj hf'
      rw [hcount]
      split <;> simp_all

/-- A read whose reply carries data hands its buffer over, once. -/
theorem buffer_disposed_once_read :
    ∃ t, run step (State.init 60000000000)
      [.block Block.openFile, .ret 0 {}, .block .handleIOEvent, .callback 1 0 (some (.pointer 7)),
        .ret 0 {}, .block (.registerHandle 0), .block (.readFile 1), .ret 0 {},
        .block .handleIOEvent, .callback 2 4096 none] = some t ∧
      ∃ cb ∈ t.created, cb.entry = .readFile ∧ t.fates cb.caller = some (.called 4096) ∧
        (t.buffers cb.caller).deallocations + (t.buffers cb.caller).handovers = 1 := by
  have hrun : ((run step (State.init 60000000000)
      [.block Block.openFile, .ret 0 {}, .block .handleIOEvent, .callback 1 0 (some (.pointer 7)),
        .ret 0 {}, .block (.registerHandle 0), .block (.readFile 1), .ret 0 {},
        .block .handleIOEvent, .callback 2 4096 none]).any fun t =>
      t.created.any fun cb => cb.entry = .readFile ∧ t.fates cb.caller = some (.called 4096)) =
        true := by
    decide +kernel
  obtain ⟨t, ht, hx⟩ := (Option.any_eq_true _ _).mp hrun
  obtain ⟨cb, hcb, hx⟩ := List.any_eq_true.mp hx
  obtain ⟨hentry, hfate⟩ := of_decide_eq_true hx
  refine ⟨t, ht, cb, hcb, hentry, hfate, ?_⟩
  refine ((buffer_disposed_once (reachable_of_run ht) hcb (by simp [hentry])).2 _ hfate).mpr ?_
  simp [hentry]

/-- The buffer of a write that succeeds is neither freed nor handed over. -/
theorem write_buffer_leaks :
    ∃ t, run step (State.init 60000000000) (openEvents 7 ++
      [.block (.writeFile 1), .ret 0 .connected, .block .handleIOEvent, .callback 3 4096 none,
        .ret 0 .connected]) = some t ∧
      ∃ cb ∈ t.created, cb.entry = .writeFile ∧ t.fates cb.caller = some (.called 4096) ∧
        (t.buffers cb.caller).deallocations + (t.buffers cb.caller).handovers = 0 := by
  have hrun : ((run step (State.init 60000000000) (openEvents 7 ++
      [.block (.writeFile 1), .ret 0 .connected, .block .handleIOEvent, .callback 3 4096 none,
        .ret 0 .connected])).any fun t =>
      t.created.any fun cb => cb.entry = .writeFile ∧ t.fates cb.caller = some (.called 4096) ∧
        (t.buffers cb.caller).deallocations + (t.buffers cb.caller).handovers = 0) = true := by
    decide +kernel
  obtain ⟨t, ht, hx⟩ := (Option.any_eq_true _ _).mp hrun
  obtain ⟨cb, hcb, hx⟩ := List.any_eq_true.mp hx
  exact ⟨t, ht, cb, hcb, of_decide_eq_true hx⟩

end NFSKit
