import NFSKit.EventLoop.Proofs.ActionsProofs
import NFSKit.Foundations.Counting

/-!
# Every reachable state is well-formed

The actions keep `WellFormed`: most of them leave the responsibility for an operation where it is or
pass it on, and the ones that make an operation give it a fresh id and a fresh continuation.
-/

namespace NFSKit

open Machine Counting

/-! ## Responsibility -/

theorem Core.tokens_cons {s : Core} {f : Frame} {rest : List Frame} (hstack : s.stack = f :: rest)
    (cb : CallbackData) :
    s.tokens cb = s.pendingOperations.countP (fun op => op.cbData = cb) +
      s.outstanding.countP (fun r => r.cb = cb) +
      (f.holds.count cb + (rest.flatMap Frame.holds).count cb) := by
  unfold Core.tokens
  rw [hstack, List.flatMap_cons, List.count_append]

theorem Frame.holds_noteCallback (f : Frame) (caller : Nat) (cb : CallbackData) :
    (f.noteCallback caller).holds.count cb ≤ f.holds.count cb := by
  cases f with
  | handOver site c ran =>
    simp only [Frame.noteCallback, Frame.holds, List.mem_cons]
    split <;> split <;> simp_all
  | _ => exact le_refl _

/-- The frame gives up the request whose callback runs. -/
theorem Frame.holds_of_inCall {f : Frame} {cb : CallbackData} (h : f.inCall = some cb) :
    f.holds = [cb] ∧ (f.noteCallback cb.caller).holds = [] := by
  cases f with
  | handOver site c ran =>
    simp only [Frame.inCall] at h
    split at h
    · cases h
    · rename_i hran
      obtain rfl : c = cb := Option.some.inj h
      exact ⟨if_neg hran, if_pos (by simp)⟩
  | _ => cases h

/-- A callback passes the responsibility for its request to its completion hook. -/
theorem tokens_callback_le {s : State} {f : Frame} {rest : List Frame} {cb : CallbackData}
    {out : List Request} (hstack : s.stack = f :: rest) (htaken : s.Taken f cb out) (r : Outcome)
    (c : CallbackData) :
    s.pendingOperations.countP (fun op => op.cbData = c) + out.countP (fun r => r.cb = c) +
      ((Frame.completionHook cb r :: f.noteCallback cb.caller :: rest).flatMap Frame.holds).count c ≤
      s.tokens c := by
  rw [Core.tokens_cons hstack]
  simp only [List.flatMap_cons, List.count_append]
  have hhook : (Frame.completionHook cb r).holds.count c = if cb = c then 1 else 0 := by
    simp [Frame.holds, List.count_singleton]
  obtain ⟨hcall, rfl⟩ | ⟨q, hq, rfl, -, rfl⟩ := htaken
  · obtain ⟨hholds, hnone⟩ := Frame.holds_of_inCall hcall
    rw [hhook, hholds, hnone, List.count_singleton]
    simp
  · have herase := countP_eq_countP_erase_add (fun r => r.cb = c) hq
    have hle := Frame.holds_noteCallback f q.cb.caller c
    simp only [decide_eq_true_eq] at herase
    rw [hhook, herase]
    omega

/-! ## Preservation -/

/-- An element with a greater key than all others keeps the keys distinct. -/
theorem key_inj_cons {α : Type} {l : List α} {x : α} (key : α → Nat)
    (hlt : ∀ a ∈ l, key a < key x) (hinj : ∀ a ∈ l, ∀ b ∈ l, key a = key b → a = b) :
    ∀ a ∈ x :: l, ∀ b ∈ x :: l, key a = key b → a = b := by
  intro a ha b hb hab
  rcases List.mem_cons.mp ha with ha | ha <;> rcases List.mem_cons.mp hb with hb | hb
  · rw [ha, hb]
  · have := hlt b hb
    rw [← ha] at this
    omega
  · have := hlt a ha
    rw [← hb] at this
    omega
  · exact hinj a ha b hb hab

namespace WellFormed

/-- The bookkeeping does not depend on the sources or the settings. -/
theorem congr {s s' : State} (hw : WellFormed s) (h : s'.toCore = s.toCore) : WellFormed s' := by
  cases s' with
  | mk c' =>
    cases (h : c' = s.toCore)
    exact { hw with }

variable {s : State}

/-- Frames and requests move, and no operation gets a second one to be responsible for it. -/
theorem move {stack : List Frame} {out : List Request} {pending : List PendingOperation}
    (hw : WellFormed s)
    (htokens : ∀ c, pending.countP (fun op => op.cbData = c) + out.countP (fun r => r.cb = c) +
      (stack.flatMap Frame.holds).count c ≤ s.tokens c)
    (hpending : ∀ op ∈ pending, op ∈ s.pendingOperations)
    (hframes : ∀ f ∈ stack, f ∈ s.stack ∨ (∀ cb ∈ f.snapshot, cb ∈ s.created) ∧
      ∀ i op cb ran, f = .handOver (.pending i op) cb ran → op.cbData = cb ∧ op.Consistent)
    (hnested : NestedAbove stack) :
    WellFormed ({ s with stack := stack, outstanding := out, pendingOperations := pending }) where
  caller_lt := hw.caller_lt
  id_lt := hw.id_lt
  id_inj := hw.id_inj
  caller_inj := hw.caller_inj
  active_nodup := hw.active_nodup
  active_created := hw.active_created
  tokens_created := fun c h => hw.tokens_created c (Nat.lt_of_lt_of_le h (htokens c))
  tokens_le := fun c => (htokens c).trans (hw.tokens_le c)
  snapshot_created := by
    intro f hf cb hcb
    rcases hframes f hf with h | h
    · exact hw.snapshot_created f h cb hcb
    · exact h.1 cb hcb
  pending_op := fun op h => hw.pending_op op (hpending op h)
  frame_op := by
    intro i op cb ran hf
    rcases hframes _ hf with h | h
    · exact hw.frame_op i op cb ran h
    · exact h.2 i op cb ran rfl
  nested := hnested
  retired := by
    intro hc
    obtain ⟨ha, hp⟩ := hw.retired hc
    refine ⟨ha, List.eq_nil_iff_forall_not_mem.mpr fun op hop => ?_⟩
    have := hpending op hop
    rw [show s.pendingOperations = [] from hp] at this
    cases this

/-- The innermost call is over. -/
theorem leave {f : Frame} {rest : List Frame} (hw : WellFormed s) (hstack : s.stack = f :: rest) :
    WellFormed (s.leaveTo rest) := by
  have hnested : NestedAbove s.stack := hw.nested
  rw [hstack] at hnested
  refine hw.move (fun c => ?_) (fun _ h => h) (fun g hg => .inl ?_) hnested.tail
  · rw [Core.tokens_cons hstack]
    omega
  · rw [hstack]
    exact List.mem_cons_of_mem _ hg

theorem removeActive (hw : WellFormed s) (id : Nat) : WellFormed (s.removeActive id) :=
  { hw with
    active_nodup := hw.active_nodup.filter _
    active_created := fun cb h => hw.active_created cb (List.mem_of_mem_filter h)
    retired := fun hc => by
      obtain ⟨ha, hp⟩ := hw.retired hc
      refine ⟨?_, hp⟩
      show s.activeContinuations.filter _ = []
      rw [show s.activeContinuations = [] from ha]
      rfl }

/-- libnfs forgets the requests of a context. -/
theorem dropRequests (hw : WellFormed s) (ctx : Ctx) :
    WellFormed (s.dropRequests ctx) := by
  refine hw.move (fun c => ?_) (fun _ h => h) (fun f h => .inl h) hw.nested
  have := countP_filter_le (fun r : Request => decide (r.cb = c)) (fun r => decide (r.ctx ≠ ctx))
    s.outstanding
  unfold Core.tokens
  omega

/-- A `CallbackData` with the next id and the next continuation is new. -/
theorem fresh {cb : CallbackData} (hw : WellFormed s)
    (hid : cb.continuationID = s.nextContinuationID) : cb ∉ s.created := by
  intro h
  have : cb.continuationID < s.nextContinuationID := hw.id_lt cb h
  omega

/-- Registering a new operation. -/
theorem register {cb : CallbackData} (hw : WellFormed s) (hctx : s.context.isSome)
    (hid : cb.continuationID = s.nextContinuationID) (hcaller : cb.caller = s.nextCaller) :
    WellFormed (s.newCaller.register cb) := by
  have hfresh : cb ∉ s.created := hw.fresh hid
  have hids : ∀ c ∈ s.created, c.continuationID < s.nextContinuationID := hw.id_lt
  have hcallers : ∀ c ∈ s.created, c.caller < s.nextCaller := hw.caller_lt
  refine { hw with
    caller_lt := ?_
    id_lt := ?_
    id_inj := ?_
    caller_inj := ?_
    active_nodup := ?_
    active_created := ?_
    tokens_created := fun c h => List.mem_cons_of_mem _ (hw.tokens_created c h)
    snapshot_created := fun f hf c hc => List.mem_cons_of_mem _ (hw.snapshot_created f hf c hc)
    retired := fun hc => ?_ }
  · show ∀ c ∈ cb :: s.created, c.caller < s.nextCaller + 1
    intro c hc
    rcases List.mem_cons.mp hc with rfl | hc
    · omega
    · have := hcallers c hc
      omega
  · show ∀ c ∈ cb :: s.created, c.continuationID < s.nextContinuationID + 1
    intro c hc
    rcases List.mem_cons.mp hc with rfl | hc
    · omega
    · have := hids c hc
      omega
  · exact key_inj_cons CallbackData.continuationID (fun c hc => hid ▸ hids c hc) hw.id_inj
  · exact key_inj_cons CallbackData.caller (fun c hc => hcaller ▸ hcallers c hc) hw.caller_inj
  · show (s.activeContinuations ++ [cb]).Nodup
    refine List.nodup_append.mpr ⟨hw.active_nodup, List.nodup_singleton _, ?_⟩
    rintro a ha b hb rfl
    obtain rfl : a = cb := by simpa using hb
    exact hfresh (hw.active_created a ha)
  · show ∀ c ∈ s.activeContinuations ++ [cb], c ∈ cb :: s.created
    intro c hc
    rcases List.mem_append.mp hc with hc | hc
    · exact List.mem_cons_of_mem _ (hw.active_created c hc)
    · exact List.mem_cons.mpr (.inl (by simpa using hc))
  · rw [show s.context = none from hc] at hctx
    cases hctx

/-- A new operation becomes the responsibility of one queue entry or frame. -/
theorem adopt {cb : CallbackData} {stack : List Frame} {pending : List PendingOperation}
    (hw : WellFormed s) (hcreated : cb ∈ s.created) (hnone : s.tokens cb = 0)
    (htokens : ∀ c, pending.countP (fun op => op.cbData = c) +
      s.outstanding.countP (fun r => r.cb = c) + (stack.flatMap Frame.holds).count c =
      s.tokens c + if cb = c then 1 else 0)
    (hpending : ∀ op ∈ pending, op.Consistent)
    (hsnapshot : ∀ f ∈ stack, ∀ c ∈ f.snapshot, c ∈ s.created)
    (hframe : ∀ i op c ran, Frame.handOver (.pending i op) c ran ∈ stack →
      op.cbData = c ∧ op.Consistent)
    (hnested : NestedAbove stack) (hctx : s.context.isSome) :
    WellFormed ({ s with stack := stack, pendingOperations := pending }) where
  caller_lt := hw.caller_lt
  id_lt := hw.id_lt
  id_inj := hw.id_inj
  caller_inj := hw.caller_inj
  active_nodup := hw.active_nodup
  active_created := hw.active_created
  tokens_created := by
    intro c h
    have hc := htokens c
    have h' : 0 < s.tokens c + if cb = c then 1 else 0 := hc ▸ h
    split at h'
    · rename_i heq
      exact heq ▸ hcreated
    · exact hw.tokens_created c (by simpa using h')
  tokens_le := by
    intro c
    refine (htokens c).le.trans ?_
    split
    · rename_i heq
      rw [← heq, hnone]
    · exact hw.tokens_le c
  snapshot_created := hsnapshot
  pending_op := hpending
  frame_op := hframe
  nested := hnested
  retired := fun hc => by
    rw [show s.context = none from hc] at hctx
    cases hctx

end WellFormed

/-- What an accepted hand-over leaves: the request is libnfs's, unless its callback has run. -/
theorem tokens_accept_le {s : State} {site : Site} {cb : CallbackData} {ran : List Nat}
    {rest : List Frame} (hstack : s.stack = .handOver site cb ran :: rest) (ctx : Ctx)
    (c : CallbackData) :
    s.pendingOperations.countP (fun op => op.cbData = c) +
      (if cb.caller ∈ ran then s.outstanding else s.outstanding ++ [⟨ctx, cb⟩]).countP
        (fun r => r.cb = c) + (rest.flatMap Frame.holds).count c ≤ s.tokens c := by
  rw [Core.tokens_cons hstack]
  by_cases hran : cb.caller ∈ ran
  · rw [if_pos hran]
    omega
  · rw [if_neg hran, List.countP_append]
    simp only [Frame.holds, if_neg hran, List.count_singleton, List.countP_singleton,
      decide_eq_true_eq, beq_iff_eq]
    omega

namespace WellFormed

variable {s : State}

theorem start {site : Site} {cb : CallbackData} (hw : WellFormed s) (hstack : s.stack = [])
    (hctx : s.context.isSome) (hsite : site.isPending = false)
    (hid : cb.continuationID = s.nextContinuationID) (hcaller : cb.caller = s.nextCaller) :
    WellFormed (((s.newCaller.register cb).passRetained cb).handOver site cb) := by
  have hr : WellFormed (s.newCaller.register cb) := hw.register hctx hid hcaller
  have hnone : s.tokens cb = 0 := by
    by_contra hpos
    exact hw.fresh hid (hw.tokens_created cb (Nat.pos_of_ne_zero hpos))
  have ha : WellFormed ({ s.newCaller.register cb with
      stack := .handOver site cb [] :: s.stack }) := by
    refine hr.adopt (List.mem_cons_self ..) hnone ?_ hw.pending_op ?_ ?_ ?_ hctx
    · intro c
      simp [Core.tokens, State.register, State.newCaller, hstack, Frame.holds, List.count_singleton]
    · intro f hf c hc
      rw [hstack, List.mem_singleton] at hf
      subst hf
      cases hc
    · intro i op c ran hf
      rw [hstack, List.mem_singleton] at hf
      injection hf with hf
      subst hf
      cases hsite
    · rw [hstack]
      exact .singleton _
  exact { ha with }

theorem enqueue {type : OperationType} {cb : CallbackData} (hw : WellFormed s)
    (hctx : s.context.isSome) (hid : cb.continuationID = s.nextContinuationID)
    (hcaller : cb.caller = s.nextCaller) (hcategory : cb.operationCategory = type.category)
    (hcleanup : cb.cleanup = false) :
    WellFormed { (s.newCaller.register cb).passRetained cb with
      pendingOperations := s.pendingOperations ++ [⟨cb.continuationID, type, cb⟩] } := by
  have hr : WellFormed (s.newCaller.register cb) := hw.register hctx hid hcaller
  have hnone : s.tokens cb = 0 := by
    by_contra hpos
    exact hw.fresh hid (hw.tokens_created cb (Nat.pos_of_ne_zero hpos))
  have ha : WellFormed { s.newCaller.register cb with
      stack := s.stack
      pendingOperations := s.pendingOperations ++ [⟨cb.continuationID, type, cb⟩] } := by
    refine hr.adopt (List.mem_cons_self ..) hnone ?_ ?_ hr.snapshot_created hr.frame_op hr.nested hctx
    · intro c
      simp only [Core.tokens, State.register, State.newCaller, List.countP_append,
        List.countP_singleton, decide_eq_true_eq]
      omega
    · intro op hop
      rcases List.mem_append.mp hop with hop | hop
      · exact hw.pending_op op hop
      · obtain rfl := List.mem_singleton.mp hop
        exact ⟨rfl, hcategory.symm, hcleanup⟩
  exact { ha with }

/-- The request of a callback moves to the completion hook. -/
theorem enterHook {s₁ s₂ : State} {f : Frame} {rest : List Frame} {cb : CallbackData} {status : Int}
    {data : Option Value} (hw : WellFormed s) (hstack : s.stack = f :: rest)
    (htake : s.takeRequest f rest cb.continuationID = some (cb, s₁))
    (hnote : s₁.noteDelivery cb status data = some s₂) :
    WellFormed (s₂.enterHook cb status data) := by
  obtain ⟨out, fhs, dirs, b, r, htaken, heq⟩ := State.callback_eq htake hnote
  have hnested : NestedAbove (f :: rest) := hstack ▸ hw.nested
  have hmove : WellFormed ({ s with
      stack := .completionHook cb r :: f.noteCallback cb.caller :: rest
      outstanding := out
      pendingOperations := s.pendingOperations }) := by
    refine hw.move (tokens_callback_le hstack htaken r) (fun _ h => h) ?_ ?_
    · intro g hg
      rcases List.mem_cons.mp hg with rfl | hg
      · exact .inr ⟨fun c hc => (by cases hc), fun _ _ _ _ h => (by cases h)⟩
      rcases List.mem_cons.mp hg with rfl | hg
      · -- the frame of the call, which may be a hand-over out of the queue
        have hf : f ∈ s.stack := hstack ▸ List.mem_cons_self ..
        cases f with
        | handOver site c ran =>
          refine .inr ⟨fun c hc => (by cases hc), fun i op c' ran' h => ?_⟩
          injection h with h₁ h₂ h₃
          subst h₁ h₂
          exact hw.frame_op i op c ran hf
        | _ => exact .inl hf
      · exact .inl (hstack ▸ List.mem_cons_of_mem _ hg)
    · refine NestedAbove.cons ?_ rfl
      cases f <;> exact hnested
  rw [heq]
  exact { hmove with }

theorem execute {i : Nat} {op : PendingOperation} (hw : WellFormed s)
    (hop : s.pendingOperations[i]? = some op) : WellFormed (s.executePending i op) := by
  have hmem : op ∈ s.pendingOperations := List.mem_of_getElem? hop
  have hmove : WellFormed ({ s with
      stack := .handOver (.pending i op) op.cbData [] :: s.stack
      outstanding := s.outstanding
      pendingOperations := s.pendingOperations.eraseIdx i }) := by
    refine hw.move (fun c => ?_) (fun _ h => List.mem_of_mem_eraseIdx h) ?_ (.cons hw.nested rfl)
    · have herase := countP_eq_countP_eraseIdx_add (fun op => op.cbData = c) hop
      simp only [decide_eq_true_eq] at herase
      simp only [Core.tokens, List.flatMap_cons, List.count_append, Frame.holds, List.not_mem_nil,
        if_false, List.count_singleton, beq_iff_eq]
      omega
    · intro f hf
      rcases List.mem_cons.mp hf with rfl | hf
      · refine .inr ⟨fun c hc => (by cases hc), fun i' op' c ran h => ?_⟩
        injection h with h₁ h₂
        injection h₁ with _ h₁
        subst h₁ h₂
        exact ⟨rfl, hw.pending_op op hmem⟩
      · exact .inl hf
  exact { hmove with }

theorem resume (hw : WellFormed s) (cb : CallbackData) (r : Outcome) :
    WellFormed (s.resume cb r) := by
  rw [State.resume_eq]
  exact { hw with }

theorem endTeardown (hw : WellFormed s) (kind : Teardown) (l : List CallbackData) :
    WellFormed (s.endTeardown kind l) := by
  obtain ⟨bulk, metadata, counts, heq⟩ := State.endTeardown_eq s kind l
  rw [heq, State.foldl_resume_eq]
  exact { hw with }

theorem clearRegistries (hw : WellFormed s) (kind : Teardown) :
    WellFormed (s.clearRegistries kind) := by
  have hmove : WellFormed ({ s with
      stack := s.stack, outstanding := s.outstanding, pendingOperations := [] }) := by
    refine hw.move (fun c => ?_) (by simp) (fun f h => .inl h) hw.nested
    simp only [Core.tokens, List.countP_nil]
    omega
  have hclear : WellFormed ({ s with activeContinuations := [], pendingOperations := [] }) :=
    { hmove with
      active_nodup := List.nodup_nil
      active_created := by simp
      retired := fun _ => ⟨rfl, rfl⟩ }
  unfold State.clearRegistries
  cases kind
  · exact { hclear with }
  · exact hclear

theorem withBuffers (hw : WellFormed s) (b : Nat → HeapBuffer) : WellFormed (s.withBuffers b) :=
  { hw with }

theorem addInFlight (hw : WellFormed s) (c : OperationCategory) (d : Int) :
    WellFormed (s.addInFlight c d) := { hw with }

theorem resumeContinuation (hw : WellFormed s) (caller : Nat) (r : Outcome) :
    WellFormed (s.resumeContinuation caller r) := { hw with }

theorem recordCompletion (hw : WellFormed s) (c : OperationCategory) (ok : Bool) :
    WellFormed (s.recordCompletion c ok) := by
  rw [State.recordCompletion_eq]
  exact { hw with }

/-- A call that begins a queue block or a teardown and is responsible for no operation. -/
theorem enter {f : Frame} (hw : WellFormed s) (hstack : s.stack = []) (hholds : f.holds = [])
    (hsnapshot : ∀ cb ∈ f.snapshot, cb ∈ s.created) (hnested : f.nested = false) :
    WellFormed { s with stack := f :: s.stack } := by
  have hmove : WellFormed { s with
      stack := f :: s.stack
      outstanding := s.outstanding
      pendingOperations := s.pendingOperations } := by
    refine hw.move (fun c => ?_) (fun _ h => h) (fun g hg => ?_) ?_
    · simp [Core.tokens, List.flatMap_cons, hholds]
    · rcases List.mem_cons.mp hg with rfl | hg
      · refine .inr ⟨hsnapshot, fun i op cb ran h => ?_⟩
        subst h
        cases hnested
      · exact .inl hg
    · rw [hstack]
      exact .singleton f
  exact hmove

theorem refuse {f : Frame} {rest : List Frame} (hw : WellFormed s) (hstack : s.stack = f :: rest)
    {id : Nat} {cb : CallbackData} : WellFormed (s.refuse rest id cb) :=
  { (hw.leave hstack).removeActive id with }

/-- A refused `getexports` stays the responsibility of the call that destroys its context. -/
theorem rejectExports {n k : Nat} {cb : CallbackData} {ran : List Nat} {rest : List Frame} {id : Nat}
    (hw : WellFormed s) (hstack : s.stack = .handOver (.getexports n) cb ran :: rest)
    (hran : cb.caller ∉ ran) (hrest : rest = []) :
    WellFormed (s.refuse (.rpcDestroy k (.getexports cb) :: rest) id cb) := by
  have hmove : WellFormed { s with
      stack := .rpcDestroy k (.getexports cb) :: rest
      outstanding := s.outstanding
      pendingOperations := s.pendingOperations } := by
    refine hw.move (fun c => ?_) (fun _ h => h) (fun g hg => ?_) ?_
    · rw [Core.tokens_cons hstack]
      simp only [Frame.holds, if_neg hran, List.flatMap_cons, List.count_append]
      exact le_refl _
    · rcases List.mem_cons.mp hg with rfl | hg
      · exact .inr ⟨fun c hc => (by cases hc), fun _ _ _ _ h => (by cases h)⟩
      · exact .inl (hstack ▸ List.mem_cons_of_mem _ hg)
    · rw [hrest]
      exact .singleton _
  exact { hmove.removeActive id with }

theorem accept {site : Site} {cb : CallbackData} {ran : List Nat} {rest : List Frame}
    (hw : WellFormed s) (hstack : s.stack = .handOver site cb ran :: rest) (ctx : Ctx) :
    WellFormed ((s.leaveTo rest).enqueueRequest ctx cb ran) := by
  have hnested : NestedAbove (.handOver site cb ran :: rest) := hstack ▸ hw.nested
  have hmove : WellFormed { s with
      stack := rest
      outstanding := if cb.caller ∈ ran then s.outstanding else s.outstanding ++ [⟨ctx, cb⟩]
      pendingOperations := s.pendingOperations } :=
    hw.move (tokens_accept_le hstack ctx) (fun _ h => h)
      (fun f hf => .inl (hstack ▸ List.mem_cons_of_mem _ hf)) hnested.tail
  rw [State.enqueueRequest_eq]
  exact hmove

theorem finishHook (hw : WellFormed s) : WellFormed s.finishHook := by
  unfold State.finishHook
  split
  · rename_i hstack
    exact (hw.leave hstack).resume _ _
  · exact hw

/-- One action keeps the state well-formed. -/
theorem act {k k' : Config} {a : Action} (hw : WellFormed k.state) (h : Act k a k') :
    WellFormed k'.state := by
  cases h with
  | silent hcore => exact hw.congr hcore
  | immediate =>
    exact { hw with caller_lt := fun cb h => Nat.lt_succ_of_lt (hw.caller_lt cb h) }
  | start hstack hctx hsite hid hcaller => exact hw.start hstack hctx hsite hid hcaller
  | overflow hctx hid hcaller =>
    exact ((hw.register hctx hid hcaller).removeActive _).resumeContinuation _ _
  | enqueue hctx hid hcaller hcategory _ _ _ _ hcleanup =>
    exact hw.enqueue hctx hid hcaller hcategory hcleanup
  | @enterClose s _ fh hstack =>
    have h : WellFormed { s with stack := .close fh :: s.stack } :=
      hw.enter hstack rfl (by simp [Frame.snapshot]) rfl
    exact { h with }
  | enter hstack hf =>
    obtain rfl | ⟨n, rfl⟩ := hf <;>
      exact hw.enter hstack rfl (by simp [Frame.snapshot]) rfl
  | leave hstack => exact hw.leave hstack
  | expire => exact ((hw.removeActive _).recordCompletion _ _).resume _ _
  | callback halive hstack htake hnote =>
    exact ((hw.enterHook hstack htake hnote).removeActive _).recordCompletion _ _
  | callbackDead halive hstack htake hnote => exact hw.enterHook hstack htake hnote
  | execute hctx hop => exact hw.execute hop
  | finishHook => exact hw.finishHook
  | accept hstack =>
    dsimp only
    split
    · exact (hw.accept hstack _).addInFlight _ _
    · exact hw.accept hstack _
  | reject hstack => exact (hw.refuse hstack).resume _ _
  | rejectPending hstack => exact ((hw.refuse hstack).addInFlight _ _).resume _ _
  | rejectRaw hstack => exact (hw.refuse hstack).resumeContinuation _ _
  | rejectHandle hstack => exact ((hw.refuse hstack).withBuffers _).resumeContinuation _ _
  | rejectExports hstack hran hrest => exact hw.rejectExports hstack hran hrest
  | @enterRpcDestroy s n next hstack hnext =>
    refine hw.enter hstack ?_ (by simp [Frame.snapshot]) rfl
    cases next with
    | getexports cb => cases hnext
    | _ => rfl
  | leaveRpcDestroy hstack => exact (hw.leave hstack).dropRequests _
  | exportsFailed hstack => exact ((hw.leave hstack).dropRequests _).resumeContinuation _ _
  | @enterDestroy s kind hctx hstack =>
    have hsnapshot : ∀ cb ∈ s.activeContinuations, cb ∈ s.created := hw.active_created
    have hcreated : (s.clearRegistries kind).created = s.created := by cases kind <;> rfl
    have hstack' : (s.clearRegistries kind).stack = [] := by cases kind <;> exact hstack
    have hretired : (s.clearRegistries kind).activeContinuations = [] ∧
        (s.clearRegistries kind).pendingOperations = [] := by cases kind <;> exact ⟨rfl, rfl⟩
    have h : WellFormed { s.clearRegistries kind with
        stack := .destroy kind s.activeContinuations :: (s.clearRegistries kind).stack } :=
      (hw.clearRegistries kind).enter hstack' rfl
      (hcreated ▸ hsnapshot) rfl
    rw [hstack'] at h
    rw [hstack]
    exact { h with retired := fun _ => hretired }
  | leaveDestroy hstack => exact ((hw.leave hstack).dropRequests _).endTeardown _ _
  | teardownNow => exact (hw.clearRegistries _).endTeardown _ _
  | releaseBuffer | deinit | startTeardown | closing | dropHandle | registerHandle | readdirAll
  | dropDir | skip | drained | alreadyDown => exact { hw with }

end WellFormed

/-! ## Runs -/

theorem wellFormed_init (timeout : Int) : WellFormed (State.init timeout) where
  caller_lt := by simp [State.init]
  id_lt := by simp [State.init]
  id_inj := by simp [State.init]
  caller_inj := by simp [State.init]
  active_nodup := List.nodup_nil
  active_created := by simp [State.init]
  tokens_created := by simp [State.init, Core.tokens]
  tokens_le := by simp [State.init, Core.tokens]
  snapshot_created := by simp [State.init]
  pending_op := by simp [State.init]
  frame_op := by simp [State.init]
  nested := trivial
  retired := fun _ => ⟨rfl, rfl⟩

/-- The run lemma of the loop: from a well-formed state, what every action keeps holds in every state
reached. -/
theorem run_invariant {P : State → Event → Prop} {s t : State} (h : Reaches step P s t)
    (I : Config → Prop) (hw : WellFormed s) (h0 : I s.config)
    (hI : ∀ u e k a k', P u e → WellFormed k.state → I k → Allowed u e k a → Act k a k' → I k') :
    WellFormed t ∧ I t.config := by
  refine h.invariant_of_path State.config Allowed (fun k => WellFormed k.state ∧ I k) ⟨hw, h0⟩
    (fun u e v hu hs => step_path hu.1 hs) ?_
  intro u e k a k' hP hk ha hact
  exact ⟨hk.1.act hact, hI u e k a k' hP hk.1 hk.2 ha hact⟩

/-- Every state reached from a well-formed state is well-formed. -/
theorem wellFormed_of_reaches {P : State → Event → Prop} {s t : State} (h : Reaches step P s t)
    (hw : WellFormed s) : WellFormed t :=
  (run_invariant h (fun _ => True) hw trivial fun _ _ _ _ _ _ _ _ _ _ => trivial).1

end NFSKit
