import NFSKit.EventLoop.Resumption
import NFSKit.EventLoop.Proofs.WellFormedProofs

/-!
# Nobody is resumed twice

Every action keeps `Resumption`. A caller is resumed through its `CallbackData`, whose flag lets only
the first attempt pass, or by its raw continuation, when its operation is refused by the queue block
that made it and nothing else knows the operation any more.
-/

namespace NFSKit

open Machine Counting

variable {s s' : State}

theorem State.Live.created {cb : CallbackData} (hw : WellFormed s) (h : s.Live cb) :
    cb ∈ s.created := by
  obtain h | h | ⟨f, hf, h⟩ := h
  · exact hw.active_created cb h
  · exact hw.tokens_created cb h
  · exact hw.snapshot_created f hf cb h

theorem State.resume_live (s : State) (cb : CallbackData) (r : Outcome) (c : CallbackData) :
    (s.resume cb r).Live c ↔ s.Live c := by
  rw [State.resume_eq]
  exact Iff.rfl

/-- What a frame resumes by itself it is responsible for. -/
theorem Frame.mem_holds_of_mem_raw {f : Frame} {cb : CallbackData} (h : cb ∈ f.raw) :
    cb ∈ f.holds := by
  cases f with
  | handOver site c ran =>
    simp only [Frame.raw] at h
    split at h
    · cases h
    · rename_i hran
      rw [Frame.holds, if_neg fun hr => hran (.inr hr)]
      exact h
  | rpcDestroy n next => cases next <;> exact h
  | _ => cases h

theorem Frame.mem_holds_handOver {cb : CallbackData} {ran : List Nat} (site : Site)
    (hran : cb.caller ∉ ran) : cb ∈ (Frame.handOver site cb ran).holds := by
  simp [Frame.holds, hran]

theorem State.not_mem_removeActive (s : State) (cb : CallbackData) :
    cb ∉ (s.removeActive cb.continuationID).activeContinuations := fun h => by
  simpa using (List.mem_filter.mp h).2

/-- Below a frame that is responsible for `cb`, nobody resumes the caller of `cb` by himself. -/
theorem raw_ne_of_holds {f : Frame} {rest : List Frame} {cb : CallbackData} (hw : WellFormed s)
    (hstack : s.stack = f :: rest) (hcb : cb ∈ f.holds) {g : Frame} (hg : g ∈ rest)
    {c : CallbackData} (hc : c ∈ g.raw) : c.caller ≠ cb.caller := by
  have hcmem : c ∈ rest.flatMap Frame.holds :=
    List.mem_flatMap.mpr ⟨g, hg, Frame.mem_holds_of_mem_raw hc⟩
  have htokens : ∀ x, f.holds.count x + (rest.flatMap Frame.holds).count x ≤ s.tokens x := fun x => by
    rw [Core.tokens_cons hstack]
    omega
  have hpos : 0 < (rest.flatMap Frame.holds).count c := List.count_pos_iff.mpr hcmem
  have hpos' : 0 < f.holds.count cb := List.count_pos_iff.mpr hcb
  intro heq
  have hc' := hw.tokens_created c (by have := htokens c; omega)
  have hcb' := hw.tokens_created cb (by have := htokens cb; omega)
  obtain rfl : c = cb := hw.caller_inj c hc' cb hcb' heq
  have := htokens c
  have := hw.tokens_le c
  omega

namespace Resumption

/-- Fewer operations can still resume their callers. -/
theorem shrink (hr : Resumption s) (hout : s'.outcomes = s.outcomes)
    (hres : s'.hasResumed = s.hasResumed) (hnext : s.nextCaller ≤ s'.nextCaller)
    (hlive : ∀ cb, s'.Live cb → s.Live cb)
    (hframes : ∀ f ∈ s'.stack, (f.raw = [] ∧ f.refused = []) ∨
      ∃ g ∈ s.stack, (∀ cb ∈ f.raw, cb ∈ g.raw) ∧ ∀ cb ∈ f.refused, cb ∈ g.refused)
    (hactive : ∀ cb ∈ s'.activeContinuations, cb ∈ s.activeContinuations) : Resumption s' where
  once := by
    rw [hout]
    exact hr.once
  fresh := by
    rw [hout, hres]
    exact fun i hi => hr.fresh i (hnext.trans hi)
  marked := by
    rw [hout, hres]
    exact hr.marked
  unresumed := by
    rw [hout, hres]
    exact fun cb h => hr.unresumed cb (hlive cb h)
  raw := by
    rw [hres]
    intro f hf cb hcb
    obtain ⟨hnone, -⟩ | ⟨g, hg, hraw, -⟩ := hframes f hf
    · rw [hnone] at hcb
      cases hcb
    · exact hr.raw g hg cb (hraw cb hcb)
  refused := by
    intro f hf cb hcb hmem
    obtain ⟨-, hnone⟩ | ⟨g, hg, -, hrefused⟩ := hframes f hf
    · rw [hnone] at hcb
      cases hcb
    · exact hr.refused g hg cb (hrefused cb hcb) (hactive cb hmem)

/-- What the callers have received depends on nothing else. -/
theorem same (hr : Resumption s) (hout : s'.outcomes = s.outcomes)
    (hres : s'.hasResumed = s.hasResumed) (hnext : s'.nextCaller = s.nextCaller)
    (hactive : s'.activeContinuations = s.activeContinuations)
    (hpending : s'.pendingOperations = s.pendingOperations) (houtst : s'.outstanding = s.outstanding)
    (hstack : s'.stack = s.stack) : Resumption s' := by
  refine hr.shrink hout hres hnext.ge ?_ (fun f hf => .inr ⟨f, hstack ▸ hf, fun _ h => h, fun _ h => h⟩)
    fun c hc => hactive ▸ hc
  intro c hc
  unfold State.Live Core.tokens at hc ⊢
  rwa [hactive, hpending, houtst, hstack] at hc

/-- A new operation joins, for the next caller. -/
theorem join {cb : CallbackData} (hr : Resumption s) (hout : s'.outcomes = s.outcomes)
    (hres : s'.hasResumed = s.hasResumed) (hnext : s'.nextCaller = s.nextCaller + 1)
    (hcaller : cb.caller = s.nextCaller) (hlive : ∀ c, s'.Live c → c = cb ∨ s.Live c)
    (hraw : ∀ f ∈ s'.stack, ∀ c ∈ f.raw, c = cb ∨ ∃ g ∈ s.stack, c ∈ g.raw)
    (hrefused : ∀ f ∈ s'.stack, ∀ c ∈ f.refused, c ∉ s'.activeContinuations) : Resumption s' where
  once := by
    rw [hout]
    exact hr.once
  fresh := by
    rw [hout, hres, hnext]
    exact fun i hi => hr.fresh i (by omega)
  marked := by
    rw [hout, hres]
    exact hr.marked
  unresumed := by
    rw [hout, hres]
    intro c hc hunmarked
    rcases hlive c hc with rfl | hc
    · exact (hr.fresh c.caller hcaller.ge).1
    · exact hr.unresumed c hc hunmarked
  raw := by
    rw [hres]
    intro f hf c hc
    rcases hraw f hf c hc with rfl | ⟨g, hg, hc⟩
    · exact (hr.fresh c.caller hcaller.ge).2
    · exact hr.raw g hg c hc
  refused := hrefused

/-- `CallbackData.resume` of an operation that no frame resumes by itself. -/
theorem resume {cb : CallbackData} {r : Outcome} (hr : Resumption s)
    (hcaller : cb.caller < s.nextCaller)
    (hunresumed : s.hasResumed cb.caller = false → s.outcomes cb.caller = [])
    (hraw : ∀ f ∈ s.stack, ∀ c ∈ f.raw, c.caller ≠ cb.caller) : Resumption (s.resume cb r) where
  once := by
    intro i
    rw [State.resume_outcomes]
    split
    · rename_i h
      rw [h.1, hunresumed (h.1 ▸ h.2)]
      exact le_refl 1
    · exact hr.once i
  fresh := by
    rw [State.resume_nextCaller]
    intro i hi
    have hne : i ≠ cb.caller := by omega
    rw [State.resume_outcomes, State.resume_hasResumed]
    simpa [hne] using hr.fresh i hi
  marked := by
    intro i hi
    rw [State.resume_hasResumed] at hi
    rw [State.resume_outcomes]
    split
    · simp
    · rename_i h
      rcases Bool.or_eq_true _ _ |>.mp hi with hi | hi
      · exact hr.marked i hi
      · have heq : i = cb.caller := of_decide_eq_true hi
        exact hr.marked i (by simpa [heq] using h)
  unresumed := by
    intro c hc hunmarked
    rw [State.resume_hasResumed, Bool.or_eq_false_iff] at hunmarked
    have hne : c.caller ≠ cb.caller := of_decide_eq_false hunmarked.2
    rw [State.resume_outcomes, if_neg fun h => hne h.1]
    exact hr.unresumed c ((State.resume_live s cb r c).mp hc) hunmarked.1
  raw := by
    rw [State.resume_stack]
    intro f hf c hc
    rw [State.resume_hasResumed, hr.raw f hf c hc]
    simpa using hraw f hf c hc
  refused := by
    rw [State.resume_stack, State.resume_activeContinuations]
    exact hr.refused

/-- The raw continuation of a caller that nothing else can resume. -/
theorem resumeContinuation {i : Nat} {r : Outcome} (hr : Resumption s) (hcaller : i < s.nextCaller)
    (hunresumed : s.outcomes i = []) (hlive : ∀ c, s.Live c → c.caller ≠ i) :
    Resumption (s.resumeContinuation i r) where
  once := by
    intro j
    show (Function.update s.outcomes i (s.outcomes i ++ [r]) j).length ≤ 1
    by_cases hj : j = i
    · subst hj
      simp [hunresumed]
    · rw [Function.update_of_ne hj]
      exact hr.once j
  fresh := by
    intro j hj
    have hne : j ≠ i := fun h => by
      have : s.nextCaller ≤ j := hj
      omega
    obtain ⟨ho, hm⟩ := hr.fresh j hj
    refine ⟨?_, hm⟩
    show Function.update s.outcomes i (s.outcomes i ++ [r]) j = []
    rw [Function.update_of_ne hne]
    exact ho
  marked := by
    intro j hj
    show Function.update s.outcomes i (s.outcomes i ++ [r]) j ≠ []
    by_cases hji : j = i
    · subst hji
      simp
    · rw [Function.update_of_ne hji]
      exact hr.marked j hj
  unresumed := by
    intro c hc hunmarked
    show Function.update s.outcomes i (s.outcomes i ++ [r]) c.caller = []
    rw [Function.update_of_ne (hlive c hc)]
    exact hr.unresumed c hc hunmarked
  raw := hr.raw
  refused := hr.refused

/-- Frames and requests move without anybody becoming responsible for more. -/
theorem move {stack : List Frame} {out : List Request} {pending : List PendingOperation}
    (hr : Resumption s)
    (htokens : ∀ c, pending.countP (fun op => op.cbData = c) + out.countP (fun r => r.cb = c) +
      (stack.flatMap Frame.holds).count c ≤ s.tokens c)
    (hframes : ∀ f ∈ stack, ∃ g ∈ s.stack, (∀ c ∈ f.snapshot, c ∈ g.snapshot) ∧
      (∀ c ∈ f.raw, c ∈ g.raw) ∧ ∀ c ∈ f.refused, c ∈ g.refused) :
    Resumption { s with stack := stack, outstanding := out, pendingOperations := pending } := by
  refine hr.shrink rfl rfl (le_refl _) ?_ ?_ fun _ h => h
  · intro c hc
    obtain hc | hc | ⟨f, hf, hc⟩ := hc
    · exact .inl hc
    · exact .inr (.inl (Nat.lt_of_lt_of_le hc (htokens c)))
    · obtain ⟨g, hg, hsnap, -⟩ := hframes f hf
      exact .inr (.inr ⟨g, hg, hsnap c hc⟩)
  · intro f hf
    obtain ⟨g, hg, -, hraw⟩ := hframes f hf
    exact .inr ⟨g, hg, hraw⟩

theorem leave {f : Frame} {rest : List Frame} (hr : Resumption s) (hstack : s.stack = f :: rest) :
    Resumption (s.leaveTo rest) := by
  refine hr.move (fun c => ?_) fun g hg =>
    ⟨g, hstack ▸ List.mem_cons_of_mem _ hg, fun _ h => h, fun _ h => h, fun _ h => h⟩
  rw [Core.tokens_cons hstack]
  omega

theorem dropRequests (hr : Resumption s) (ctx : Ctx) : Resumption (s.dropRequests ctx) := by
  refine hr.move (fun c => ?_) fun g hg => ⟨g, hg, fun _ h => h, fun _ h => h, fun _ h => h⟩
  have := countP_filter_le (fun r : Request => decide (r.cb = c)) (fun r => decide (r.ctx ≠ ctx))
    s.outstanding
  unfold Core.tokens
  omega

theorem removeActive (hr : Resumption s) (id : Nat) : Resumption (s.removeActive id) := by
  refine hr.shrink rfl rfl (le_refl _) ?_ (fun f hf => .inr ⟨f, hf, fun _ h => h, fun _ h => h⟩)
    fun c hc => List.mem_of_mem_filter hc
  rintro c (hc | hc)
  · exact .inl (List.mem_of_mem_filter hc)
  · exact .inr hc

theorem accept {site : Site} {cb : CallbackData} {ran : List Nat} {rest : List Frame}
    (hr : Resumption s) (hstack : s.stack = .handOver site cb ran :: rest) (ctx : Ctx) :
    Resumption ((s.leaveTo rest).enqueueRequest ctx cb ran) := by
  rw [State.enqueueRequest_eq]
  exact hr.move (tokens_accept_le hstack ctx) fun g hg =>
    ⟨g, hstack ▸ List.mem_cons_of_mem _ hg, fun _ h => h, fun _ h => h, fun _ h => h⟩

theorem enterHook {s₁ s₂ : State} {f : Frame} {rest : List Frame} {cb : CallbackData} {status : Int}
    {data : Option Value} (hr : Resumption s) (hstack : s.stack = f :: rest)
    (htake : s.takeRequest f rest cb.continuationID = some (cb, s₁))
    (hnote : s₁.noteDelivery cb status data = some s₂) :
    Resumption (s₂.enterHook cb status data) := by
  obtain ⟨out, fhs, dirs, b, r, htaken, heq⟩ := State.callback_eq htake hnote
  have hmove : Resumption { s with
      stack := .completionHook cb r :: f.noteCallback cb.caller :: rest
      outstanding := out
      pendingOperations := s.pendingOperations } := by
    refine hr.move (tokens_callback_le hstack htaken r) fun g hg => ?_
    have hf : f ∈ s.stack := hstack ▸ List.mem_cons_self ..
    rcases List.mem_cons.mp hg with rfl | hg
    · exact ⟨f, hf, fun _ h => (by cases h), fun _ h => (by cases h), fun _ h => (by cases h)⟩
    rcases List.mem_cons.mp hg with rfl | hg
    · refine ⟨f, hf, ?_⟩
      cases f with
      | handOver site c ran =>
        refine ⟨fun _ h => (by cases h), fun d hd => ?_, fun _ h => (by cases h)⟩
        simp only [Frame.noteCallback, Frame.raw, List.mem_cons] at hd ⊢
        split at hd
        · cases hd
        · rename_i hran
          rw [if_neg fun h => hran (h.imp_right .inr)]
          exact hd
      | _ => exact ⟨fun _ h => h, fun _ h => h, fun _ h => h⟩
    · exact ⟨g, hstack ▸ List.mem_cons_of_mem _ hg, fun _ h => h, fun _ h => h, fun _ h => h⟩
  rw [heq]
  exact hmove.same rfl rfl rfl rfl rfl rfl rfl

theorem execute {i : Nat} {op : PendingOperation} (hr : Resumption s)
    (hop : s.pendingOperations[i]? = some op) : Resumption (s.executePending i op) := by
  refine hr.shrink rfl rfl (le_refl _) ?_ ?_ fun _ h => h
  · rintro c (hc | hc | ⟨f, hf, hc⟩)
    · exact .inl hc
    · refine .inr (.inl ?_)
      have herase := countP_eq_countP_eraseIdx_add (fun op => op.cbData = c) hop
      simp only [decide_eq_true_eq] at herase
      simp only [Core.tokens, State.executePending, State.handOver, State.addInFlight,
        List.flatMap_cons, List.count_append, Frame.holds, List.not_mem_nil, if_false,
        List.count_singleton, beq_iff_eq] at hc ⊢
      omega
    · rcases List.mem_cons.mp hf with rfl | hf
      · cases hc
      · exact .inr (.inr ⟨f, hf, hc⟩)
  · intro f hf
    rcases List.mem_cons.mp hf with rfl | hf
    · exact .inl ⟨rfl, rfl⟩
    · exact .inr ⟨f, hf, fun _ h => h, fun _ h => h⟩

/-- Resuming the snapshot of a teardown, with no call in progress. -/
theorem foldl_resume {l : List CallbackData} {r : Outcome} (hr : Resumption s) (hstack : s.stack = [])
    (hl : ∀ cb ∈ l, cb.caller < s.nextCaller ∧
      (s.hasResumed cb.caller = false → s.outcomes cb.caller = [])) :
    Resumption (l.foldl (fun s cb => s.resume cb r) s) := by
  induction l generalizing s with
  | nil => exact hr
  | cons cb l ih =>
    obtain ⟨hcaller, hunresumed⟩ := hl cb (by simp)
    refine ih (hr.resume hcaller hunresumed (by simp [hstack])) (by rw [State.resume_stack, hstack]) ?_
    intro c hc
    obtain ⟨hcaller', hunresumed'⟩ := hl c (by simp [hc])
    rw [State.resume_nextCaller, State.resume_hasResumed, State.resume_outcomes, Bool.or_eq_false_iff]
    refine ⟨hcaller', fun h => ?_⟩
    rw [if_neg fun h' => of_decide_eq_false h.2 h'.1]
    exact hunresumed' h.1

theorem endTeardown {kind : Teardown} {l : List CallbackData} (hr : Resumption s)
    (hstack : s.stack = []) (hl : ∀ cb ∈ l, cb.caller < s.nextCaller ∧
      (s.hasResumed cb.caller = false → s.outcomes cb.caller = [])) :
    Resumption (s.endTeardown kind l) := by
  obtain ⟨bulk, metadata, counts, heq⟩ := State.endTeardown_eq s kind l
  rw [heq]
  exact (hr.foldl_resume hstack hl).same rfl rfl rfl rfl rfl rfl rfl

/-- What a frame is responsible for has a caller, who has not been resumed behind its back. -/
theorem held {f : Frame} {rest : List Frame} {cb : CallbackData} (hr : Resumption s)
    (hw : WellFormed s) (hstack : s.stack = f :: rest) (hcb : cb ∈ f.holds) :
    0 < s.tokens cb ∧ cb.caller < s.nextCaller ∧
      (s.hasResumed cb.caller = false → s.outcomes cb.caller = []) := by
  have hpos : 0 < s.tokens cb := by
    have heq := Core.tokens_cons hstack cb
    have := List.count_pos_iff.mpr hcb
    omega
  exact ⟨hpos, hw.caller_lt cb (hw.tokens_created cb hpos), hr.unresumed cb (.inr (.inl hpos))⟩

theorem held_created {f : Frame} {rest : List Frame} {cb : CallbackData} (hr : Resumption s)
    (hw : WellFormed s) (hstack : s.stack = f :: rest) (hcb : cb ∈ f.holds) : cb ∈ s.created :=
  hw.tokens_created cb (hr.held hw hstack hcb).1

/-- When the outermost call is over and its operation has left the registry, nothing can resume the
caller of that operation any more. -/
theorem not_live_of_removed {f : Frame} {cb : CallbackData} (hw : WellFormed s)
    (hstack : s.stack = [f]) (hcb : cb ∈ f.holds)
    (hs' : ∀ c ∈ s'.activeContinuations, c ∈ s.activeContinuations)
    (hgone : cb ∉ s'.activeContinuations) (hpending : s'.pendingOperations = s.pendingOperations)
    (hout : ∀ c, s'.outstanding.countP (fun r => r.cb = c) ≤ s.outstanding.countP (fun r => r.cb = c))
    (hstack' : s'.stack = []) (c : CallbackData) (hc : s'.Live c) : c.caller ≠ cb.caller := by
  have htok : ∀ x, s'.tokens x + f.holds.count x ≤ s.tokens x := by
    intro x
    have := hout x
    rw [Core.tokens_cons hstack]
    unfold Core.tokens
    rw [hpending, hstack']
    simp only [List.flatMap_nil, List.count_nil]
    omega
  have hone : 0 < f.holds.count cb := List.count_pos_iff.mpr hcb
  have hcreated : cb ∈ s.created := hw.tokens_created cb (by have := htok cb; omega)
  intro hcaller
  have hlive : s.Live c := by
    obtain hc | hc | ⟨g, hg, -⟩ := hc
    · exact .inl (hs' c hc)
    · exact .inr (.inl (by have := htok c; omega))
    · rw [hstack'] at hg
      cases hg
  obtain rfl : c = cb := hw.caller_inj c (hlive.created hw) cb hcreated hcaller
  obtain hc | hc | ⟨g, hg, -⟩ := hc
  · exact hgone hc
  · have := htok c
    have := hw.tokens_le c
    omega
  · rw [hstack'] at hg
    cases hg

theorem refuse {f : Frame} {rest : List Frame} {id : Nat} {cb : CallbackData} (hr : Resumption s)
    (hstack : s.stack = f :: rest) : Resumption (s.refuse rest id cb) :=
  ((hr.leave hstack).removeActive id).same rfl rfl rfl rfl rfl rfl rfl

theorem addInFlight (hr : Resumption s) (c : OperationCategory) (d : Int) :
    Resumption (s.addInFlight c d) :=
  hr.same rfl rfl rfl rfl rfl rfl rfl

theorem withBuffers (hr : Resumption s) (b : Nat → HeapBuffer) : Resumption (s.withBuffers b) :=
  hr.same rfl rfl rfl rfl rfl rfl rfl

theorem recordCompletion (hr : Resumption s) (c : OperationCategory) (ok : Bool) :
    Resumption (s.recordCompletion c ok) := by
  rw [State.recordCompletion_eq]
  exact hr.same rfl rfl rfl rfl rfl rfl rfl

/-- The caller of an operation that is refused in its own queue block has received nothing, and
nothing can resume it any more. -/
theorem refused_unresumed {site : Site} {cb : CallbackData} {ran : List Nat} {rest : List Frame}
    (hr : Resumption s) (hw : WellFormed s) (hstack : s.stack = .handOver site cb ran :: rest)
    (hran : cb.caller ∉ ran) (hsite : site.isPending = false) :
    cb.caller < s.nextCaller ∧ s.outcomes cb.caller = [] ∧
      ∀ c, (s.refuse rest cb.continuationID cb).Live c → c.caller ≠ cb.caller := by
  have hnested : NestedAbove (.handOver site cb ran :: rest) := hstack ▸ hw.nested
  have hrest : rest = [] := hnested.rest_eq_nil hsite
  have hholds := Frame.mem_holds_handOver site hran
  obtain ⟨-, hcaller, hunresumed⟩ := hr.held hw hstack hholds
  refine ⟨hcaller, hunresumed ?_, ?_⟩
  · exact hr.raw _ (hstack ▸ List.mem_cons_self ..) cb (by simp [Frame.raw, hsite, hran])
  · refine not_live_of_removed hw (hrest ▸ hstack) hholds (fun c hc => List.mem_of_mem_filter hc) ?_
      rfl (fun _ => le_refl _) hrest
    exact State.not_mem_removeActive s cb

/-- A refused `getexports` waits for its context to be destroyed. -/
theorem rejectExports {n k : Nat} {cb : CallbackData} {ran : List Nat} {rest : List Frame}
    (hr : Resumption s) (hstack : s.stack = .handOver (.getexports n) cb ran :: rest)
    (hran : cb.caller ∉ ran) (hrest : rest = []) :
    Resumption (s.refuse (.rpcDestroy k (.getexports cb) :: rest) cb.continuationID cb) := by
  have hraw : s.hasResumed cb.caller = false :=
    hr.raw _ (hstack ▸ List.mem_cons_self ..) cb (by simp [Frame.raw, hran, Site.isPending])
  refine { hr with unresumed := ?_, raw := ?_, refused := ?_ }
  · rintro c (hc | hc | ⟨f, hf, hc⟩)
    · exact hr.unresumed c (.inl (List.mem_of_mem_filter hc))
    · refine hr.unresumed c (.inr (.inl ?_))
      rw [Core.tokens_cons hstack]
      simp only [Core.tokens, State.refuse, hrest, List.flatMap_cons, List.flatMap_nil,
        List.append_nil, Frame.holds, if_neg hran] at hc ⊢
      exact hc
    · rw [hrest, State.refuse, List.mem_singleton] at hf
      subst hf
      cases hc
  · intro f hf c hc
    rw [hrest, State.refuse, List.mem_singleton] at hf
    subst hf
    obtain rfl : c = cb := by simpa [Frame.raw] using hc
    exact hraw
  · intro f hf c hc
    rw [hrest, State.refuse, List.mem_singleton] at hf
    subst hf
    obtain rfl : c = cb := by simpa [Frame.refused] using hc
    exact State.not_mem_removeActive s c

theorem finishHook (hw : WellFormed s) (hr : Resumption s) : Resumption s.finishHook := by
  unfold State.finishHook
  split
  · rename_i cb result rest hstack
    have hholds : cb ∈ (Frame.completionHook cb result).holds := by simp [Frame.holds]
    obtain ⟨-, hcaller, hunresumed⟩ := hr.held hw hstack hholds
    exact (hr.leave hstack).resume hcaller hunresumed fun g hg c hc =>
      raw_ne_of_holds hw hstack hholds hg hc
  · exact hr

/-- A call that begins a queue block or a teardown and is responsible for no operation. -/
theorem enter {f : Frame} (hr : Resumption s) (hholds : f.holds = []) (hraw : f.raw = [])
    (hrefused : f.refused = []) (hsnapshot : f.snapshot = []) :
    Resumption { s with stack := f :: s.stack } := by
  refine hr.shrink rfl rfl (le_refl _) ?_ ?_ fun _ h => h
  · rintro c (hc | hc | ⟨g, hg, hc⟩)
    · exact .inl hc
    · refine .inr (.inl ?_)
      simpa [Core.tokens, List.flatMap_cons, hholds] using hc
    · rcases List.mem_cons.mp hg with rfl | hg
      · rw [hsnapshot] at hc
        cases hc
      · exact .inr (.inr ⟨g, hg, hc⟩)
  · intro g hg
    rcases List.mem_cons.mp hg with rfl | hg
    · exact .inl ⟨hraw, hrefused⟩
    · exact .inr ⟨g, hg, fun _ h => h, fun _ h => h⟩

/-- The context is destroyed: the registry becomes the snapshot of the call. -/
theorem enterDestroy {kind : Teardown} (hr : Resumption s) :
    Resumption { s.clearRegistries kind with
      context := none, stack := .destroy kind s.activeContinuations :: s.stack } := by
  have hclear : (s.clearRegistries kind).outcomes = s.outcomes ∧
      (s.clearRegistries kind).hasResumed = s.hasResumed ∧
      (s.clearRegistries kind).nextCaller = s.nextCaller ∧
      (s.clearRegistries kind).activeContinuations = [] ∧
      (s.clearRegistries kind).pendingOperations = [] ∧
      (s.clearRegistries kind).outstanding = s.outstanding := by cases kind <;> simp [State.clearRegistries]
  obtain ⟨hout, hres, hnext, hactive, hpending, houtst⟩ := hclear
  refine hr.shrink hout hres hnext.ge ?_ ?_ ?_
  · rintro c (hc | hc | ⟨g, hg, hc⟩)
    · rw [show _ = [] from hactive] at hc
      cases hc
    · refine .inr (.inl ?_)
      simp only [Core.tokens, hpending, houtst, List.countP_nil, List.flatMap_cons, Frame.holds,
        List.nil_append] at hc ⊢
      omega
    · rcases List.mem_cons.mp hg with rfl | hg
      · exact .inl hc
      · exact .inr (.inr ⟨g, hg, hc⟩)
  · intro g hg
    rcases List.mem_cons.mp hg with rfl | hg
    · exact .inl ⟨rfl, rfl⟩
    · exact .inr ⟨g, hg, fun _ h => h, fun _ h => h⟩
  · intro c hc
    rw [show _ = [] from hactive] at hc
    cases hc

theorem register {cb : CallbackData} (hr : Resumption s) (hw : WellFormed s)
    (hid : cb.continuationID = s.nextContinuationID) (hcaller : cb.caller = s.nextCaller) :
    Resumption (s.newCaller.register cb) := by
  refine hr.join rfl rfl rfl hcaller ?_ (fun f hf c hc => .inr ⟨f, hf, hc⟩) ?_
  · rintro c (hc | hc)
    · rcases List.mem_append.mp hc with hc | hc
      · exact .inr (.inl hc)
      · exact .inl (by simpa using hc)
    · exact .inr (.inr hc)
  · intro f hf c hc hmem
    rcases List.mem_append.mp hmem with hmem | hmem
    · exact hr.refused f hf c hc hmem
    · obtain rfl : c = cb := by simpa using hmem
      have hraw : c ∈ f.raw := by
        cases f with
        | rpcDestroy n next => cases next <;> exact hc
        | _ => cases hc
      have hpos : 0 < (s.stack.flatMap Frame.holds).count c :=
        List.count_pos_iff.mpr (List.mem_flatMap.mpr ⟨f, hf, Frame.mem_holds_of_mem_raw hraw⟩)
      refine hw.fresh hid (hw.tokens_created c ?_)
      unfold Core.tokens
      omega

/-- The operation that has just been registered is handed to libnfs. -/
theorem start {site : Site} {cb : CallbackData} (hr : Resumption s) (hstack : s.stack = [])
    (hcaller : cb.caller = s.nextCaller) :
    Resumption (((s.newCaller.register cb).passRetained cb).handOver site cb) := by
  have hstack' : (((s.newCaller.register cb).passRetained cb).handOver site cb).stack =
      [.handOver site cb []] := congrArg (Frame.handOver site cb [] :: ·) hstack
  refine hr.join rfl rfl rfl hcaller ?_ ?_ ?_
  · rintro c (hc | hc | ⟨f, hf, hc⟩)
    · rcases List.mem_append.mp hc with hc | hc
      · exact .inr (.inl hc)
      · exact .inl (by simpa using hc)
    · by_cases heq : cb = c
      · exact .inl heq.symm
      · refine .inr (.inr (.inl ?_))
        simpa [Core.tokens, State.handOver, State.passRetained, State.register, State.newCaller,
          Frame.holds, heq] using hc
    · rw [hstack', List.mem_singleton] at hf
      subst hf
      cases hc
  · intro f hf c hc
    rw [hstack', List.mem_singleton] at hf
    subst hf
    left
    simp only [Frame.raw] at hc
    split at hc
    · cases hc
    · simpa using hc
  · intro f hf c hc
    rw [hstack', List.mem_singleton] at hf
    subst hf
    cases hc

theorem enqueue {type : OperationType} {cb : CallbackData} (hr : Resumption s) (hw : WellFormed s)
    (hid : cb.continuationID = s.nextContinuationID) (hcaller : cb.caller = s.nextCaller) :
    Resumption { (s.newCaller.register cb).passRetained cb with
      pendingOperations := s.pendingOperations ++ [⟨cb.continuationID, type, cb⟩] } := by
  have hreg := hr.register hw hid hcaller
  refine hr.join rfl rfl rfl hcaller ?_ (fun f hf c hc => .inr ⟨f, hf, hc⟩) hreg.refused
  rintro c (hc | hc | ⟨f, hf, hc⟩)
  · rcases List.mem_append.mp hc with hc | hc
    · exact .inr (.inl hc)
    · exact .inl (by simpa using hc)
  · by_cases heq : cb = c
    · exact .inl heq.symm
    · refine .inr (.inr (.inl ?_))
      simpa [Core.tokens, State.passRetained, State.register, State.newCaller, heq] using hc
  · exact .inr (.inr (.inr ⟨f, hf, hc⟩))

/-- A caller that never gets an operation. -/
theorem immediate {r : Outcome} (hw : WellFormed s) (hr : Resumption s) :
    Resumption (s.newCaller.resumeContinuation s.nextCaller r) := by
  have hnew : Resumption s.newCaller :=
    hr.shrink rfl rfl (Nat.le_succ _) (fun _ h => h)
      (fun f hf => .inr ⟨f, hf, fun _ h => h, fun _ h => h⟩) fun _ h => h
  refine hnew.resumeContinuation (Nat.lt_succ_self _) (hr.fresh _ (le_refl _)).1 fun c hc heq => ?_
  have hlive : s.Live c := hc
  have := hw.caller_lt c (hlive.created hw)
  omega

/-- The caller of a registered operation. -/
theorem active_caller {cb : CallbackData} (hr : Resumption s) (hw : WellFormed s)
    (hmem : cb ∈ s.activeContinuations) : cb.caller < s.nextCaller ∧
      (s.hasResumed cb.caller = false → s.outcomes cb.caller = []) :=
  ⟨hw.caller_lt cb (hw.active_created cb hmem), hr.unresumed cb (.inl hmem)⟩

theorem clearRegistries {kind : Teardown} (hr : Resumption s) :
    Resumption (s.clearRegistries kind) := by
  have hclear : Resumption { s with activeContinuations := [], pendingOperations := [] } := by
    refine hr.shrink rfl rfl (le_refl _) ?_ (fun f hf => .inr ⟨f, hf, fun _ h => h, fun _ h => h⟩)
      (by simp)
    rintro c (hc | hc | hc)
    · cases hc
    · refine .inr (.inl ?_)
      simp only [Core.tokens, List.countP_nil] at hc ⊢
      omega
    · exact .inr (.inr hc)
  cases kind
  · exact hclear.same rfl rfl rfl rfl rfl rfl rfl
  · exact hclear

theorem overflow {cb : CallbackData} {r : Outcome} (hr : Resumption s) (hw : WellFormed s)
    (hid : cb.continuationID = s.nextContinuationID) (hcaller : cb.caller = s.nextCaller) :
    Resumption (((s.newCaller.register cb).removeActive cb.continuationID).resumeContinuation
      cb.caller r) := by
  have hreg := hr.register hw hid hcaller
  refine (hreg.removeActive _).resumeContinuation ?_ ?_ ?_
  · show cb.caller < s.nextCaller + 1
    omega
  · exact (hr.fresh cb.caller hcaller.ge).1
  · rintro c (hc | hc) heq
    · obtain ⟨hc, hne⟩ := List.mem_filter.mp hc
      rcases List.mem_append.mp hc with hc | hc
      · have := hw.caller_lt c (hw.active_created c hc)
        omega
      · obtain rfl : c = cb := by simpa using hc
        simp at hne
    · have hlive : s.Live c := .inr hc
      have := hw.caller_lt c (hlive.created hw)
      omega

theorem exportsFailed {n : Nat} {cb : CallbackData} {rest : List Frame} {r : Outcome}
    (hr : Resumption s) (hw : WellFormed s) (hstack : s.stack = .rpcDestroy n (.getexports cb) :: rest) :
    Resumption (((s.leaveTo rest).dropRequests (.rpc n)).resumeContinuation cb.caller r) := by
  have hnested : NestedAbove (.rpcDestroy n (.getexports cb) :: rest) := hstack ▸ hw.nested
  have hrest : rest = [] := hnested.rest_eq_nil rfl
  have htop : Frame.rpcDestroy n (.getexports cb) ∈ s.stack := hstack ▸ List.mem_cons_self ..
  have hholds : cb ∈ (Frame.rpcDestroy n (.getexports cb)).holds := List.mem_singleton_self cb
  obtain ⟨-, hcaller, hunresumed⟩ := hr.held hw hstack hholds
  refine ((hr.leave hstack).dropRequests _).resumeContinuation hcaller
    (hunresumed (hr.raw _ htop cb (List.mem_singleton_self cb))) ?_
  exact not_live_of_removed hw (hrest ▸ hstack) hholds (fun _ h => h)
    (hr.refused _ htop cb (List.mem_singleton_self cb)) rfl
    (fun c => countP_filter_le (fun r : Request => decide (r.cb = c)) _ _) hrest

/-- One action keeps the callers from being resumed twice. -/
theorem act {k k' : Config} {a : Action} (hw : WellFormed k.state) (hr : Resumption k.state)
    (h : Act k a k') : Resumption k'.state := by
  cases h with
  | silent hcore =>
    exact hr.same (by rw [hcore]) (by rw [hcore]) (by rw [hcore]) (by rw [hcore]) (by rw [hcore])
      (by rw [hcore]) (by rw [hcore])
  | releaseBuffer | deinit | startTeardown | closing | dropHandle | registerHandle | readdirAll
  | dropDir | skip | drained | alreadyDown => exact hr.same rfl rfl rfl rfl rfl rfl rfl
  | immediate => exact hr.immediate hw
  | start hstack _ _ _ hcaller => exact hr.start hstack hcaller
  | overflow hctx hid hcaller => exact hr.overflow hw hid hcaller
  | enqueue _ hid hcaller => exact hr.enqueue hw hid hcaller
  | enterClose => exact (hr.enter rfl rfl rfl rfl).same rfl rfl rfl rfl rfl rfl rfl
  | enter _ hf => obtain rfl | ⟨n, rfl⟩ := hf <;> exact hr.enter rfl rfl rfl rfl
  | leave hstack => exact hr.leave hstack
  | @expire s cb hstack hmem =>
    obtain ⟨hcaller, hunresumed⟩ := hr.active_caller hw hmem
    have hrec := (hr.removeActive cb.continuationID).recordCompletion cb.operationCategory false
    unfold State.expire
    rw [State.recordCompletion_eq] at hrec ⊢
    exact hrec.resume hcaller hunresumed (by simp [State.removeActive, hstack])
  | callback _ hstack htake hnote =>
    exact ((hr.enterHook hstack htake hnote).removeActive _).recordCompletion _ _
  | callbackDead _ hstack htake hnote => exact hr.enterHook hstack htake hnote
  | execute _ hop => exact hr.execute hop
  | finishHook => exact finishHook hw hr
  | accept hstack =>
    split
    · exact (hr.accept hstack _).same rfl rfl rfl rfl rfl rfl rfl
    · exact hr.accept hstack _
  | @reject s cb ran rest r hstack hran =>
    have hholds := Frame.mem_holds_handOver .issueOperation hran
    obtain ⟨-, hcaller, hunresumed⟩ := hr.held hw hstack hholds
    exact (hr.refuse hstack).resume hcaller hunresumed fun g hg c hc =>
      raw_ne_of_holds hw hstack hholds hg hc
  | @rejectPending s i op cb ran rest r hstack hran =>
    have hholds := Frame.mem_holds_handOver (.pending i op) hran
    obtain ⟨-, hcaller, hunresumed⟩ := hr.held hw hstack hholds
    exact ((hr.refuse hstack).addInFlight _ _).resume hcaller hunresumed fun g hg c hc =>
      raw_ne_of_holds hw hstack hholds hg hc
  | @rejectRaw s site cb ran rest r hstack hran hsite =>
    have hpending : site.isPending = false := by
      obtain rfl | ⟨n, rfl⟩ := hsite <;> rfl
    obtain ⟨hcaller, hunresumed, hlive⟩ := hr.refused_unresumed hw hstack hran hpending
    exact (hr.refuse hstack).resumeContinuation hcaller hunresumed hlive
  | rejectHandle hstack hran =>
    obtain ⟨hcaller, hunresumed, hlive⟩ := hr.refused_unresumed hw hstack hran rfl
    exact ((hr.refuse hstack).withBuffers _).resumeContinuation hcaller hunresumed hlive
  | rejectExports hstack hran hrest => exact hr.rejectExports hstack hran hrest
  | @enterRpcDestroy s n next hstack hnext =>
    cases next with
    | getexports cb => cases hnext
    | _ => exact hr.enter rfl rfl rfl rfl
  | leaveRpcDestroy hstack => exact (hr.leave hstack).dropRequests _
  | exportsFailed hstack => exact hr.exportsFailed hw hstack
  | enterDestroy => exact hr.enterDestroy
  | @leaveDestroy s kind conts rest hstack hrest =>
    refine ((hr.leave hstack).dropRequests _).endTeardown hrest fun cb hcb => ?_
    have htop : Frame.destroy kind conts ∈ s.stack := hstack ▸ List.mem_cons_self ..
    have hlive : s.Live cb := .inr (.inr ⟨_, htop, hcb⟩)
    exact ⟨hw.caller_lt cb (hlive.created hw), hr.unresumed cb hlive⟩
  | @teardownNow s kind hctx hstack =>
    have hactive : s.activeContinuations = [] := (hw.retired hctx).1
    have hclear : (s.clearRegistries kind).stack = [] := by cases kind <;> exact hstack
    rw [hactive]
    exact hr.clearRegistries.endTeardown hclear (by simp)

end Resumption

end NFSKit
