import NFSKit.EventLoop.Drain
import NFSKit.EventLoop.Proofs.ActionsProofs

/-!
# What a drain does

Below the index of the loop every category is full, so the operation that is executed is the first of
its category: from this follow the order, the completeness and the exit condition, for nested drains as
for the outer one.
-/

namespace NFSKit

namespace Drain

variable {d e p q : Drain} {behave : Behaviour} {op : PendingOperation} {answer : Answer} {i n : Nat}
  {l m : List (PendingOperation × Answer)}

/-- The operations of category `c`, in order. -/
def ofCategory (c : OperationCategory) (ops : List PendingOperation) : List PendingOperation :=
  ops.filter fun op => op.category = c

/-- Every category with a queued operation among the first `i` is full. -/
def FullBelow (d : Drain) (i : Nat) : Prop :=
  ∀ op ∈ d.pendingOperations.take i, d.hasCapacity op.category = false

/-- Every category with a queued operation is full. -/
def Full (d : Drain) : Prop := ∀ op ∈ d.pendingOperations, d.hasCapacity op.category = false

/-- `q` comes out of `p` by the executions `l`. -/
structure Does (p q : Drain) (l : List (PendingOperation × Answer)) : Prop where
  executed : q.executed = p.executed ++ l
  order : ∀ c, ofCategory c (l.map Prod.fst) ++ ofCategory c q.pendingOperations =
    ofCategory c p.pendingOperations
  kept : q.pendingOperations.Sublist p.pendingOperations
  cleanups : q.failureCleanups = p.failureCleanups ++ l.filterMap cleanup
  counts : q.inFlightCount = l.foldl counted p.inFlightCount
  controllers : q.controller = l.foldl adapted p.controller
  context : q.context = p.context

theorem Does.refl (d : Drain) : d.Does d [] where
  executed := by simp
  order := fun c => by simp [ofCategory]
  kept := List.Sublist.refl _
  cleanups := by simp
  counts := rfl
  controllers := rfl
  context := rfl

theorem Does.trans (h : p.Does d l) (h' : d.Does q m) : p.Does q (l ++ m) where
  executed := by rw [h'.executed, h.executed, List.append_assoc]
  order := by
    intro c
    rw [← h.order c, ← h'.order c]
    simp [ofCategory]
  kept := h'.kept.trans h.kept
  cleanups := by rw [h'.cleanups, h.cleanups, List.filterMap_append, List.append_assoc]
  counts := by rw [h'.counts, h.counts, List.foldl_append]
  controllers := by rw [h'.controllers, h.controllers, List.foldl_append]
  context := h'.context.trans h.context

/-! ## One execution -/

/-- Below a full prefix, an operation that finds capacity is the first of its category. -/
theorem ofCategory_execute (hbelow : d.FullBelow i) (hop : d.pendingOperations[i]? = some op)
    (hcap : d.hasCapacity op.category) (c : OperationCategory) :
    ofCategory c [op] ++ ofCategory c (d.pendingOperations.eraseIdx i) =
      ofCategory c d.pendingOperations := by
  obtain ⟨hi, hget⟩ := List.getElem?_eq_some_iff.mp hop
  have hsplit : d.pendingOperations =
      d.pendingOperations.take i ++ op :: d.pendingOperations.drop (i + 1) := by
    rw [← hget, List.cons_getElem_drop_succ, List.take_append_drop]
  unfold ofCategory
  rw [List.eraseIdx_eq_take_drop_succ]
  conv_rhs => rw [hsplit]
  simp only [List.filter_append, List.filter_cons, List.filter_nil]
  by_cases hc : op.category = c
  · have hnone : (d.pendingOperations.take i).filter (fun op => op.category = c) = [] := by
      rw [List.filter_eq_nil_iff]
      intro x hx hxc
      have hfull := hbelow x hx
      rw [show x.category = op.category by rw [hc]; simpa using hxc, hcap] at hfull
      cases hfull
    simp [hc, hnone]
  · simp [hc]

/-- The execution of the operation at index `i`, whatever libnfs answers. -/
theorem execute_does (hbelow : d.FullBelow i) (hop : d.pendingOperations[i]? = some op)
    (hcap : d.hasCapacity op.category) (he : e.pendingOperations = d.pendingOperations.eraseIdx i)
    (hexecuted : e.executed = d.executed ++ [(op, answer)])
    (hcleanups : e.failureCleanups = d.failureCleanups ++ (cleanup (op, answer)).toList)
    (hcounts : e.inFlightCount = counted d.inFlightCount (op, answer))
    (hcontrollers : e.controller = adapted d.controller (op, answer))
    (hcontext : e.context = d.context) : d.Does e [(op, answer)] where
  executed := hexecuted
  order := by
    intro c
    rw [he]
    exact ofCategory_execute hbelow hop hcap c
  kept := by
    rw [he]
    exact List.eraseIdx_sublist _ _
  cleanups := by
    rw [hcleanups]
    cases h : cleanup (op, answer) <;> simp [h]
  counts := hcounts
  controllers := hcontrollers
  context := hcontext

theorem refused_does (hbelow : d.FullBelow i) (hop : d.pendingOperations[i]? = some op)
    (hcap : d.hasCapacity op.category) {rc : Int} (hrc : rc < 0) :
    d.Does ((d.execute i op (.returned rc)).refused op rc) [(op, .returned rc)] := by
  refine execute_does hbelow hop hcap rfl rfl ?_ ?_ rfl rfl
  · simp [execute, refused, cleanup, hrc]
  · simp [execute, refused, counted, hrc]

theorem accepted_does (hbelow : d.FullBelow i) (hop : d.pendingOperations[i]? = some op)
    (hcap : d.hasCapacity op.category) {rc : Int} (hrc : ¬ rc < 0) :
    d.Does (d.execute i op (.returned rc)) [(op, .returned rc)] := by
  refine execute_does hbelow hop hcap rfl rfl ?_ ?_ rfl rfl
  · simp [execute, cleanup, hrc]
  · simp [execute, counted, hrc]

theorem completed_does (hbelow : d.FullBelow i) (hop : d.pendingOperations[i]? = some op)
    (hcap : d.hasCapacity op.category) {success : Bool} :
    d.Does ((d.execute i op (.completed success)).recordCompletion op.cbData.operationCategory success)
      [(op, .completed success)] := by
  refine execute_does hbelow hop hcap rfl rfl ?_ rfl rfl rfl
  simp [execute, recordCompletion, cleanup]

/-! ## The invariant of the loop -/

/-- After an execution that only changed the count of its own category, the categories below the index
are as full as before. -/
theorem FullBelow.execute (hbelow : d.FullBelow i) (hcap : d.hasCapacity op.category)
    (he : e.pendingOperations = d.pendingOperations.eraseIdx i)
    (hcounts : ∀ c, c ≠ op.category → e.inFlightCount c = d.inFlightCount c)
    (hcontrollers : e.controller = d.controller) : e.FullBelow i := by
  intro x hx
  have hx : x ∈ d.pendingOperations.take i := by
    rw [he, List.take_eraseIdx_eq_take_of_le _ _ _ (le_refl i)] at hx
    exact hx
  have hfull := hbelow x hx
  have hne : x.category ≠ op.category := by
    intro heq
    rw [heq, hcap] at hfull
    cases hfull
  unfold hasCapacity at hfull ⊢
  rw [hcounts _ hne, hcontrollers]
  exact hfull

theorem FullBelow.skip (hbelow : d.FullBelow i) (hop : d.pendingOperations[i]? = some op)
    (hfull : d.hasCapacity op.category = false) : d.FullBelow (i + 1) := by
  intro x hx
  rw [List.take_add_one, hop] at hx
  rcases List.mem_append.mp hx with hx | hx
  · exact hbelow x hx
  · obtain rfl : x = op := by simpa using hx
    exact hfull

theorem Full.below (h : d.Full) (i : Nat) : d.FullBelow i :=
  fun op hop => h op (List.mem_of_mem_take hop)

/-- Every operation that leaves the queue pays for a whole pass over the rest. -/
theorem fuel_lt (h : e.pendingOperations.length < d.pendingOperations.length) (i j : Nat) :
    e.fuel j < d.fuel i := by
  unfold fuel
  generalize d.pendingOperations.length = k at h ⊢
  generalize e.pendingOperations.length = k' at h ⊢
  have hmul : k' * (k' + 1) ≤ (k - 1) * k := Nat.mul_le_mul (by omega) (by omega)
  have hexpand : k * (k + 1) = (k - 1) * k + 2 * k := by
    obtain ⟨m, rfl⟩ : ∃ m, k = m + 1 := ⟨k - 1, by omega⟩
    rw [Nat.add_sub_cancel]
    ring
  omega

/-- The loop ends within its bound, leaves no category with a queued operation below its depth, and
comes out of its executions. -/
theorem drainLoop_drains (hctx : d.context.isSome) (hbelow : d.FullBelow i) (hn : d.fuel i ≤ n) :
    ∃ q l, drainLoop behave n i d = some q ∧ d.Does q l ∧ q.Full := by
  induction n generalizing i d with
  | zero => simp [fuel] at hn
  | succ n ih =>
    unfold drainLoop
    cases hop : d.pendingOperations[i]? with
    | none =>
      have hall : d.pendingOperations.take i = d.pendingOperations :=
        List.take_of_length_le (List.getElem?_eq_none_iff.mp hop)
      refine ⟨d, [], rfl, .refl d, fun op hmem => hbelow op ?_⟩
      rwa [hall]
    | some op =>
      obtain ⟨hi, -⟩ := List.getElem?_eq_some_iff.mp hop
      have hpaid (e : Drain) (j : Nat) (he : e.pendingOperations.length < d.pendingOperations.length) :
          e.fuel j ≤ n := by
        have := fuel_lt he i j
        omega
      simp only
      by_cases hcap : d.hasCapacity op.category
      · rw [if_pos hcap]
        have hless (answer : Answer) :
            (d.execute i op answer).pendingOperations.length < d.pendingOperations.length := by
          simp only [execute, List.length_eraseIdx, if_pos hi]
          omega
        cases behave d.executed op with
        | returned rc =>
          by_cases hrc : rc < 0
          · simp only [if_pos hrc]
            have hdoes := refused_does hbelow hop hcap hrc
            obtain ⟨q, l, hq, hrest, hfull⟩ := ih (i := i)
              (d := (d.execute i op (.returned rc)).refused op rc) hctx
              (hbelow.execute hcap rfl (fun c _ => by simp [refused, execute]) rfl)
              (hpaid _ i (hless (.returned rc)))
            exact ⟨q, _, hq, hdoes.trans hrest, hfull⟩
          · simp only [if_neg hrc]
            have hdoes := accepted_does hbelow hop hcap hrc
            obtain ⟨q, l, hq, hrest, hfull⟩ := ih (i := i) (d := d.execute i op (.returned rc)) hctx
              (hbelow.execute hcap rfl (fun c hc => by simp [execute, hc]) rfl) (hpaid _ i (hless (.returned rc)))
            exact ⟨q, _, hq, hdoes.trans hrest, hfull⟩
        | completed success =>
          obtain ⟨ctx, hsome⟩ := Option.isSome_iff_exists.mp hctx
          have hdoes : d.Does ((d.execute i op (.completed success)).recordCompletion
              op.cbData.operationCategory success) [(op, .completed success)] :=
            completed_does hbelow hop hcap
          obtain ⟨q, l, hq, hnested, hfull⟩ := ih (i := 0)
            (d := (d.execute i op (.completed success)).recordCompletion
              op.cbData.operationCategory success) hctx
            (fun x hx => by simp at hx) (hpaid _ 0 (hless (.completed success)))
          have hqctx : q.context = d.context := hnested.context
          have hshort : q.pendingOperations.length < d.pendingOperations.length :=
            Nat.lt_of_le_of_lt hnested.kept.length_le (hless (.completed success))
          obtain ⟨q', l', hq', hrest, hfull'⟩ := ih (i := i) (d := q) (hqctx ▸ hctx) (hfull.below i)
            (hpaid q i hshort)
          refine ⟨q', _, ?_, (hdoes.trans hnested).trans hrest, hfull'⟩
          have hctx' : (d.execute i op (.completed success)).context = some ctx := hsome
          simp only [hctx', hq, Option.bind_some]
          exact hq'
      · rw [if_neg hcap]
        refine ih hctx (hbelow.skip hop (by simpa using hcap)) ?_
        unfold fuel at hn ⊢
        omega

/-- A larger bound changes nothing. -/
theorem drainLoop_mono (h : drainLoop behave n i d = some q) {m : Nat} (hm : n ≤ m) :
    drainLoop behave m i d = some q := by
  induction n generalizing i d q m with
  | zero => cases h
  | succ n ih =>
    obtain ⟨m, rfl⟩ : ∃ k, m = k + 1 := ⟨m - 1, by omega⟩
    have hm : n ≤ m := by omega
    unfold drainLoop at h ⊢
    cases hop : d.pendingOperations[i]? with
    | none =>
      rw [hop] at h
      exact h
    | some op =>
      simp only [hop] at h ⊢
      by_cases hcap : d.hasCapacity op.category
      · rw [if_pos hcap] at h ⊢
        cases hanswer : behave d.executed op with
        | returned rc =>
          simp only [hanswer] at h ⊢
          exact ih h hm
        | completed success =>
          simp only [hanswer] at h ⊢
          obtain ⟨v, hv, hrest⟩ := Option.bind_eq_some_iff.mp h
          refine Option.bind_eq_some_iff.mpr ⟨v, ?_, ih hrest hm⟩
          split at hv
          · exact hv
          · exact ih hv hm
      · rw [if_neg hcap] at h ⊢
        exact ih h hm

/-! ## The whole drain -/

/-- However libnfs answers, `issuePendingOperations` ends; in each category it executes the operations
that leave the queue once each and in order; the others keep their places; every refused operation gets
its one `failureCleanup` and gives its slot back; and no category with a queued operation is left below
its depth. -/
theorem issuePendingOperations_correct (d : Drain) (behave : Behaviour) :
    ∃ q l, (∀ n, d.fuel 0 ≤ n → d.issuePendingOperations behave n = some q) ∧
      q.executed = d.executed ++ l ∧
      (∀ c, ofCategory c (l.map Prod.fst) ++ ofCategory c q.pendingOperations =
        ofCategory c d.pendingOperations) ∧
      q.pendingOperations.Sublist d.pendingOperations ∧
      q.failureCleanups = d.failureCleanups ++ l.filterMap cleanup ∧
      q.inFlightCount = l.foldl counted d.inFlightCount ∧
      q.controller = l.foldl adapted d.controller ∧
      ∀ c, (∀ op ∈ q.pendingOperations, op.category ≠ c) ∨
        (q.controller c).effectiveDepth ≤ q.inFlightCount c := by
  have hdrained : ∃ q l, (∀ n, d.fuel 0 ≤ n → d.issuePendingOperations behave n = some q) ∧
      d.Does q l ∧ q.Full := by
    unfold issuePendingOperations
    cases hctx : d.context with
    | none =>
      refine ⟨d, [], fun _ _ => rfl, .refl d, fun op hop => ?_⟩
      rw [d.retired hctx] at hop
      cases hop
    | some ctx =>
      obtain ⟨q, l, hq, hdoes, hfull⟩ :
          ∃ q l, drainLoop behave (d.fuel 0) 0 d = some q ∧ d.Does q l ∧ q.Full :=
        drainLoop_drains (by rw [hctx]; rfl) (fun op hop => by simp at hop) (le_refl _)
      exact ⟨q, l, fun n hn => drainLoop_mono hq hn, hdoes, hfull⟩
  obtain ⟨q, l, hq, hdoes, hfull⟩ := hdrained
  refine ⟨q, l, hq, hdoes.executed, hdoes.order, hdoes.kept, hdoes.cleanups, hdoes.counts,
    hdoes.controllers, fun c => ?_⟩
  by_cases hc : ∃ op ∈ q.pendingOperations, op.category = c
  · obtain ⟨op, hop, rfl⟩ := hc
    right
    have := hfull op hop
    unfold hasCapacity at this
    simpa using this
  · left
    intro op hop heq
    exact hc ⟨op, hop, heq⟩

end Drain

/-! ## The machine does the same -/

open Machine

variable {s u : State} {d q : Drain} {behave : Behaviour} {op : PendingOperation} {i n : Nat}

/-- The drain works on the queue, the counts and the controllers of the loop. -/
structure State.Shows (s : State) (d : Drain) : Prop where
  context : d.context = s.context
  pending : d.pendingOperations = s.pendingOperations
  counts : d.inFlightCount = s.inFlightCount
  controllers : ∀ c, d.controller c = s.controller c

theorem State.Shows.hasCapacity (h : s.Shows d) (c : OperationCategory) :
    d.hasCapacity c = s.hasCapacity c := by
  unfold Drain.hasCapacity Core.hasCapacity
  rw [h.counts, h.controllers]

theorem State.Shows.of_core {t : State} (h : s.Shows d) (ht : t.toCore = s.toCore) : t.Shows d where
  context := by rw [h.context, ht]
  pending := by rw [h.pending, ht]
  counts := by rw [h.counts, ht]
  controllers := by rw [ht]; exact h.controllers

theorem State.Shows.of_fields {t : State} (h : s.Shows d) (hcontext : t.context = s.context)
    (hpending : t.pendingOperations = s.pendingOperations)
    (hcounts : t.inFlightCount = s.inFlightCount) (hbulk : t.bulkController = s.bulkController)
    (hmetadata : t.metadataController = s.metadataController) : t.Shows d where
  context := h.context.trans hcontext.symm
  pending := h.pending.trans hpending.symm
  counts := h.counts.trans hcounts.symm
  controllers := by
    intro c
    rw [h.controllers, Core.controller_eq, Core.controller_eq, hbulk, hmetadata]

theorem State.Shows.execute (h : s.Shows d) (i : Nat) (op : PendingOperation) (answer : Answer) :
    (s.executePending i op).Shows (d.execute i op answer) where
  context := h.context
  pending := by
    show d.pendingOperations.eraseIdx i = s.pendingOperations.eraseIdx i
    rw [h.pending]
  counts := by
    show Function.update d.inFlightCount _ _ = Function.update s.inFlightCount _ _
    rw [h.counts]
  controllers := h.controllers

theorem State.Shows.recordCompletion (h : s.Shows d) (c : OperationCategory) (success : Bool) :
    (s.recordCompletion c success).Shows (d.recordCompletion c success) where
  context := by
    rw [recordCompletion_eq]
    exact h.context
  pending := by
    rw [recordCompletion_eq]
    exact h.pending
  counts := by
    rw [recordCompletion_eq]
    show Function.update d.inFlightCount _ _ = Function.update s.inFlightCount _ _
    rw [h.counts]
  controllers := by
    intro c'
    show Function.update d.controller c _ c' = _
    rw [recordCompletion_controller, h.controllers]
    by_cases hc : c = c'
    · subst hc
      rw [Function.update_self, if_pos rfl]
    · rw [Function.update_of_ne (Ne.symm hc), if_neg hc, h.controllers]

/-- The reply that tells the completion hook of a success or a failure. -/
def reply (id : Nat) (success : Bool) : Event :=
  if success then .callback id 0 (some (.int 0)) else .callback id (-1) none

theorem State.replySucceeds_success (s : State) (cb : CallbackData) :
    s.replySucceeds cb 0 (some (.int 0)) = true := by
  unfold replySucceeds settle dataHandler
  by_cases hentry : cb.entry = .getexports <;> cases cb.dataHandler <;>
    simp [hentry, Outcome.isSuccess]

theorem State.replySucceeds_failure (s : State) (cb : CallbackData) :
    s.replySucceeds cb (-1) none = false := by
  unfold replySucceeds settle
  by_cases hentry : cb.entry = .getexports <;> simp [hentry]

/-- Between two calls of a drain: `v` is where the loop goes on when it has handed `cbs` over since
`s`. -/
structure DrainProgress (s v : State) (d : Drain) (cbs : List CallbackData) : Prop where
  stack : v.stack = s.stack
  shows : v.Shows d
  alive : v.alive = s.alive
  context : v.context = s.context
  handOvers : v.handOvers.map HandOver.cb = cbs.reverse ++ s.handOvers.map HandOver.cb

theorem DrainProgress.trans {v w : State} {d' : Drain} {cbs cbs' : List CallbackData}
    (h : DrainProgress s v d cbs) (h' : DrainProgress v w d' cbs') : DrainProgress s w d' (cbs ++ cbs') where
  stack := h'.stack.trans h.stack
  shows := h'.shows
  alive := h'.alive.trans h.alive
  context := h'.context.trans h.context
  handOvers := by rw [h'.handOvers, h.handOvers, List.reverse_append, List.append_assoc]

theorem DrainProgress.updateWriteSource {v : State} {cbs : List CallbackData} (h : DrainProgress s v d cbs) :
    DrainProgress s v.updateWriteSource d cbs where
  stack := by rw [State.updateWriteSource_toCore, h.stack]
  shows := h.shows.of_core (State.updateWriteSource_toCore v)
  alive := by rw [State.updateWriteSource_alive, h.alive]
  context := by rw [State.updateWriteSource_toCore, h.context]
  handOvers := by rw [State.updateWriteSource_toCore, h.handOvers]

namespace State

theorem drainFrom_none (h : s.pendingOperations[i]? = none) : s.drainFrom i = s.finishHook := by
  have hlen : s.pendingOperations.length - i = 0 := by
    have := List.getElem?_eq_none_iff.mp h
    omega
  unfold drainFrom
  rw [hlen]
  rfl

theorem drainFrom_some (h : s.pendingOperations[i]? = some op) :
    s.drainFrom i =
      if s.hasCapacity op.category then s.executePending i op else s.drainFrom (i + 1) := by
  obtain ⟨hi, -⟩ := List.getElem?_eq_some_iff.mp h
  have hlen : s.pendingOperations.length - i = s.pendingOperations.length - (i + 1) + 1 := by omega
  unfold drainFrom
  rw [hlen, drainLoop, h]

/-- libnfs refuses the operation: its slot is given back and the loop goes on. -/
theorem step_refused (i : Nat) (op : PendingOperation) (h : s.Shows d) {rc : Int} (hrc : rc < 0) :
    ∃ v, step (s.executePending i op) (.ret rc s.lib) = some (v.drainFrom i) ∧
      DrainProgress s v ((d.execute i op (.returned rc)).refused op rc) [op.cbData] := by
  have hstack : (s.executePending i op).stack =
      .handOver (.pending i op) op.cbData [] :: s.stack := rfl
  have hexec := h.execute i op (.returned rc)
  refine ⟨(((((s.executePending i op).setView .nfs s.lib).refuse s.stack op.id op.cbData).addInFlight
    op.category (-1)).resume op.cbData (.failure (.ofCode (-rc)))).updateWriteSource, ?_, ?_⟩
  · simp only [NFSKit.step, returnFromCall, hstack, if_pos hrc, List.not_mem_nil, if_false]
    rw [setView_leaveTo]
    unfold rejected
    dsimp only
    rw [refuse_addInFlight]
    rfl
  · apply DrainProgress.updateWriteSource
    rw [resume_eq]
    constructor
    · rfl
    · constructor
      · exact hexec.context
      · exact hexec.pending
      · show Function.update _ _ _ = Function.update _ _ _
        rw [hexec.counts]
        rfl
      · exact hexec.controllers
    · rfl
    · rfl
    · rfl

/-- libnfs accepts the operation: the loop goes on. Where its callback has run inside the call, nothing
is left to wait for. -/
theorem step_accepted {v : State} {d : Drain} {ran : List Nat} {rest : List Frame}
    (hstack : v.stack = .handOver (.pending i op) op.cbData ran :: rest) (h : v.Shows d) {rc : Int}
    (hrc : ¬ rc < 0) :
    ∃ w, step v (.ret rc v.lib) = some (w.drainFrom i) ∧ DrainProgress (v.leaveTo rest) w d [] := by
  refine ⟨(((v.setView .nfs v.lib).leaveTo rest).enqueueRequest .nfs op.cbData ran).updateWriteSource,
    ?_, ?_⟩
  · simp only [NFSKit.step, returnFromCall, hstack, if_neg hrc]
    rw [setView_leaveTo]
    rfl
  · apply DrainProgress.updateWriteSource
    rw [enqueueRequest_eq]
    exact ⟨rfl, ⟨h.context, h.pending, h.counts, h.controllers⟩, rfl, rfl, rfl⟩

/-- The completion hook records the completion and drains. -/
theorem completionHook_drains {v : State} (halive : v.alive) (hctx : v.context.isSome)
    (cb : CallbackData) (ok : Bool) :
    ∃ w : State, v.completionHook cb ok = w.drainFrom 0 ∧
      w.toCore =
        ((v.removeActive cb.continuationID).recordCompletion cb.operationCategory ok).toCore ∧
      w.alive = v.alive := by
  have hdrains (t : State) (ht : t.context = v.context) :
      t.issuePendingOperations = t.drainFrom 0 := by
    obtain ⟨ctx, hsome⟩ := Option.isSome_iff_exists.mp hctx
    unfold issuePendingOperations
    rw [ht, hsome]
  unfold completionHook handleCallbackCompletion
  rw [if_pos halive]
  split
  · refine ⟨_, hdrains _ ?_, ?_, ?_⟩ <;> rw [recordCompletion_eq]
    · rfl
    · rw [recordCompletion_eq]
      rfl
    · rfl
  · refine ⟨_, hdrains _ ?_, rfl, ?_⟩ <;> rw [recordCompletion_eq] <;> rfl

/-- The callback of the operation runs inside the call: the completion is recorded, and the drain starts
again. -/
theorem step_completed (h : s.Shows d) (halive : s.alive) (hctx : s.context.isSome) (success : Bool) :
    ∃ (w : State) (r : Outcome), step (s.executePending i op) (reply op.cbData.continuationID success) =
        some (w.drainFrom 0) ∧
      w.stack = .completionHook op.cbData r ::
        .handOver (.pending i op) op.cbData [op.cbData.caller] :: s.stack ∧
      DrainProgress s { w with stack := s.stack }
        ((d.execute i op (.completed success)).recordCompletion op.cbData.operationCategory success)
        [op.cbData] := by
  obtain ⟨status, data, hreply, hnote, hsucceeds⟩ : ∃ status data,
      reply op.cbData.continuationID success = .callback op.cbData.continuationID status data ∧
      (∀ v : State, v.noteDelivery op.cbData status data = some v) ∧
      ∀ v : State, v.replySucceeds op.cbData status data = success := by
    cases success with
    | true =>
      refine ⟨0, some (.int 0), rfl, fun v => ?_, fun v => v.replySucceeds_success _⟩
      simp [noteDelivery]
    | false =>
      refine ⟨-1, none, rfl, fun v => ?_, fun v => v.replySucceeds_failure _⟩
      simp [noteDelivery]
  generalize hv : ({ s.executePending i op with
    stack := Frame.handOver (.pending i op) op.cbData [op.cbData.caller] :: s.stack } : State) = v
  have hfire : step (s.executePending i op) (reply op.cbData.continuationID success) =
      some (v.runCallback op.cbData status data) := by
    have hstack : (s.executePending i op).stack =
        .handOver (.pending i op) op.cbData [] :: s.stack := rfl
    simp only [hreply, NFSKit.step, fireCallback, hstack, takeRequest, Frame.inCall,
      List.not_mem_nil, if_false, Option.filter_some, decide_true, if_true, Option.bind_some,
      Frame.noteCallback, hnote, Option.map_some, hv]
  have hv_alive : v.alive := hv ▸ halive
  have hv_ctx : v.context.isSome := hv ▸ hctx
  have hv_shows : v.Shows (d.execute i op (.completed success)) := by
    have hexec := h.execute i op (.completed success)
    rw [← hv]
    exact ⟨hexec.context, hexec.pending, hexec.counts, hexec.controllers⟩
  have hv_stack : v.stack = .handOver (.pending i op) op.cbData [op.cbData.caller] :: s.stack := by
    rw [← hv]
  have hv_handed : v.handOvers = (s.executePending i op).handOvers := by rw [← hv]
  have hv_alive' : v.alive = s.alive := by rw [← hv]; rfl
  have hv_ctx' : v.context = s.context := by rw [← hv]; rfl
  obtain ⟨b, r, henter⟩ := enterHook_eq v op.cbData status data
  obtain ⟨w, hw, hcore, hw_alive⟩ := completionHook_drains (v := v.enterHook op.cbData status data)
    (by rw [henter]; exact hv_alive) (by rw [henter]; exact hv_ctx) op.cbData success
  rw [henter] at hcore hw_alive
  have hshows := (hv_shows.recordCompletion op.cbData.operationCategory success)
  rw [recordCompletion_eq] at hcore hshows
  refine ⟨w, r, ?_, ?_, ?_⟩
  · rw [hfire, runCallback_eq, hsucceeds, hw]
  · rw [hcore, ← hv_stack]
    rfl
  · constructor
    · rfl
    · constructor
      · show _ = w.context
        rw [hcore]
        exact hshows.context
      · show _ = w.pendingOperations
        rw [hcore]
        exact hshows.pending
      · show _ = w.inFlightCount
        rw [hcore]
        exact hshows.counts
      · intro c
        have hsame : w.controller c = ({ w with stack := s.stack } : State).controller c := by
          cases c <;> rfl
        rw [← hsame, hcore]
        exact hshows.controllers c
    · exact hw_alive.trans hv_alive'
    · show w.context = _
      rw [hcore]
      exact hv_ctx'
    · show w.handOvers.map _ = _
      rw [hcore]
      show v.handOvers.map _ = _
      rw [hv_handed]
      rfl

end State

/-- A completion hook returns to the call that hands its operation over. -/
theorem hook_returns {r : Outcome} {cb : CallbackData} {rest : List Frame}
    (hstack : u.stack = .completionHook cb r :: rest) (h : u.Shows d) :
    ∃ z, u.finishHook = z ∧ z.stack = rest ∧ z.Shows d ∧ z.alive = u.alive ∧ z.context = u.context ∧
      z.handOvers = u.handOvers := by
  refine ⟨_, rfl, ?_⟩
  simp only [State.finishHook, hstack]
  rw [State.resume_eq]
  exact ⟨rfl, h.of_fields rfl rfl rfl rfl rfl, rfl, rfl, rfl⟩

/-- The machine, driven by libnfs's answers, does what the drain does, and then finishes the completion
hook that is running, if any. -/
theorem drainLoop_simulated (h : Drain.drainLoop behave n i d = some q) (hs : s.Shows d)
    (halive : s.alive) (hctx : s.context.isSome) :
    ∃ es u l, run step (s.drainFrom i) es = some u.finishHook ∧ q.executed = d.executed ++ l ∧
      DrainProgress s u q (l.map fun x => x.1.cbData) := by
  induction n generalizing i d q s with
  | zero => cases h
  | succ n ih =>
    unfold Drain.drainLoop at h
    cases hop : d.pendingOperations[i]? with
    | none =>
      rw [hop] at h
      obtain rfl := Option.some.inj h
      rw [hs.pending] at hop
      exact ⟨[], s, [], by rw [State.drainFrom_none hop]; rfl, by simp, rfl, hs, rfl, rfl, rfl⟩
    | some op =>
      simp only [hop] at h
      rw [hs.pending] at hop
      rw [State.drainFrom_some hop, ← hs.hasCapacity]
      -- the loop goes on from `v` after the events `es`
      have goOn (es : List Event) (l : List (PendingOperation × Answer)) {v : State} {e : Drain}
          {j : Nat} {t : State} (hrun : run step t es = some (v.drainFrom j))
          (hv : DrainProgress s v e (l.map fun x => x.1.cbData)) (he : e.executed = d.executed ++ l)
          (hloop : Drain.drainLoop behave n j e = some q) :
          ∃ es u l, run step t es = some u.finishHook ∧ q.executed = d.executed ++ l ∧
            DrainProgress s u q (l.map fun x => x.1.cbData) := by
        obtain ⟨es', u, l', hrun', hl', hu⟩ :=
          ih hloop hv.shows (hv.alive ▸ halive) (hv.context ▸ hctx)
        refine ⟨es ++ es', u, l ++ l', ?_, ?_, ?_⟩
        · rw [run_append, hrun]
          exact hrun'
        · rw [hl', he, List.append_assoc]
        · rw [List.map_append]
          exact hv.trans hu
      by_cases hcap : d.hasCapacity op.category
      · rw [if_pos hcap] at h ⊢
        cases hanswer : behave d.executed op with
        | returned rc =>
          simp only [hanswer] at h
          by_cases hrc : rc < 0
          · rw [if_pos hrc] at h
            obtain ⟨v, hstep, hv⟩ := State.step_refused i op hs hrc
            exact goOn [.ret rc s.lib] [(op, .returned rc)]
              (by simp only [run, hstep, Option.bind_some]) hv rfl h
          · rw [if_neg hrc] at h
            obtain ⟨v, hstep, hv⟩ :=
              State.step_accepted
                (show (s.executePending i op).stack = .handOver (.pending i op) op.cbData [] :: s.stack
                  from rfl) (hs.execute i op (.returned rc)) hrc
            have hleft : DrainProgress s ((s.executePending i op).leaveTo s.stack)
                (d.execute i op (.returned rc)) [op.cbData] :=
              ⟨rfl, (hs.execute i op (.returned rc)).of_fields rfl rfl rfl rfl rfl, rfl, rfl, rfl⟩
            exact goOn [.ret rc s.lib] [(op, .returned rc)]
              (by simp only [run]; rw [show s.lib = (s.executePending i op).lib from rfl, hstep]; rfl)
              (hleft.trans hv) rfl h
        | completed success =>
          simp only [hanswer] at h
          obtain ⟨e, he, hloop⟩ := Option.bind_eq_some_iff.mp h
          obtain ⟨ctx, hsome⟩ := Option.isSome_iff_exists.mp hctx
          have hdctx : (d.execute i op (.completed success)).context = some ctx :=
            hs.context.trans hsome
          simp only [hdctx] at he
          obtain ⟨w, r, hstep, hwstack, hw⟩ := State.step_completed hs halive hctx success
          obtain ⟨es, u, l, hrun, hl, hu⟩ := ih (s := w) he
            (hw.shows.of_fields rfl rfl rfl rfl rfl) (hw.alive.trans halive)
            ((congrArg Option.isSome hw.context).trans hctx)
          obtain ⟨z, hz, hzstack, hzshows, hzalive, hzctx, hzhanded⟩ :=
            hook_returns (hu.stack.trans hwstack) hu.shows
          obtain ⟨v, hstep', hv⟩ := State.step_accepted hzstack hzshows (by decide : ¬ (0 : Int) < 0)
          have hback : DrainProgress s (z.leaveTo s.stack) e
              ([op.cbData] ++ l.map fun x => x.1.cbData) := by
            constructor
            · rfl
            · exact hzshows.of_fields rfl rfl rfl rfl rfl
            · exact hzalive.trans (hu.alive.trans hw.alive)
            · exact hzctx.trans (hu.context.trans hw.context)
            · show z.handOvers.map _ = _
              have hhanded : w.handOvers.map HandOver.cb = _ := hw.handOvers
              rw [hzhanded, hu.handOvers, hhanded, List.reverse_append, List.append_assoc]
          have hgone := hback.trans hv
          rw [List.append_nil] at hgone
          refine goOn (reply op.cbData.continuationID success :: (es ++ [.ret 0 z.lib]))
            ((op, .completed success) :: l) ?_ hgone ?_ hloop
          · simp only [run, hstep, Option.bind_some]
            rw [run_append, hrun, hz, Option.bind_some]
            simp only [run, hstep', Option.bind_some]
          · rw [hl]
            simp [Drain.execute, Drain.recordCompletion]
      · rw [if_neg hcap] at h ⊢
        exact goOn [] [] rfl ⟨rfl, hs, rfl, rfl, rfl⟩ (by simp) h

/-- The drain that the loop of a state makes. -/
def State.drain (s : State) (h : s.context = none → s.pendingOperations = []) : Drain where
  context := s.context
  pendingOperations := s.pendingOperations
  inFlightCount := s.inFlightCount
  controller := s.controller
  retired := h

/-- From any state with a context, libnfs's answers to the operations it is given drive the machine
through the whole drain. -/
theorem issuePendingOperations_simulated (behave : Behaviour) (halive : s.alive)
    (hctx : s.context.isSome) (h : s.context = none → s.pendingOperations = []) :
    ∃ es u q, (s.drain h).issuePendingOperations behave ((s.drain h).fuel 0) = some q ∧
      run step s.issuePendingOperations es = some u.finishHook ∧
      DrainProgress s u q (q.executed.map fun x => x.1.cbData) := by
  obtain ⟨ctx, hsome⟩ := Option.isSome_iff_exists.mp hctx
  have hdrain : (s.drain h).context = some ctx := hsome
  have hmachine : s.issuePendingOperations = s.drainFrom 0 := by
    unfold State.issuePendingOperations
    rw [hsome]
  obtain ⟨q, l, hq, -, -⟩ : ∃ q l, Drain.drainLoop behave ((s.drain h).fuel 0) 0 (s.drain h) = some q ∧
      (s.drain h).Does q l ∧ q.Full :=
    Drain.drainLoop_drains hctx (fun op hop => by simp at hop) (le_refl _)
  obtain ⟨es, u, l, hrun, hl, hu⟩ :=
    drainLoop_simulated hq (s := s) ⟨rfl, rfl, rfl, fun _ => rfl⟩ halive hctx
  refine ⟨es, u, q, ?_, ?_, ?_⟩
  · unfold Drain.issuePendingOperations
    rw [hdrain]
    exact hq
  · rw [hmachine, hrun]
  · rw [hl]
    exact hu

end NFSKit
