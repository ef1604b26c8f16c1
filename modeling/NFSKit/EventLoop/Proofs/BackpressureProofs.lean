import NFSKit.EventLoop.Proofs.LeakProofs

/-!
# Backpressure

The pending queue grows by one operation at a time, and only below its bound. A submission that finds
its category at capacity and the queue full leaves nothing but the next continuation id behind.
-/

namespace NFSKit

open Machine

variable {s s' t : State} {k k' : Config} {a : Action} {e : Event}

/-- What an action does to the pending queue. -/
inductive PendingStep (s s' : State) : Action → Prop where
  | same {a : Action} (h : s'.pendingOperations = s.pendingOperations) : PendingStep s s' a
  | enqueued {type : OperationType} {cb : CallbackData}
      (hroom : s.pendingOperations.length < maxPendingOperations)
      (h : s'.pendingOperations = s.pendingOperations ++ [⟨cb.continuationID, type, cb⟩]) :
      PendingStep s s' (.enqueue type cb)
  | executed {i : Nat} {op : PendingOperation} (hop : s.pendingOperations[i]? = some op)
      (h : s'.pendingOperations = s.pendingOperations.eraseIdx i) : PendingStep s s' (.execute i op)
  | cleared {a : Action} (h : s'.pendingOperations = []) : PendingStep s s' a

theorem Act.pending (h : Act k a k') : PendingStep k.state k'.state a := by
  cases h with
  | silent hcore => exact .same (by rw [hcore])
  | enqueue _ _ _ _ _ _ hroom => exact .enqueued hroom rfl
  | execute _ hop => exact .executed hop rfl
  | @expire s cb => exact .same (State.expire_fields s cb).2.1
  | callback _ _ htake hnote =>
    obtain ⟨out, fhs, dirs, b, r, -, heq⟩ := State.callback_eq htake hnote
    rw [State.recordCompletion_eq, heq]
    exact .same rfl
  | callbackDead _ _ htake hnote =>
    obtain ⟨out, fhs, dirs, b, r, -, heq⟩ := State.callback_eq htake hnote
    rw [heq]
    exact .same rfl
  | @finishHook s =>
    obtain ⟨stack, resumed, outcomes, failed, heq⟩ := State.finishHook_eq s
    rw [heq]
    exact .same rfl
  | accept =>
    rw [State.enqueueRequest_eq]
    split <;> exact .same rfl
  | reject | rejectPending =>
    rw [State.resume_eq]
    exact .same rfl
  | @enterDestroy s kind => cases kind <;> exact .cleared rfl
  | @leaveDestroy s kind conts rest =>
    obtain ⟨bulk, metadata, counts, heq⟩ :=
      State.endTeardown_eq ((s.leaveTo rest).dropRequests .nfs) kind conts
    rw [heq, State.foldl_resume_eq]
    exact .same rfl
  | @teardownNow s kind =>
    obtain ⟨bulk, metadata, counts, heq⟩ :=
      State.endTeardown_eq (s.clearRegistries kind) kind s.activeContinuations
    rw [heq, State.foldl_resume_eq]
    cases kind <;> exact .cleared rfl
  | _ => exact .same rfl

/-- The queue is within its bound. -/
def WithinBound (s : State) : Prop := s.pendingOperations.length ≤ maxPendingOperations

theorem WithinBound.act (hb : WithinBound k.state) (h : Act k a k') : WithinBound k'.state := by
  unfold WithinBound at hb ⊢
  cases h.pending with
  | same heq => rwa [heq]
  | enqueued hroom heq =>
    rw [heq, List.length_append, List.length_singleton]
    omega
  | executed hop heq =>
    rw [heq]
    exact (List.eraseIdx_sublist _ _).length_le.trans hb
  | cleared heq =>
    rw [heq]
    exact Nat.zero_le _

theorem withinBound_of_reachable {timeout : Int} (h : Reachable step (State.init timeout) s) :
    WithinBound s :=
  (run_invariant_init h (fun k => WithinBound k.state) (Nat.zero_le _)
    fun _ _ _ _ _ _ _ hb _ hact => hb.act hact).2

/-- What a caller has received it keeps, and receives nothing more. -/
theorem outcomes_stable {timeout : Int} (h : Reachable step (State.init timeout) s)
    (ht : Reachable step s t) {i : Nat} (hi : s.outcomes i ≠ []) : t.outcomes i = s.outcomes i := by
  refine (run_invariant_sound ht (sound_of_reachable h)
    (fun k => k.state.outcomes i = s.outcomes i) rfl ?_).2
  intro u e k a k' _ hk heq _ hact
  exact (hact.results_stable hk (heq ▸ hi)).trans heq

/-- An operation that has been made stays made. -/
theorem step_created_mono {e : Event} (hs : Sound s.config) (h : step s e = some t) {cb : CallbackData}
    (hcb : cb ∈ s.created) : cb ∈ t.created := by
  refine (step_invariant_sound h hs (fun k => cb ∈ k.state.created) hcb fun k a k' _ hI _ hact => ?_).2
  rw [hact.effects.created]
  exact List.mem_append_right _ hI

/-! ## Submissions -/

theorem step_submits {type : OperationType} {handler : DataHandler}
    (he : e.submits = some (type, handler)) (h : step s e = some t) :
    s.stack = [] ∧ t = s.submit type handler := by
  have hblock (b : Block) (heq : e = .block b) (hb : s.runBlock b = some (s.submit type handler)) :
      s.stack = [] ∧ t = s.submit type handler := by
    rw [heq] at h
    simp only [NFSKit.step] at h
    split at h
    · rename_i hidle
      simp only [Bool.and_eq_true, List.isEmpty_iff] at hidle
      exact ⟨hidle.1, Option.some.inj (h.symm.trans hb)⟩
    · cases h
  unfold Event.submits at he
  split at he
  · cases he
    exact hblock _ rfl rfl
  · cases he
    exact hblock _ rfl rfl
  · cases he

/-- The state after a submission is refused: the registry entry is gone again. -/
theorem register_removeActive (hw : WellFormed s) {cb : CallbackData}
    (hid : cb.continuationID = s.nextContinuationID) :
    (s.newCaller.register cb).removeActive cb.continuationID =
      { s with
        nextCaller := s.nextCaller + 1
        nextContinuationID := s.nextContinuationID + 1
        created := cb :: s.created } := by
  have hold : s.activeContinuations.filter (·.continuationID ≠ cb.continuationID) =
      s.activeContinuations := by
    refine List.filter_eq_self.mpr fun c hc => ?_
    have hlt := hw.id_lt c (hw.active_created c hc)
    have hne : c.continuationID ≠ cb.continuationID := by omega
    simpa using hne
  unfold State.removeActive State.register State.newCaller
  dsimp only
  rw [List.filter_append, hold]
  simp

/-- The queue never holds more than `maxPendingOperations` operations. A submission to a loop with a
context is refused with `ENOBUFS` exactly if its category is at capacity and the queue is full; then its
caller is resumed once and for all, and nothing else changes but the next continuation id. -/
theorem backpressure {timeout : Int} (h : Reachable step (State.init timeout) s) :
    s.pendingOperations.length ≤ maxPendingOperations ∧
    ∀ e type handler t, e.submits = some (type, handler) → s.context.isSome → step s e = some t →
      (t.outcomes s.nextCaller = [.failure .ENOBUFS] ↔
        s.hasCapacity type.category = false ∧ s.pendingOperations.length ≥ maxPendingOperations) ∧
      (s.hasCapacity type.category = false → s.pendingOperations.length ≥ maxPendingOperations →
        (∃ cb : CallbackData, cb.continuationID = s.nextContinuationID ∧
          t = { s with
            nextCaller := s.nextCaller + 1
            nextContinuationID := s.nextContinuationID + 1
            created := cb :: s.created
            outcomes := Function.update s.outcomes s.nextCaller [.failure .ENOBUFS] }) ∧
        ∀ u, Reachable step t u → u.outcomes s.nextCaller = [.failure .ENOBUFS]) := by
  refine ⟨withinBound_of_reachable h, ?_⟩
  intro e type handler t he hctx hstep
  have hs := sound_of_reachable h
  have hw : WellFormed s := hs.wellFormed
  have hfresh : s.outcomes s.nextCaller = [] := (hs.resumption.fresh s.nextCaller (le_refl _)).1
  obtain ⟨-, rfl⟩ := step_submits he hstep
  have hrefused (hcap : s.hasCapacity type.category = false)
      (hfull : s.pendingOperations.length ≥ maxPendingOperations) :
      ∃ cb : CallbackData, cb.continuationID = s.nextContinuationID ∧
        s.submit type handler = { s with
          nextCaller := s.nextCaller + 1
          nextContinuationID := s.nextContinuationID + 1
          created := cb :: s.created
          outcomes := Function.update s.outcomes s.nextCaller [.failure .ENOBUFS] } := by
    unfold State.submit
    extract_lets caller s₁ cb s₂
    have hcap' : s₂.hasCapacity type.category = false := hcap
    have hfull' : s₂.pendingOperations.length ≥ maxPendingOperations := hfull
    have hremoved : s₂.removeActive cb.continuationID = _ := register_removeActive hw rfl
    refine ⟨cb, rfl, ?_⟩
    split
    · rename_i hnone
      rw [show s.context = none from hnone] at hctx
      cases hctx
    · rw [if_neg (by simp [hcap']), if_pos hfull', hremoved]
      simp only [State.resumeContinuation, caller, hfresh, List.nil_append]
  refine ⟨⟨fun hout => ?_, fun hboth => ?_⟩, fun hcap hfull => ?_⟩
  · by_contra hno
    have hnone : (s.submit type handler).outcomes s.nextCaller = [] := by
      unfold State.submit
      extract_lets caller s₁ cb s₂
      split
      · rename_i hnone
        rw [show s.context = none from hnone] at hctx
        cases hctx
      · split
        · exact hfresh
        · rename_i hcap
          have hcap' : s.hasCapacity type.category = false := (Bool.not_eq_true _).mp hcap
          split
          · rename_i hfull
            exact absurd ⟨hcap', hfull⟩ hno
          · exact hfresh
    rw [hnone] at hout
    cases hout
  · obtain ⟨cb, -, heq⟩ := hrefused hboth.1 hboth.2
    rw [heq]
    simp
  · obtain ⟨cb, hid, heq⟩ := hrefused hcap hfull
    refine ⟨⟨cb, hid, heq⟩, fun u hu => ?_⟩
    have hout : (s.submit type handler).outcomes s.nextCaller = [.failure .ENOBUFS] := by
      rw [heq]
      simp
    rw [outcomes_stable (h.tail trivial hstep) hu (by simp [hout]), hout]

/-! ## A queue that fills -/

/-- A loop between two queue blocks that has no room for another metadata operation. -/
structure AtCapacity (s : State) : Prop where
  idle : s.stack = []
  alive : s.alive
  context : s.context.isSome
  full : s.hasCapacity .metadata = false

/-- A stat that finds its category at capacity waits, and leaves the loop as it was otherwise. -/
theorem AtCapacity.step_stat (hs : AtCapacity s)
    (hroom : s.pendingOperations.length < maxPendingOperations) :
    ∃ t, step s (.block Block.stat) = some t ∧ AtCapacity t ∧
      t.pendingOperations.length = s.pendingOperations.length + 1 := by
  have hstep : step s (.block Block.stat) = some (s.submit .stat .unwrap) := by
    simp [NFSKit.step, State.runBlock, Block.stat, hs.idle, hs.alive]
  obtain ⟨ctx, hctx⟩ := Option.isSome_iff_exists.mp hs.context
  have hqueued : ∃ cb : CallbackData, s.submit .stat .unwrap =
      { (s.newCaller.register cb).passRetained cb with
        pendingOperations := s.pendingOperations ++ [⟨cb.continuationID, .stat, cb⟩] } := by
    unfold State.submit
    extract_lets caller s₁ cb s₂
    have hfull : s₂.hasCapacity OperationType.stat.category = false := hs.full
    have hroom' : ¬ s₂.pendingOperations.length ≥ maxPendingOperations := Nat.not_le.mpr hroom
    refine ⟨cb, ?_⟩
    split
    · rename_i hnone
      rw [show s.context = none from hnone] at hctx
      cases hctx
    · rw [if_neg (by simp [hfull]), if_neg hroom']
      rfl
  obtain ⟨cb, heq⟩ := hqueued
  refine ⟨_, hstep, ?_, ?_⟩
  · rw [heq]
    exact ⟨hs.idle, hs.alive, hs.context, hs.full⟩
  · rw [heq]
    simp

/-- Any number of stats that fit wait one behind the other. -/
theorem AtCapacity.run_stats (hs : AtCapacity s) (n : Nat)
    (hroom : s.pendingOperations.length + n ≤ maxPendingOperations) :
    ∃ t, run step s (List.replicate n (.block Block.stat)) = some t ∧ AtCapacity t ∧
      t.pendingOperations.length = s.pendingOperations.length + n := by
  induction n generalizing s with
  | zero => exact ⟨s, rfl, hs, rfl⟩
  | succ n ih =>
    obtain ⟨u, hu, hcap, hlength⟩ := hs.step_stat (by omega)
    obtain ⟨t, ht, hcap', hlength'⟩ := ih hcap (by omega)
    refine ⟨t, ?_, hcap', by omega⟩
    rw [List.replicate_succ, run, hu]
    exact ht

/-- The queue of a mounted loop fills: four stats are handed over and 4096 wait; the next one is refused,
for good. -/
theorem backpressure_stats :
    ∃ s t, run step (State.init 60000000000)
        (mountEvents ++ [.block Block.stat, .ret 0 .connected, .block Block.stat, .ret 0 .connected,
          .block Block.stat, .ret 0 .connected, .block Block.stat, .ret 0 .connected] ++
        List.replicate maxPendingOperations (.block Block.stat)) = some s ∧
      s.pendingOperations.length = maxPendingOperations ∧
      step s (.block Block.stat) = some t ∧
      ∀ u, Reachable step t u → u.outcomes s.nextCaller = [.failure .ENOBUFS] := by
  have hrun : ((run step (State.init 60000000000)
      (mountEvents ++ [.block Block.stat, .ret 0 .connected, .block Block.stat, .ret 0 .connected,
        .block Block.stat, .ret 0 .connected, .block Block.stat, .ret 0 .connected])).any fun r =>
      r.stack = [] ∧ r.alive ∧ r.context.isSome ∧ r.hasCapacity .metadata = false ∧
        r.pendingOperations = []) = true := by
    decide +kernel
  obtain ⟨r, hr, hbusy⟩ := (Option.any_eq_true _ _).mp hrun
  obtain ⟨hidle, halive, hctx, hfull, hempty⟩ := of_decide_eq_true hbusy
  have hcap : AtCapacity r := ⟨hidle, halive, hctx, hfull⟩
  obtain ⟨s, hs, hcap', hlength⟩ := hcap.run_stats maxPendingOperations (by simp [hempty])
  have hstep : step s (.block Block.stat) = some (s.submit .stat .unwrap) := by
    simp [NFSKit.step, State.runBlock, Block.stat, hcap'.idle, hcap'.alive]
  have hreach : Reachable step (State.init 60000000000) s :=
    (reachable_of_run hr).trans (reachable_of_run hs)
  have hlength' : s.pendingOperations.length = maxPendingOperations := by
    simpa [hempty] using hlength
  refine ⟨s, _, ?_, hlength', hstep, ?_⟩
  · rw [run_append, hr, Option.bind_some, hs]
  · exact (((backpressure hreach).2 (.block Block.stat) .stat .unwrap _ rfl hcap'.context hstep).2
      hcap'.full hlength'.ge).2

end NFSKit
