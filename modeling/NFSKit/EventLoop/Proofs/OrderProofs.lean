import NFSKit.EventLoop.Proofs.BackpressureProofs
import NFSKit.EventLoop.Proofs.BacklogProofs

/-!
# First submitted, first issued

`submit` issues an operation at once whenever its category has capacity, without a look at the queue.
The order of the submissions is kept because a queued operation whose caller waits has no capacity, and
because the loop takes the first operation of a category.
-/

namespace NFSKit

open Machine

variable {s t u : State} {k k' : Config} {a : Action} {e : Event}

/-- Whether the operation was submitted. -/
def HandOver.submitted (x : HandOver) : Prop := ∃ type, x.cb.entry = .submit type

/-- The hand-over `later` does not overtake `earlier`, which was submitted before it, unless its caller
had been resumed by then. -/
def HandOver.Follows (later earlier : HandOver) : Prop :=
  later.submitted → earlier.submitted →
    later.cb.operationCategory = earlier.cb.operationCategory →
      later.cb.continuationID < earlier.cb.continuationID → later.resumed

/-- The queue is in the order of the submissions, and no submitted operation has been handed over before
an older one of its category that still waits. -/
structure InOrder (s : State) : Prop where
  sorted : s.pendingOperations.Pairwise fun a b => a.id < b.id
  created : ∀ x ∈ s.handOvers, x.cb ∈ s.created
  queue : ∀ x ∈ s.handOvers, x.submitted → ∀ op ∈ s.pendingOperations,
    op.category = x.cb.operationCategory → op.id < x.cb.continuationID →
      s.outcomes op.cbData.caller ≠ []
  handed : s.handOvers.Pairwise HandOver.Follows

theorem inOrder_init (timeout : Int) : InOrder (State.init timeout) where
  sorted := .nil
  created := fun x h => by cases h
  queue := fun x h => by cases h
  handed := .nil

/-- A queued operation has been registered. -/
theorem WellFormed.queued_created (hw : WellFormed s) {op : PendingOperation}
    (hop : op ∈ s.pendingOperations) : op.cbData ∈ s.created := by
  refine hw.tokens_created op.cbData ?_
  have hpos : 0 < s.pendingOperations.countP (fun x => x.cbData = op.cbData) :=
    List.countP_pos_iff.mpr ⟨op, hop, by simp⟩
  unfold Core.tokens
  omega

/-- What has been handed over was registered before. -/
theorem handOvers_created_act (hw : WellFormed k.state)
    (hs : ∀ x ∈ k.state.handOvers, x.cb ∈ k.state.created) (h : Act k a k') :
    ∀ x ∈ k'.state.handOvers, x.cb ∈ k'.state.created := by
  intro x hx
  rw [h.effects.created]
  rcases h.handed with hsame | ⟨y, hcons, -, hy⟩
  · exact List.mem_append_right _ (hs x (hsame ▸ hx))
  · rw [hcons] at hx
    rcases List.mem_cons.mp hx with rfl | hx
    · obtain ⟨site, rfl⟩ | ⟨i, op, rfl, hop, hcb⟩ := hy
      · exact List.mem_append_left _ (List.mem_singleton_self _)
      · rw [hcb]
        exact List.mem_append_right _ (hw.queued_created hop)
    · exact List.mem_append_right _ (hs x hx)

theorem WellFormed.queued_id_lt (hw : WellFormed s) {op : PendingOperation}
    (hop : op ∈ s.pendingOperations) : op.id < s.nextContinuationID := by
  rw [(hw.pending_op op hop).id_eq]
  exact hw.id_lt _ (hw.queued_created hop)

/-- The queue stays in the order of the submissions. -/
theorem sorted_act (hw : WellFormed k.state)
    (hs : k.state.pendingOperations.Pairwise fun a b => a.id < b.id) (h : Act k a k') :
    k'.state.pendingOperations.Pairwise fun a b => a.id < b.id := by
  cases h.pending with
  | same heq => rwa [heq]
  | @enqueued type cb _ heq =>
    have hid : cb.continuationID = k.state.nextContinuationID := by
      cases h with
      | enqueue _ hid => exact hid
    rw [heq, List.pairwise_append]
    refine ⟨hs, List.pairwise_singleton _ _, fun x hx y hy => ?_⟩
    obtain rfl := List.mem_singleton.mp hy
    dsimp only
    rw [hid]
    exact hw.queued_id_lt hx
  | executed _ heq =>
    rw [heq]
    exact hs.sublist (List.eraseIdx_sublist _ _)
  | cleared heq =>
    rw [heq]
    exact .nil

/-- A frame of work on the stack keeps the loop alive. -/
theorem Quiet.alive_of_isWork (hq : Quiet k) (hctx : k.state.context.isSome) {f : Frame}
    (hf : f ∈ k.state.stack) (hwork : f.isWork) : k.state.alive := by
  cases halive : k.state.alive with
  | true => rfl
  | false =>
    rw [(hq halive hctx).2 f hf] at hwork
    cases hwork

/-- Below the index of the loop are the operations that were submitted before. -/
theorem mem_take_of_id_lt {l : List PendingOperation} (hs : l.Pairwise fun a b => a.id < b.id) {i : Nat}
    {op x : PendingOperation} (hop : l[i]? = some op) (hx : x ∈ l.eraseIdx i) (hlt : x.id < op.id) :
    x ∈ l.take i := by
  obtain ⟨hi, hget⟩ := List.getElem?_eq_some_iff.mp hop
  have hsplit : l = l.take i ++ op :: l.drop (i + 1) := by
    rw [← hget, List.cons_getElem_drop_succ, List.take_append_drop]
  rw [hsplit, List.pairwise_append] at hs
  rw [List.eraseIdx_eq_take_drop_succ] at hx
  rcases List.mem_append.mp hx with hx | hx
  · exact hx
  · have := List.rel_of_pairwise_cons hs.2.1 hx
    omega

namespace InOrder

/-- Nothing is handed over: what is queued was queued before, or is submitted last. -/
theorem keep (ho : InOrder k.state) (hw : WellFormed k.state) (h : Act k a k')
    (hsame : k'.state.handOvers = k.state.handOvers) : InOrder k'.state where
  sorted := sorted_act hw ho.sorted h
  created := by
    rw [hsame, h.effects.created]
    exact fun x hx => List.mem_append_right _ (ho.created x hx)
  queue := by
    intro x hx hsub op hop hcat hlt
    rw [hsame] at hx
    rcases h.effects.pending op hop with hop | ⟨type, cb, rfl, rfl⟩
    · exact h.effects.outcomes _ (ho.queue x hx hsub op hop hcat hlt)
    · have hid : cb.continuationID = k.state.nextContinuationID := by
        cases h with
        | enqueue _ hid => exact hid
      have := hw.id_lt _ (ho.created x hx)
      dsimp only at hlt
      omega
  handed := by
    rw [hsame]
    exact ho.handed

/-- One action hands no submitted operation over before an older one that waits. -/
theorem act (ho : InOrder k.state) (hk : Sound k) (hquiet : Quiet k') (hq : QueueFull false k)
    (ha : Allowed u e k a) (h : Act k a k') : InOrder k'.state := by
  have hw := hk.wellFormed
  have hact := h
  -- an operation that the loop has passed and whose caller waits finds no capacity
  have waiting {op : PendingOperation} (halive : k.state.alive) (hctx : k.state.context.isSome)
      (hop : op ∈ k.passed) (hcap : k.state.hasCapacity op.category) :
      k.state.outcomes op.cbData.caller ≠ [] := by
    intro hout
    rw [hq halive hctx op hop (by simp [Core.regards, hout])] at hcap
    cases hcap
  rcases h.rarely.2.2 with hsame | ⟨site, cb, rfl⟩ | ⟨i, op, rfl⟩
  · exact ho.keep hw h hsame
  · cases h with
    | @start s _ _ hstack hctx hsite hid _ _ hissued =>
      have halive : s.alive := hquiet.alive_of_isWork hctx (List.mem_cons_self ..) rfl
      refine ⟨ho.sorted, fun x hx => ?_, fun x hx hsub op hop hcat hlt => ?_, ?_⟩
      · rcases List.mem_cons.mp hx with rfl | hx
        · exact List.mem_cons_self ..
        · exact List.mem_cons_of_mem _ (ho.created x hx)
      · rcases List.mem_cons.mp hx with rfl | hx
        · obtain ⟨type, htype⟩ := hsub
          have hsubmits := ha.1 type htype
          have hissue : site = .issueOperation := by
            rcases ha.2.2.1 with hissue | ⟨b, rfl, hb, -⟩
            · exact hissue.1
            · cases b <;> first | cases hb | cases hsubmits
          have hcap := hissued.capacity hissue
          rw [show cb.operationCategory = op.category from hcat.symm] at hcap
          refine waiting halive hctx ?_ hcap
          rw [Config.passed_of_index (by simp [Config.index, hstack])]
          exact hop
        · exact ho.queue x hx hsub op hop hcat hlt
      · refine List.pairwise_cons.mpr ⟨fun y hy _ _ _ hlt => ?_, ho.handed⟩
        have hy : y.cb.continuationID < s.nextContinuationID := hw.id_lt _ (ho.created y hy)
        have hlt : cb.continuationID < y.cb.continuationID := hlt
        rw [hid] at hlt
        exact absurd hlt (by omega)
  · cases h with
    | @execute s _ _ hctx hop hcap =>
      have halive : s.alive := hquiet.alive_of_isWork hctx (List.mem_cons_self ..) rfl
      have hmem := List.mem_of_getElem? hop
      have hconsistent := hw.pending_op op hmem
      refine ⟨sorted_act hw ho.sorted hact, fun x hx => ?_, fun x hx hsub y hy hcat hlt => ?_, ?_⟩
      · rcases List.mem_cons.mp hx with rfl | hx
        · exact hw.queued_created hmem
        · exact ho.created x hx
      · have hy : y ∈ s.pendingOperations.eraseIdx i := hy
        rcases List.mem_cons.mp hx with rfl | hx
        · have hlt : y.id < op.id := by
            rw [hconsistent.id_eq]
            exact hlt
          have hcat : y.category = op.category := by
            rw [hconsistent.category_eq]
            exact hcat
          exact waiting halive hctx (mem_take_of_id_lt ho.sorted hop hy hlt) (hcat ▸ hcap)
        · exact ho.queue x hx hsub y (List.mem_of_mem_eraseIdx hy) hcat hlt
      · refine List.pairwise_cons.mpr ⟨fun y hy _ hsub hcat hlt => ?_, ho.handed⟩
        have hcat : op.category = y.cb.operationCategory := by
          rw [hconsistent.category_eq]
          exact hcat
        have hlt : op.id < y.cb.continuationID := by
          rw [hconsistent.id_eq]
          exact hlt
        have hresumed := ho.queue y hy hsub op hmem hcat hlt
        show (!(s.outcomes op.cbData.caller).isEmpty) = true
        simpa using hresumed

/-- A timeout scan hands nothing over. -/
theorem scan (ho : InOrder s) (h : 0 < s.timeout) : InOrder s.scanForTimeouts := by
  obtain ⟨⟨hpending, hout, hhanded, hcreated⟩, -⟩ := scanForTimeouts_fields s h
  obtain ⟨hpending', hhanded', hcreated', hresumed⟩ :=
    foldl_expire_fields (s.activeContinuations.filter s.expired) s
  rw [hpending'] at hpending
  rw [hhanded'] at hhanded
  rw [hcreated'] at hcreated
  refine ⟨hpending ▸ ho.sorted, ?_, ?_, hhanded ▸ ho.handed⟩
  · rw [hhanded, hcreated]
    exact ho.created
  · rw [hhanded, hpending, hout]
    intro x hx hsub op hop hcat hlt
    exact hresumed _ (ho.queue x hx hsub op hop hcat hlt)

/-- A step that looks again at the waiting operations keeps the order. -/
theorem step {timeout : Int} (ho : InOrder u) (hu : Reachable NFSKit.step (State.init timeout) u)
    (hq : QueueFull false u.config) (hP : LooksAgain false u e) (h : NFSKit.step u e = some t) :
    InOrder t := by
  by_cases hscan : scanExpires u e = []
  · refine (step_invariant_sound h (sound_of_reachable hu)
      (fun k => (Quiet k ∧ QueueFull false k) ∧ InOrder k.state)
      ⟨⟨quiet_of_reachable hu, hq⟩, ho⟩ fun k a k' hk hI ha hact => ?_).2.2
    obtain ⟨⟨hquiet, hq⟩, ho⟩ := hI
    have hquiet' := hquiet.act hk hact
    exact ⟨⟨hquiet', hq.act hk hP.2 ha hact (not_expire_of_scan hscan ha)⟩,
      ho.act hk hquiet' hq ha hact⟩
  · obtain ⟨htimeout, -, rfl⟩ := step_scan h hscan
    exact ho.scan htimeout

end InOrder

theorem inOrder_of_reaches {timeout : Int} (h : Reaches step (LooksAgain false) (State.init timeout) t) :
    InOrder t :=
  (h.strengthen.invariant (I := fun u => QueueFull false u.config ∧ InOrder u)
    ⟨queueFull_init timeout, inOrder_init timeout⟩ fun _ _ _ hI hp hstep =>
      ⟨hI.1.step (sound_of_reachable hp.2.1) hp.1 hstep, hI.2.step hp.2.1 hI.1 hp.1 hstep⟩).2

/-- In a run whose timeout scans and refusals leave no capacity for a queued operation that waits, no
submitted operation is handed to libnfs while an older one of its category waits in the queue, and the
submitted operations of a category are handed over in the order of their ids, but for those whose
callers have been resumed before. -/
theorem submissions_in_order {timeout : Int} (h : Reaches step (LooksAgain false) (State.init timeout) t) :
    (∀ x ∈ t.handOvers, x.submitted → ∀ op ∈ t.pendingOperations,
      op.category = x.cb.operationCategory → op.id < x.cb.continuationID →
        t.outcomes op.cbData.caller ≠ []) ∧
    t.handOvers.Pairwise HandOver.Follows := by
  have hrun := inOrder_of_reaches h
  exact ⟨hrun.queue, hrun.handed⟩

/-- Three stats: the reply to the first one issues the third, and nothing is overtaken. -/
theorem submissions_in_order_stats :
    ∃ t, run step (State.init 60000000000)
      [.block Block.stat, .ret 0 {}, .block Block.stat, .ret 0 {}, .block Block.stat,
        .block .handleIOEvent, .callback 1 0 (some (.pointer 7)), .ret 0 {}, .ret 0 {}] = some t ∧
      t.handOvers.length = 3 ∧ t.handOvers.Pairwise HandOver.Follows := by
  have hrun : ((run step (State.init 60000000000)
      [.block Block.stat, .ret 0 {}, .block Block.stat, .ret 0 {}, .block Block.stat,
        .block .handleIOEvent, .callback 1 0 (some (.pointer 7)), .ret 0 {}, .ret 0 {}]).any fun t =>
      t.handOvers.length = 3) = true := by
    decide +kernel
  have hlooks : meets step (fun s e => decide (LooksAgain false s e)) (State.init 60000000000)
      [.block Block.stat, .ret 0 {}, .block Block.stat, .ret 0 {}, .block Block.stat,
        .block .handleIOEvent, .callback 1 0 (some (.pointer 7)), .ret 0 {}, .ret 0 {}] = true := by
    decide +kernel
  obtain ⟨t, ht, hlength⟩ := (Option.any_eq_true _ _).mp hrun
  exact ⟨t, ht, of_decide_eq_true hlength,
    (submissions_in_order (reaches_of_run (fun _ _ => of_decide_eq_true) ht hlooks)).2⟩

/-- Two stats time out while a third, younger one is queued: a fourth one is issued, and the third still
waits. -/
theorem submission_overtakes :
    ∃ t, run step (State.init 60000000000)
      [.block Block.stat, .ret 0 {}, .block Block.stat, .ret 0 {}, .tick 30000000000,
        .block Block.stat, .tick 30000000001, .block .scanForTimeouts, .block Block.stat] = some t ∧
      ∃ x ∈ t.handOvers, x.submitted ∧ ∃ op ∈ t.pendingOperations,
        op.category = x.cb.operationCategory ∧ op.id < x.cb.continuationID ∧
        t.outcomes op.cbData.caller = [] := by
  have hrun : ((run step (State.init 60000000000)
      [.block Block.stat, .ret 0 {}, .block Block.stat, .ret 0 {}, .tick 30000000000,
        .block Block.stat, .tick 30000000001, .block .scanForTimeouts, .block Block.stat]).any fun t =>
      t.handOvers.any fun x => x.cb.entry = .submit .stat ∧ ∃ op ∈ t.pendingOperations,
        op.category = x.cb.operationCategory ∧ op.id < x.cb.continuationID ∧
        t.outcomes op.cbData.caller = []) = true := by
    decide +kernel
  obtain ⟨t, ht, hany⟩ := (Option.any_eq_true _ _).mp hrun
  obtain ⟨x, hx, hfacts⟩ := List.any_eq_true.mp hany
  obtain ⟨hentry, hop⟩ := of_decide_eq_true hfacts
  exact ⟨t, ht, x, hx, ⟨.stat, hentry⟩, hop⟩

end NFSKit
