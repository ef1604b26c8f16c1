import NFSKit.EventLoop.Service
import NFSKit.EventLoop.Proofs.CallLogProofs
import NFSKit.EventLoop.Proofs.DeadlineProofs
import NFSKit.EventLoop.Proofs.StrandingProofs
import NFSKit.EventLoop.Proofs.WaitingProofs

/-!
# Every call is answered

A caller waits for an operation that is queued or that libnfs holds. What libnfs holds it settles. While an
operation is queued for ever, libnfs holds another one of its category between any two queue blocks, and no
new one takes its place when it is settled: so the requests that are older than the queued one run out.
-/

namespace NFSKit

open Machine Counting

variable {s t : State} {e : Event} {cb : CallbackData}

/-! ## What a run does to an operation -/

/-- In the course of a run an operation is requested less and less, and it is not queued again. -/
theorem operation_later (hs : Sound s.config) (h : Reachable step s t) (hcb : cb ∈ s.created) :
    cb ∈ t.created ∧ t.requests cb ≤ s.requests cb ∧
      ((∀ op ∈ s.pendingOperations, op.cbData ≠ cb) → ∀ op ∈ t.pendingOperations, op.cbData ≠ cb) := by
  refine (run_invariant_sound h hs (fun k => cb ∈ k.state.created ∧ k.state.requests cb ≤ s.requests cb ∧
    ((∀ op ∈ s.pendingOperations, op.cbData ≠ cb) → ∀ op ∈ k.state.pendingOperations, op.cbData ≠ cb))
    ⟨hcb, le_refl _, fun h => h⟩ fun u e k a k' _ hk hI _ hact => ?_).2
  obtain ⟨hcreated, hle, hqueued⟩ := hI
  have hnew : a.made ≠ some cb := by
    intro hmade
    have hfresh := (hact.made_fresh hmade).2
    have hlt := hk.wellFormed.caller_lt cb hcreated
    omega
  refine ⟨?_, (hact.requests_le hnew).trans hle, fun hnone op hop => ?_⟩
  · rw [hact.effects.created]
    exact List.mem_append_right _ hcreated
  · rcases hact.effects.pending op hop with hold | ⟨type, c, rfl, rfl⟩
    · exact hqueued hnone op hold
    · rintro rfl
      exact hnew rfl

theorem nextCaller_le (hs : Sound s.config) (h : Reachable step s t) : s.nextCaller ≤ t.nextCaller :=
  (run_invariant_sound h hs (fun k => s.nextCaller ≤ k.state.nextCaller) (le_refl _)
    fun _ _ _ _ _ _ _ hle _ hact => hle.trans hact.effects.nextCaller).2

/-- An operation that is made is the youngest one; and it is submitted, or passes the queue. -/
theorem step_made (hs : Sound s.config) (h : step s e = some t) (hcb : cb ∈ t.created) :
    cb ∈ s.created ∨ (∀ y ∈ s.created, y.continuationID < cb.continuationID) ∧
      ((∃ type, cb.entry = .submit type) ∨ directs s e = some cb.operationCategory) := by
  cases hsubmits : e.submits with
  | some x =>
    obtain ⟨-, rfl⟩ := step_submits hsubmits h
    rcases submit_made hcb with hold | ⟨-, hentry, hid⟩
    · exact .inl hold
    · refine .inr ⟨fun y hy => ?_, .inl ⟨_, hentry⟩⟩
      rw [hid]
      exact hs.wellFormed.id_lt y hy
  | none =>
    have hpath := step_invariant_sound h hs (fun k => (∀ y ∈ s.created, y ∈ k.state.created) ∧
      ∀ x ∈ k.state.created, x ∈ s.created ∨ (∀ y ∈ s.created, y.continuationID < x.continuationID) ∧
        ((∃ type, x.entry = .submit type) ∨ directs s e = some x.operationCategory))
      ⟨fun _ hy => hy, fun _ hx => .inl hx⟩ fun k a k' hk hI ha hact => ?_
    · exact hpath.2.2 cb hcb
    · obtain ⟨hkept, hmade⟩ := hI
      rw [hact.effects.created]
      refine ⟨fun y hy => List.mem_append_right _ (hkept y hy), fun x hx => ?_⟩
      rcases List.mem_append.mp hx with hnew | hold
      · obtain ⟨hid, hdirect⟩ := hact.made_direct ha hsubmits (Option.mem_toList.mp hnew)
        refine .inr ⟨fun y hy => ?_, .inr hdirect⟩
        rw [hid]
        exact hk.wellFormed.id_lt y (hkept y hy)
      · exact hmade x hold

/-- What leaves no capacity for any queued operation leaves none for those that wait. -/
theorem LooksAgain.waiting (h : LooksAgain true s e) : LooksAgain false s e := by
  obtain ⟨hscan, hrefused⟩ := h
  exact ⟨fun hexpires op hop _ => hscan hexpires op hop rfl, fun x hx op hop _ => hrefused x hx op hop rfl⟩

/-! ## Eventually -/

variable {timeout : Int} {ρ : Endless step (State.init timeout)} {k m : Nat}

/-- While an operation is queued and none of its category passes the queue, no younger one of the category
is made and handed over. -/
theorem older_created (hcb : cb ∈ (ρ.state m).created)
    (hpauses : ∀ l, m ≤ l → directs (ρ.state l) (ρ.event l) ≠ some cb.operationCategory) {l : Nat}
    (hl : m ≤ l) {x : CallbackData} (hx : x ∈ (ρ.state l).created)
    (hcategory : x.operationCategory = cb.operationCategory)
    (holder : (∃ type, x.entry = .submit type) → x.continuationID < cb.continuationID) :
    x ∈ (ρ.state m).created := by
  induction l, hl using Nat.le_induction with
  | base => exact hx
  | succ l hl ih =>
    have hsound := sound_of_reachable (ρ.reachable l)
    rcases step_made hsound (ρ.next l) hx with hold | ⟨hyoungest, htype | hdirect⟩
    · exact ih hold
    · have hlater := operation_later (sound_of_reachable (ρ.reachable m)) (ρ.later hl) hcb
      have hlt := hyoungest cb hlater.1
      have := holder htype
      omega
    · rw [hcategory] at hdirect
      exact absurd hdirect (hpauses l hl)

namespace Serviced

theorem idle_waiting (hs : Serviced ρ) {l i : Nat} (hstack : (ρ.state l).stack = [])
    (hi : i < (ρ.state l).nextCaller) (hwaits : (ρ.state l).outcomes i = []) :
    ∃ cb ∈ (ρ.state l).activeContinuations, cb.caller = i ∧ 0 < (ρ.state l).requests cb := by
  have hreaches := ρ.reaches hs.answersAll l
  obtain ⟨cb, hcb, hcaller⟩ := (waits_iff_active hreaches hstack hi).mp hwaits
  exact ⟨cb, hcb, hcaller, (requested_of_reaches hreaches fun _ _ h => h).2 cb hcb⟩

/-- What is not queued is settled. -/
theorem settled (hs : Serviced ρ) (hcb : cb ∈ (ρ.state k).created)
    (hqueued : ∀ op ∈ (ρ.state k).pendingOperations, op.cbData ≠ cb) :
    ∃ l, k ≤ l ∧ (ρ.state l).requests cb = 0 := by
  have hsound := sound_of_reachable (ρ.reachable k)
  by_cases hpos : 0 < (ρ.state k).requests cb
  · obtain ⟨l, hkl, hsettled⟩ := hs.settles k cb (holds_of_requests_pos hpos hqueued)
    have hunqueued := (operation_later hsound (ρ.later hkl) hcb).2.2 hqueued
    refine ⟨l, hkl, Nat.eq_zero_of_not_pos fun hpos => ?_⟩
    exact hsettled (holds_of_requests_pos hpos hunqueued)
  · exact ⟨k, le_refl _, Nat.eq_zero_of_not_pos hpos⟩

/-- The caller of what is not queued is resumed. -/
theorem answered (hs : Serviced ρ) (hcb : cb ∈ (ρ.state k).created)
    (hqueued : ∀ op ∈ (ρ.state k).pendingOperations, op.cbData ≠ cb) :
    ∃ l, k ≤ l ∧ (ρ.state l).outcomes cb.caller ≠ [] := by
  obtain ⟨l, hkl, hzero⟩ := hs.settled hcb hqueued
  obtain ⟨n, hln, hstack⟩ := hs.returns l
  refine ⟨n, hkl.trans hln, fun hwaits => ?_⟩
  have hsound := sound_of_reachable (ρ.reachable l)
  have hcreated := (operation_later (sound_of_reachable (ρ.reachable k)) (ρ.later hkl) hcb).1
  obtain ⟨hcreated, hle, -⟩ := operation_later hsound (ρ.later hln) hcreated
  have hw := (sound_of_reachable (ρ.reachable n)).wellFormed
  obtain ⟨x, hx, hcaller, hpos⟩ := hs.idle_waiting hstack (hw.caller_lt cb hcreated) hwaits
  obtain rfl : x = cb := hw.caller_inj x (hw.active_created x hx) cb hcreated hcaller
  omega

/-- While an operation is queued and none of its category passes the queue, libnfs settles one that is
older. -/
theorem descends (hs : Serviced ρ) (hcb : cb ∈ (ρ.state m).created)
    (hqueued : ∀ l, m ≤ l → ∃ op ∈ (ρ.state l).pendingOperations, op.cbData = cb)
    (hwaits : ∀ l, m ≤ l → (ρ.state l).outcomes cb.caller = [])
    (hpauses : ∀ l, m ≤ l → directs (ρ.state l) (ρ.event l) ≠ some cb.operationCategory) (hk : m ≤ k) :
    ∃ l, k ≤ l ∧ (ρ.state m).created.countP (fun x => 0 < (ρ.state l).requests x) <
      (ρ.state m).created.countP (fun x => 0 < (ρ.state k).requests x) := by
  obtain ⟨n, hkn, hstack⟩ := hs.returns k
  have hmn := hk.trans hkn
  have hreach := ρ.reaches hs.keepsDraining n
  have hsound := sound_of_reachable (ρ.reachable n)
  have hw := hsound.wellFormed
  obtain ⟨op, hop, rfl⟩ := hqueued n hmn
  have hconsistent := hw.pending_op op hop
  have hctx : (ρ.state n).context.isSome := by
    by_contra hnone
    have hempty : (ρ.state n).pendingOperations = [] := (hw.retired (Option.not_isSome_iff_eq_none.mp hnone)).2
    rw [hempty] at hop
    cases hop
  -- libnfs holds one of the category, which has not overtaken
  obtain ⟨r, hr, hcategory⟩ := queued_outstanding hreach hstack hctx hop
  have haccountable := (Accountable.of_reachable (ρ.reachable n)).1.2
  obtain ⟨x, hx, hxr⟩ := haccountable.outstanding r hr
  have hcreated : r.cb ∈ (ρ.state n).created := hxr ▸ haccountable.handed x hx
  have hunqueued : ∀ o ∈ (ρ.state n).pendingOperations, o.cbData ≠ r.cb := by
    intro o ho heq
    exact haccountable.queued o ho x hx (hxr.trans heq.symm)
  have holder : (∃ type, r.cb.entry = .submit type) → r.cb.continuationID < op.cbData.continuationID := by
    intro hsubmit
    by_contra hle
    rcases Nat.lt_or_eq_of_le (Nat.le_of_not_lt hle) with hlt | heq
    · have horder := (inOrder_of_reaches (hreach.mono fun _ _ h => h.1.waiting)).queue
      have hsubmitted : x.submitted := by
        unfold HandOver.submitted
        rw [hxr]
        exact hsubmit
      refine horder x hx hsubmitted op hop ?_ ?_ (hwaits n hmn)
      · rw [hxr, hcategory]
      · rw [hxr, hconsistent.id_eq]
        exact hlt
    · have hsame := hw.id_inj _ (hw.queued_created hop) _ hcreated heq
      exact hunqueued op hop hsame
  have hold : r.cb ∈ (ρ.state m).created :=
    older_created hcb hpauses hmn hcreated (hcategory.trans hconsistent.category_eq) holder
  obtain ⟨l, hnl, hzero⟩ := hs.settled hcreated hunqueued
  have hkl := hkn.trans hnl
  refine ⟨l, hkl, countP_lt_countP (fun y hy hpos => ?_) hold ?_ ?_⟩
  · have hlater := (operation_later (sound_of_reachable (ρ.reachable m)) (ρ.later hk) hy).1
    have hle := (operation_later (sound_of_reachable (ρ.reachable k)) (ρ.later hkl) hlater).2.1
    simp only [decide_eq_true_eq] at hpos ⊢
    omega
  · have hcreated_k := (operation_later (sound_of_reachable (ρ.reachable m)) (ρ.later hk) hold).1
    have hle := (operation_later (sound_of_reachable (ρ.reachable k)) (ρ.later hkn) hcreated_k).2.1
    have hpos : 0 < (ρ.state n).requests r.cb := requests_pos_of_holds (.inl ⟨r, hr, rfl⟩)
    simp only [decide_eq_true_eq]
    omega
  · simp [hzero]

end Serviced

/-! ## A loop at rest -/

theorem step_tick_zero (s : State) : step s (.tick 0) = some s := rfl

theorem keepsDraining_tick (s : State) (n : Nat) : KeepsDraining s (.tick n) := by
  refine ⟨⟨fun hexpires => ?_, fun x hx => ?_⟩, fun cb hcb => ?_⟩
  · simp [scanExpires] at hexpires
  · cases hx
  · cases hcb

/-- A run that ends with nothing queued and nothing held, and stays there, is served. -/
theorem serviced_rest {timeout : Int} {es : List Event} {t : State}
    (hr : run step (State.init timeout) es = some t) (hstack : t.stack = []) (hout : t.outstanding = [])
    (hpending : t.pendingOperations = [])
    (hanswers : meets step (fun s e => decide (AnswersAll s e)) (State.init timeout) es = true)
    (hkeeps : meets step (fun s e => decide (KeepsDraining s e)) (State.init timeout) es = true) :
    Serviced (Endless.rest hr (step_tick_zero t)) := by
  have hend (k : Nat) : (Endless.rest hr (step_tick_zero t)).state (max k es.length) = t :=
    Endless.rest_state hr (step_tick_zero t) (le_max_right k es.length)
  refine ⟨fun k => ⟨_, le_max_left k es.length, ?_⟩, fun k cb _ => ⟨_, le_max_left k es.length, ?_⟩,
    fun k => ?_, fun k => ?_, fun c k hqueued => ?_⟩
  · rw [hend, hstack]
  · rw [hend]
    rintro (⟨r, hr, -⟩ | ⟨f, hf, -⟩)
    · rw [hout] at hr
      cases hr
    · rw [hstack] at hf
      cases hf
  · exact Endless.rest_meets (fun _ _ => of_decide_eq_true) hr _ hanswers (fun hret => by cases hret) k
  · exact Endless.rest_meets (fun _ _ => of_decide_eq_true) hr _ hkeeps (keepsDraining_tick t 0) k
  · obtain ⟨op, hop, -⟩ := hqueued _ (le_max_left k es.length)
    rw [hend, hpending] at hop
    cases hop

/-- In a run that is served, every caller is resumed. -/
theorem every_call_answered (ρ : Endless step (State.init timeout)) (hs : Serviced ρ) {k i : Nat}
    (hi : i < (ρ.state k).nextCaller) : ∃ l, k ≤ l ∧ (ρ.state l).outcomes i ≠ [] := by
  by_contra hnever
  have hwaits (l : Nat) (hl : k ≤ l) : (ρ.state l).outcomes i = [] := by
    by_contra hresumed
    exact hnever ⟨l, hl, hresumed⟩
  obtain ⟨m, hkm, hstack⟩ := hs.returns k
  have hi' : i < (ρ.state m).nextCaller :=
    hi.trans_le (nextCaller_le (sound_of_reachable (ρ.reachable k)) (ρ.later hkm))
  obtain ⟨cb, hcb, rfl, -⟩ := hs.idle_waiting hstack hi' (hwaits m hkm)
  have hcreated := (sound_of_reachable (ρ.reachable m)).wellFormed.active_created cb hcb
  -- nothing but the queue keeps the caller waiting
  have hqueued (l : Nat) (hl : m ≤ l) : ∃ op ∈ (ρ.state l).pendingOperations, op.cbData = cb := by
    by_contra hnone
    have hcb := (operation_later (sound_of_reachable (ρ.reachable m)) (ρ.later hl) hcreated).1
    obtain ⟨n, hln, hresumed⟩ := hs.answered hcb fun op hop heq => hnone ⟨op, hop, heq⟩
    exact hresumed (hwaits n (hkm.trans (hl.trans hln)))
  obtain ⟨n, hn⟩ := hs.pauses cb.operationCategory m fun l hl => by
    obtain ⟨op, hop, rfl⟩ := hqueued l hl
    exact ⟨op, hop, ((sound_of_reachable (ρ.reachable l)).wellFormed.pending_op op hop).category_eq⟩
  have hmax : m ≤ max m n := le_max_left m n
  have hcreated' := (operation_later (sound_of_reachable (ρ.reachable m)) (ρ.later hmax) hcreated).1
  obtain ⟨l, -, hfalse⟩ := eventually_of_descent (Q := fun _ => False)
    (fun l => (ρ.state (max m n)).created.countP fun x => 0 < (ρ.state l).requests x)
    fun l hl => .inr <| by
      obtain ⟨j, hlj, hlt⟩ := hs.descends hcreated' (fun j hj => hqueued j (hmax.trans hj))
        (fun j hj => hwaits j (hkm.trans (hmax.trans hj)))
        (fun j hj => hn j ((le_max_right m n).trans hj)) hl
      exact ⟨j, hlj, .inr hlt⟩
  exact hfalse

/-- Three stats, the last of which is queued until libnfs has called back the first one. -/
theorem every_call_answered_stat :
    ∃ ρ : Endless step (State.init 60000000000), (ρ.state 5).nextCaller = 3 ∧
      (ρ.state 5).pendingOperations ≠ [] ∧ ∀ i < 3, ∃ l, 5 ≤ l ∧ (ρ.state l).outcomes i ≠ [] := by
  obtain ⟨es, hrun, hfifth, hanswers, hkeeps⟩ : ∃ es : List Event,
      ((run step (State.init 60000000000) es).any fun t =>
        t.stack = [] ∧ t.outstanding = [] ∧ t.pendingOperations = []) = true ∧
      ((run step (State.init 60000000000) (es.take 5)).any fun t =>
        t.nextCaller = 3 ∧ t.pendingOperations ≠ []) = true ∧
      meets step (fun s e => decide (AnswersAll s e)) (State.init 60000000000) es = true ∧
      meets step (fun s e => decide (KeepsDraining s e)) (State.init 60000000000) es = true :=
    ⟨[.block Block.stat, .ret 0 {}, .block Block.stat, .ret 0 {}, .block Block.stat,
      .block .handleIOEvent, .callback 1 0 (some (.pointer 7)), .ret 0 {},
      .callback 2 (-5) none, .callback 3 (-5) none, .ret 0 {}], by decide +kernel, by decide +kernel,
      by decide +kernel, by decide +kernel⟩
  obtain ⟨t, ht, hend⟩ := (Option.any_eq_true _ _).mp hrun
  obtain ⟨hstack, hout, hpending⟩ := of_decide_eq_true hend
  obtain ⟨u, hu, hfacts⟩ := (Option.any_eq_true _ _).mp hfifth
  obtain ⟨hcalls, hqueued⟩ := of_decide_eq_true hfacts
  have hserviced := serviced_rest ht hstack hout hpending hanswers hkeeps
  have hstate : (Endless.rest ht (step_tick_zero t)).state 5 = u := congrArg (Option.getD · t) hu
  refine ⟨Endless.rest ht (step_tick_zero t), by rw [hstate, hcalls], by rwa [hstate], fun i hi => ?_⟩
  exact every_call_answered _ hserviced (by rwa [hstate, hcalls])

end NFSKit
