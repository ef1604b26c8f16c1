import NFSKit.EventLoop.Conditions
import NFSKit.EventLoop.Proofs.LedgerProofs

/-!
# The in-flight count

The in-flight count of a category is exact as long as no timeout scan expires an operation of the
category, libnfs runs no callback inside the call that issues its own operation, and no `mount` or
`getexports` is accepted: a timed-out operation is uncounted while libnfs still holds it, an operation
called back inside its issuing call is counted after it is gone, and `mount` and `getexports` are
never counted but always uncounted.
-/

namespace NFSKit

open Machine

variable {k k' : Config} {a : Action} {c : OperationCategory} {clamped : Bool}

/-- The count of category `c` is exact, and the clamp has not been used. -/
structure Accounted (c : OperationCategory) (clamped : Bool) (k : Config) : Prop where
  exact : k.state.context.isSome → k.state.alive →
    k.state.inFlightCount c = k.state.booked c.is ∧ k.state.clamped c = clamped
  ctx : ∀ r ∈ k.state.outstanding, r.cb.operationCategory = c → r.ctx = .nfs
  calls : ∀ site cb ran, Frame.handOver site cb ran ∈ k.state.stack → site.isPending = false →
    cb.operationCategory = c → cb.caller ∉ ran

theorem Site.countsLate_of_isPending {site : Site} (h : site.isPending) :
    site.countsLate = false := by
  cases site <;> first | rfl | cases h

theorem Site.ctx_eq_nfs {site : Site} (h : site.isPending ∨ site.countsLate) : site.ctx = .nfs := by
  cases site <;> first | rfl | simp [Site.isPending, Site.countsLate] at h

/-- What is accepted of category `c` is counted. -/
theorem counted_of_accept {u : State} {e : Event} (hP : CountsExactly c u e) {site : Site}
    {cb : CallbackData} {ran : List Nat} (ha : Allowed u e k (.accept site cb ran))
    (h : Act k (.accept site cb ran) k') (hc : cb.operationCategory = c) :
    site.isPending ∨ site.countsLate := by
  obtain ⟨hcore, rc, view, rfl, hrc⟩ := ha
  by_contra hno
  rw [not_or] at hno
  cases h with
  | accept hstack =>
    have hstack' : u.stack = _ := (congrArg Core.stack hcore).symm.trans hstack
    refine hP.2.2 cb ?_ hc
    simp [uncountedAccept, hstack', hrc, hno]

/-- A callback inside its own issuing call is no callback of category `c`. -/
theorem not_own_of_callback {u : State} {e : Event} (hP : CountsExactly c u e) {f : Frame}
    {cb : CallbackData} {status : Int} {data : Option Value}
    (ha : Allowed u e k (.callback f cb status data)) (h : Act k (.callback f cb status data) k')
    (hdirect : f.directCall = some cb) : cb.operationCategory ≠ c := by
  obtain ⟨rfl, rfl⟩ := ha
  refine hP.2.1 cb ?_
  cases h with
  | callback _ hstack | callbackDead _ hstack => simp [ownCallback, hstack, hdirect]

namespace Accounted

/-- One action keeps the account of category `c`. -/
theorem act {u : State} {e : Event} (hP : CountsExactly c u e) (hk : Sound k)
    (hacc : Accounted c clamped k) (ha : Allowed u e k a) (h : Act k a k') :
    Accounted c clamped k' where
  exact := by
    intro hctx halive
    obtain ⟨halive', hctx'⟩ := h.up_before halive hctx
    obtain ⟨hin, hclamp⟩ := hacc.exact hctx' halive'
    cases h.books hk c c.is with
    | same hin' hclamp' hcount => exact ⟨by rw [hin', hcount, hin], hclamp'.trans hclamp⟩
    | executed hop hin' hclamp' hcount =>
      have hcat := (hk.wellFormed.pending_op _ hop).category_eq
      refine ⟨?_, hclamp'.trans hclamp⟩
      rw [hin', hcount, hin, hcat]
      simp [OperationCategory.is]
    | @completed f cb status data hin' hclamp' hcount =>
      by_cases hc : cb.operationCategory = c
      · have hdirect : f.directCall ≠ some cb := fun hd => not_own_of_callback hP ha h hd hc
        have hbooked : k'.state.booked c.is + 1 = k.state.booked c.is := by
          simpa [OperationCategory.is, hc, hdirect] using hcount
        rw [if_pos hc] at hin'
        exact ⟨by omega, (hclamp' (.inr (by omega))).trans hclamp⟩
      · have hbooked : k'.state.booked c.is = k.state.booked c.is := by
          simpa [OperationCategory.is, hc] using hcount
        rw [if_neg hc] at hin'
        exact ⟨by omega, (hclamp' (.inl hc)).trans hclamp⟩
    | @expired cb hin' hclamp' hcount =>
      obtain ⟨rfl, hmem, hexpired, htimeout, -⟩ := ha
      have hc : cb.operationCategory ≠ c :=
        hP.1 cb (by simp [scanExpires, htimeout, hmem, hexpired])
      rw [if_neg hc] at hin'
      exact ⟨by rw [hin', hcount, hin], (hclamp' (.inl hc)).trans hclamp⟩
    | @accepted site cb ran hframe hin' hclamp' hcount =>
      refine ⟨?_, hclamp'.trans hclamp⟩
      rw [hin', hcount, hin]
      by_cases hc : cb.operationCategory = c
      · rcases counted_of_accept hP ha h hc with hpending | hlate
        · simp [hpending, Site.countsLate_of_isPending hpending]
        · have hpending : site.isPending = false := by
            cases hp : site.isPending with
            | false => rfl
            | true =>
              rw [Site.countsLate_of_isPending hp] at hlate
              cases hlate
          have hran := hacc.calls site cb ran hframe hpending hc
          simp [OperationCategory.is, hc, hlate, hpending, hran]
      · simp [OperationCategory.is, hc]
    | @refused i op ran hop hin' hclamp' hcount =>
      refine ⟨?_, hclamp'.trans hclamp⟩
      by_cases hc : op.category = c
      · have hbooked : k'.state.booked c.is + 1 = k.state.booked c.is := by
          simpa [OperationCategory.is, ← hop.category_eq, hc] using hcount
        rw [if_pos hc] at hin'
        omega
      · have hbooked : k'.state.booked c.is = k.state.booked c.is := by
          simpa [OperationCategory.is, ← hop.category_eq, hc] using hcount
        rw [if_neg hc] at hin'
        omega
    | @dropped n next hin' hclamp' hcount =>
      have hnone : k.state.outstanding.countP (fun r => r.ctx = .rpc n ∧ c.is r.cb) = 0 := by
        refine List.countP_eq_zero.mpr fun r hr => ?_
        by_cases hc : r.cb.operationCategory = c
        · simp [hacc.ctx r hr hc]
        · simp [OperationCategory.is, hc]
      rw [hnone] at hcount
      exact ⟨by rw [hin', hin, ← hcount, Nat.add_zero], hclamp'.trans hclamp⟩
    | down hdown =>
      rcases hdown with hnone | hdead
      · rw [hnone] at hctx
        cases hctx
      · rw [hdead] at halive
        cases halive
  ctx := by
    intro r hr hc
    rcases h.effects.outstanding r hr with hr | ⟨site, cb, ran, rfl, rfl⟩
    · exact hacc.ctx r hr hc
    · exact Site.ctx_eq_nfs (counted_of_accept hP ha h hc)
  calls := by
    refine h.directCalls hk hacc.calls ?_
    rintro f cb status data rfl hdirect
    exact not_own_of_callback hP ha h hdirect

end Accounted

/-! ## Runs -/

/-- Between queue blocks nothing is being handed over. -/
theorem booked_of_stack_nil {s : State} (hstack : s.stack = []) (p : CallbackData → Bool) :
    s.booked p = s.outstanding.countP fun r => p r.cb := by
  simp [Core.booked, hstack]

theorem outstandingCount_of_stack_nil {s : State} (hstack : s.stack = []) (c : OperationCategory) :
    s.outstandingCount c = s.outstanding.countP fun r => c.is r.cb := by
  simp [Core.outstandingCount, hstack, OperationCategory.is]

/-- A state between queue blocks whose count is exact. -/
theorem Accounted.start {s : State} (hstack : s.stack = [])
    (hcount : s.inFlightCount c = s.outstandingCount c)
    (hqueries : ∀ r ∈ s.outstanding, r.cb.operationCategory = c → r.ctx = .nfs) :
    Accounted c (s.clamped c) s.config where
  exact := by
    intro _ _
    refine ⟨?_, rfl⟩
    show s.inFlightCount c = s.booked c.is
    rw [hcount, outstandingCount_of_stack_nil hstack, booked_of_stack_nil hstack]
  ctx := hqueries
  calls := by
    intro site cb ran hf
    rw [show s.config.state.stack = [] from hstack] at hf
    cases hf

/-- From any reachable state between queue blocks in which the count of a category is right and no
export query of the category is outstanding: as long as every step counts the category exactly, the
count between queue blocks is the number of its operations that libnfs has accepted and not called
back, and the clamp of `recordCompletion` is never used. -/
theorem inFlightCount_exact {timeout : Int} {s t : State}
    (hs : Reachable step (State.init timeout) s) (hstack : s.stack = [])
    (hcount : s.inFlightCount c = s.outstandingCount c)
    (hqueries : ∀ r ∈ s.outstanding, r.cb.operationCategory = c → r.ctx = .nfs)
    (h : Reaches step (CountsExactly c) s t) (hstack' : t.stack = []) (hctx : t.context.isSome) :
    t.inFlightCount c = t.outstanding.countP (fun r => r.cb.operationCategory = c) ∧
      t.clamped c = s.clamped c := by
  obtain ⟨hk, hacc⟩ := run_invariant_sound h (sound_of_reachable hs) (Accounted c (s.clamped c))
    (Accounted.start hstack hcount hqueries)
    fun u e k a k' hP hk hacc ha hact => hacc.act hP hk ha hact
  obtain ⟨hin, hclamp⟩ := hacc.exact hctx (alive_of_context hk.ending hstack' hctx)
  refine ⟨?_, hclamp⟩
  have hbooked : t.booked c.is = t.outstanding.countP fun r => c.is r.cb :=
    booked_of_stack_nil hstack' c.is
  exact hin.trans (congrArg Nat.cast hbooked)

/-- Two stats and an unlink that waits for one of them: afterwards two operations are in flight. -/
theorem inFlightCount_exact_unlink :
    ∃ t, run step (State.init 60000000000)
      [.block Block.stat, .ret 0 {}, .block Block.stat, .ret 0 {}, .block Block.unlink,
        .block .handleIOEvent, .callback 1 0 (some (.pointer 7)), .ret 0 {}, .ret 0 {}] = some t ∧
      t.outstanding.length = 2 ∧
      t.inFlightCount .metadata =
        t.outstanding.countP (fun r => r.cb.operationCategory = .metadata) ∧
      t.clamped .metadata = false := by
  have hrun : ((run step (State.init 60000000000)
      [.block Block.stat, .ret 0 {}, .block Block.stat, .ret 0 {}, .block Block.unlink,
        .block .handleIOEvent, .callback 1 0 (some (.pointer 7)), .ret 0 {}, .ret 0 {}]).any fun t =>
      t.stack = [] ∧ t.context.isSome ∧ t.outstanding.length = 2) = true := by
    decide +kernel
  have hcounts : meets step (fun s e => decide (CountsExactly .metadata s e))
      (State.init 60000000000)
      [.block Block.stat, .ret 0 {}, .block Block.stat, .ret 0 {}, .block Block.unlink,
        .block .handleIOEvent, .callback 1 0 (some (.pointer 7)), .ret 0 {}, .ret 0 {}] = true := by
    decide +kernel
  obtain ⟨t, ht, hfacts⟩ := (Option.any_eq_true _ _).mp hrun
  obtain ⟨hstack, hctx, hlength⟩ := of_decide_eq_true hfacts
  have hexact := inFlightCount_exact .refl rfl rfl (by simp [State.init])
    (reaches_of_run (fun _ _ => of_decide_eq_true) ht hcounts) hstack hctx
  exact ⟨t, ht, hlength, hexact⟩

/-- The count is wrong after an lseek whose callback runs inside its issuing call, after a stat that
times out, and while a mount is outstanding, whose reply then uses the clamp. -/
theorem inFlightCount_wrong :
    (∃ t, run step (State.init 60000000000) (openEvents 7 ++
      [.block (.lseek 1), .callback 3 0 none, .ret 0 .connected]) = some t ∧
      t.stack = [] ∧ t.context.isSome ∧
      t.inFlightCount .metadata = 1 ∧ t.outstandingCount .metadata = 0) ∧
    (∃ t, run step (State.init 60000000000) (mountEvents ++
      [.block Block.stat, .ret 0 .connected, .tick 60000000001, .block .scanForTimeouts]) = some t ∧
      t.stack = [] ∧ t.context.isSome ∧
      t.inFlightCount .metadata = 0 ∧ t.outstandingCount .metadata = 1) ∧
    (∃ t, run step (State.init 60000000000) [.block .mount, .ret 0 .connected] = some t ∧
      t.stack = [] ∧ t.context.isSome ∧
      t.inFlightCount .metadata = 0 ∧ t.outstandingCount .metadata = 1) ∧
    ∃ t, run step (State.init 60000000000) mountEvents = some t ∧
      t.stack = [] ∧ t.context.isSome ∧ t.clamped .metadata = true := by
  have seen {es : List Event} {p : State → Prop} [DecidablePred p]
      (h : (run step (State.init 60000000000) es).any (fun t => p t) = true) :
      ∃ t, run step (State.init 60000000000) es = some t ∧ p t := by
    obtain ⟨t, ht, hp⟩ := (Option.any_eq_true _ _).mp h
    exact ⟨t, ht, of_decide_eq_true hp⟩
  exact ⟨seen (by decide +kernel), seen (by decide +kernel), seen (by decide +kernel),
    seen (by decide +kernel)⟩

end NFSKit
