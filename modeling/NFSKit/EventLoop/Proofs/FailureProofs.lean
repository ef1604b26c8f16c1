import NFSKit.EventLoop.Proofs.BackpressureProofs
import NFSKit.EventLoop.Proofs.HeapBufferProofs
import NFSKit.EventLoop.Proofs.TeardownProofs

/-!
# Failures that libnfs reports

A negative code of libnfs reaches the caller of the operation with its own number, whether it is
returned by the issuing call or given to the callback. The operation for which the loop loses the
number is `getexports`.
-/

namespace NFSKit

open Machine

variable {s t u : State} {k k' : Config} {a : Action} {ev : Event} {cb : CallbackData} {r : Outcome}

/-- The caller of `cb` has been resumed with `r`, or a call in progress is going to resume it with
`r`. -/
def State.Owes (s : State) (cb : CallbackData) (r : Outcome) : Prop :=
  s.outcomes cb.caller = [r] ∨
    s.outcomes cb.caller = [] ∧ (Frame.completionHook cb r ∈ s.stack ∨
      r = .failure POSIXErrorCode.EIO ∧ ∃ n, Frame.rpcDestroy n (.getexports cb) ∈ s.stack)

/-- libnfs reports the status `-e` for the operation `cb`. -/
inductive Reports (s : State) (cb : CallbackData) (e : Int) : Event → Prop where
  /-- As the status given to its callback. -/
  | called (hcb : cb ∈ s.created) (data : Option Value) :
      Reports s cb e (.callback cb.continuationID (-e) data)
  /-- As the return value of the call that hands it over. -/
  | returned {site : Site} {ran : List Nat} {rest : List Frame}
      (hstack : s.stack = .handOver site cb ran :: rest) (view : LibView) :
      Reports s cb e (.ret (-e) view)

/-! ## The error that is made of a status -/

/-- What the caller of `cb` receives for the status `-e`. -/
def CallbackData.failure (cb : CallbackData) (e : Int) : Outcome :=
  .failure (if cb.entry = .getexports then POSIXErrorCode.EIO else .ofCode e)

theorem POSIXErrorCode.ofCode_neg {e : Int} (he : 0 < e) :
    POSIXErrorCode.ofCode (-e) = POSIXErrorCode.EIO := by
  unfold ofCode isKnown
  simp only [decide_eq_true_eq, ite_eq_right_iff]
  omega

/-- The two C callbacks make different errors of the same status: `nfsCallback` negates it. -/
theorem State.settle_failure (s : State) (cb : CallbackData) {e : Int} (he : 0 < e)
    (data : Option Value) : (s.settle cb (-e) data).1 = cb.failure e := by
  have hneg : -e < 0 := by omega
  have hne : -e ≠ 0 := by omega
  unfold settle CallbackData.failure
  by_cases hentry : cb.entry = .getexports
  · simp only [hentry, if_true, if_pos hne, POSIXErrorCode.ofCode_neg he]
  · simp only [hentry, if_false, if_pos hneg, Int.neg_neg]

/-- The number survives except in a `getexports`. -/
theorem CallbackData.failure_iff (cb : CallbackData) (e : Int) :
    cb.failure e = .failure (.ofCode e) ↔
      cb.entry ≠ .getexports ∨ POSIXErrorCode.ofCode e = POSIXErrorCode.EIO := by
  unfold failure
  by_cases hentry : cb.entry = .getexports
  · simp only [hentry, if_true, ne_eq, not_true, false_or, Outcome.failure.injEq]
    exact eq_comm
  · simp [hentry]

/-! ## The code after a report -/

namespace State

theorem finishHook_owes {rest : List Frame} (hstack : s.stack = .completionHook cb r :: rest)
    (hout : s.outcomes cb.caller = []) (hres : s.hasResumed cb.caller = false) :
    s.finishHook.Owes cb r := by
  left
  simp only [finishHook, hstack]
  rw [resume_outcomes, if_pos ⟨rfl, hres⟩]
  simp [hout]

theorem drainLoop_owes {rest : List Frame} (hstack : s.stack = .completionHook cb r :: rest)
    (hout : s.outcomes cb.caller = []) (hres : s.hasResumed cb.caller = false) (n i : Nat) :
    (s.drainLoop n i).Owes cb r := by
  induction n generalizing i with
  | zero => exact finishHook_owes hstack hout hres
  | succ n ih =>
    unfold drainLoop
    split
    · exact finishHook_owes hstack hout hres
    · split
      · refine .inr ⟨hout, .inl (List.mem_cons_of_mem _ ?_)⟩
        show Frame.completionHook cb r ∈ s.stack
        rw [hstack]
        exact List.mem_cons_self ..
      · exact ih (i + 1)

theorem issuePendingOperations_owes {rest : List Frame}
    (hstack : s.stack = .completionHook cb r :: rest) (hout : s.outcomes cb.caller = [])
    (hres : s.hasResumed cb.caller = false) : s.issuePendingOperations.Owes cb r := by
  unfold issuePendingOperations
  split
  · exact finishHook_owes hstack hout hres
  · exact drainLoop_owes hstack hout hres _ _

/-- Whatever the completion hook does, `resume(result)` follows it. -/
theorem completionHook_owes {rest : List Frame} (hstack : s.stack = .completionHook cb r :: rest)
    (hout : s.outcomes cb.caller = []) (hres : s.hasResumed cb.caller = false)
    (c : CallbackData) (ok : Bool) : (s.completionHook c ok).Owes cb r := by
  unfold completionHook handleCallbackCompletion
  split
  · dsimp only
    rw [recordCompletion_eq]
    split <;> exact issuePendingOperations_owes hstack hout hres
  · exact finishHook_owes hstack hout hres

/-- A caller that has been resumed through its object keeps its result during a drain. -/
theorem drainLoop_outcomes {i : Nat} (hres : s.hasResumed i = true) (n j : Nat) :
    (s.drainLoop n j).outcomes i = s.outcomes i := by
  have hfinish : s.finishHook.outcomes i = s.outcomes i := by
    unfold finishHook
    split
    · rw [resume_outcomes, if_neg]
      rintro ⟨-, h⟩
      exact absurd (hres.symm.trans h) (by decide)
    · rfl
  induction n generalizing j with
  | zero => exact hfinish
  | succ n ih =>
    unfold drainLoop
    split
    · exact hfinish
    · split
      · rfl
      · exact ih (j + 1)

/-- The refusal of an operation resumes its caller, or the export context is destroyed first. -/
theorem rejected_owes {site : Site} {rest : List Frame} {e : Int}
    (hsite : cb.entry = .getexports ↔ ∃ n, site = .getexports n)
    (hout : s.outcomes cb.caller = []) (hres : s.hasResumed cb.caller = false) :
    ((s.leaveTo rest).rejected site cb (-e)).Owes cb (cb.failure e) := by
  have hraw (v : State) (h : v.outcomes = s.outcomes) (x : Outcome) :
      (v.resumeContinuation cb.caller x).outcomes cb.caller = [x] := by
    simp [resumeContinuation, h, hout]
  have hresume (v : State) (ho : v.outcomes = s.outcomes) (hr : v.hasResumed = s.hasResumed)
      (x : Outcome) : (v.resume cb x).outcomes cb.caller = [x] := by
    rw [resume_outcomes, hr, if_pos ⟨rfl, hres⟩, ho, hout, List.nil_append]
  have hown (h : ∀ n, site ≠ .getexports n) : cb.failure e = .failure (.ofCode e) := by
    refine (cb.failure_iff e).mpr (.inl fun heq => ?_)
    obtain ⟨n, hn⟩ := hsite.mp heq
    exact h n hn
  unfold rejected
  rw [Int.neg_neg]
  cases site with
  | issueOperation =>
    dsimp only
    rw [refuse_eq, hown (by simp)]
    exact .inl (hresume (s.refuse rest cb.continuationID cb) rfl rfl _)
  | handleOperation =>
    dsimp only
    rw [refuse_runCleanup, hown (by simp)]
    exact .inl (hraw ((s.refuse rest cb.continuationID cb).withBuffers _) rfl _)
  | mount =>
    dsimp only
    rw [refuse_eq, hown (by simp)]
    exact .inl (hraw (s.refuse rest cb.continuationID cb) rfl _)
  | getexports n =>
    have heio : cb.failure e = .failure POSIXErrorCode.EIO := by
      simp [CallbackData.failure, hsite.mpr ⟨n, rfl⟩]
    dsimp only
    rw [refuse_eq, heio]
    generalize hv : s.refuse rest cb.continuationID cb = v
    have hvout : v.outcomes = s.outcomes := by
      rw [← hv]
      rfl
    unfold cleanupRpcExports
    extract_lets w
    split
    · refine .inr ⟨?_, .inr ⟨rfl, _, List.mem_cons_self ..⟩⟩
      show v.outcomes cb.caller = []
      rw [hvout, hout]
    · exact .inl (hraw { w with exports := _ } hvout _)
  | pending i op =>
    dsimp only
    rw [refuse_addInFlight, hown (by simp)]
    generalize hv : (s.refuse rest op.id cb).addInFlight op.category (-1) = v
    have hvout : v.outcomes = s.outcomes := by
      rw [← hv]
      rfl
    have hvres : v.hasResumed = s.hasResumed := by
      rw [← hv]
      rfl
    left
    unfold drainFrom
    rw [drainLoop_outcomes, updateWriteSource_toCore]
    · exact hresume v hvout hvres _
    · rw [updateWriteSource_toCore, resume_hasResumed]
      simp

end State

/-! ## The sites of the operations -/

/-- The frame of an operation being handed over fits the function that made the operation. -/
def SitesMatch (s : State) : Prop :=
  Submitted s ∧ ∀ site cb ran, Frame.handOver site cb ran ∈ s.stack →
    (cb.entry = .getexports ↔ ∃ n, site = .getexports n)

theorem SitesMatch.act (hm : SitesMatch k.state) (h : Act k a k') : SitesMatch k'.state := by
  refine ⟨hm.1.act h, fun site cb ran hf => ?_⟩
  rcases h.handOver_mem hf with ⟨ran', hf'⟩ | rfl | ⟨i, op, rfl, hop, rfl⟩
  · exact hm.2 site cb ran' hf'
  · cases h with
    | start _ _ _ _ _ _ hissued => exact hissued.exports
  · simp [(hm.1 op hop).1]

theorem sitesMatch_of_reachable {timeout : Int} (h : Reachable step (State.init timeout) s) :
    SitesMatch s :=
  (run_invariant_init h (fun k => SitesMatch k.state)
    ⟨submitted_init timeout, fun _ _ _ hf => by cases hf⟩ fun _ _ _ _ _ _ _ hm _ hact => hm.act hact).2

/-! ## What is owed is paid -/

/-- An operation that a frame holds has not been resumed. -/
theorem Sound.unresumed (hk : Sound k) {f : Frame} (hf : f ∈ k.state.stack) (hraw : cb ∈ f.raw)
    (hholds : cb ∈ f.holds) : k.state.outcomes cb.caller = [] := by
  have hmem : cb ∈ k.state.stack.flatMap Frame.holds := List.mem_flatMap.mpr ⟨f, hf, hholds⟩
  have hpos := List.count_pos_iff.mpr hmem
  refine hk.resumption.unresumed cb (.inr (.inl ?_)) (hk.resumption.raw f hf cb hraw)
  unfold Core.tokens
  omega

/-- A result that is being brought to its caller reaches it. -/
theorem Act.hook_result (hk : Sound k) (h : Act k a k')
    (ho : k.state.outcomes cb.caller = [r] ∨
      k.state.outcomes cb.caller = [] ∧ Frame.completionHook cb r ∈ k.state.stack) :
    k'.state.outcomes cb.caller = [r] ∨
      k'.state.outcomes cb.caller = [] ∧ Frame.completionHook cb r ∈ k'.state.stack := by
  rcases ho with ho | ⟨hout, hf⟩
  · exact .inl ((h.results_stable hk (by simp [ho])).trans ho)
  · have hres : k.state.hasResumed cb.caller = false := by
      by_contra hres
      exact hk.resumption.marked cb.caller (by simpa using hres) hout
    cases h.hookStep hk hf with
    | running hf' hout' => exact .inr ⟨hout'.trans hout, hf'⟩
    | returned hout' => exact .inl (by rw [hout' hres, hout, List.nil_append])

/-- While the export context of a refused `getexports` is being destroyed, its caller waits; then it
receives `EIO`. -/
theorem step_exportsFailed (hs : Sound s.config) (h : step s ev = some t) {n : Nat}
    (hf : Frame.rpcDestroy n (.getexports cb) ∈ s.stack) :
    t.Owes cb (.failure POSIXErrorCode.EIO) := by
  have hout : s.outcomes cb.caller = [] :=
    hs.unresumed hf (List.mem_singleton.mpr rfl) (List.mem_singleton.mpr rfl)
  by_cases hret : ∃ rc view rest, ev = .ret rc view ∧ s.stack = .rpcDestroy n (.getexports cb) :: rest
  · obtain ⟨rc, view, rest, rfl, hstack⟩ := hret
    simp only [NFSKit.step, State.returnFromCall, hstack, Option.some.injEq] at h
    left
    rw [← h]
    simp [State.afterCleanup, State.resumeContinuation, State.dropRequests, hout]
  · have hstep := step_invariant_sound h hs
      (fun k => Frame.rpcDestroy n (.getexports cb) ∈ k.state.stack) hf ?_
    · refine .inr ⟨?_, .inr ⟨rfl, n, hstep.2⟩⟩
      exact hstep.1.unresumed hstep.2 (List.mem_singleton.mpr rfl) (List.mem_singleton.mpr rfl)
    · intro k a k' _ hk ha hact
      rcases hact.destroying_mem rfl hk with hkept | hleaves
      · exact hkept
      · cases a with
        | leaveRpcDestroy m next =>
          cases hleaves
          obtain ⟨hstate, rc, view, hev⟩ := ha
          cases hact with
          | leaveRpcDestroy _ hnext => cases hnext
          | @exportsFailed s' _ _ rest _ hstack =>
            obtain rfl : s' = s := hstate
            exact absurd ⟨rc, view, rest, hev, hstack⟩ hret
        | leaveDestroy => cases hleaves
        | _ => exact hleaves.elim

/-- What is owed to a caller stays owed until it is paid. -/
theorem State.Owes.next (hs : Sound s.config) (ho : s.Owes cb r) (h : step s ev = some t) :
    t.Owes cb r := by
  have hook (ho : s.outcomes cb.caller = [r] ∨
      s.outcomes cb.caller = [] ∧ Frame.completionHook cb r ∈ s.stack) : t.Owes cb r := by
    have hstep := step_invariant_sound h hs
      (fun k => k.state.outcomes cb.caller = [r] ∨
        k.state.outcomes cb.caller = [] ∧ Frame.completionHook cb r ∈ k.state.stack) ho
      fun k a k' hk hi _ hact => hact.hook_result hk hi
    exact hstep.2.imp id fun ⟨hout, hf⟩ => ⟨hout, .inl hf⟩
  rcases ho with hpaid | ⟨hout, hf | ⟨rfl, n, hf⟩⟩
  · exact hook (.inl hpaid)
  · exact hook (.inr ⟨hout, hf⟩)
  · exact step_exportsFailed hs h hf

/-- The run lemma: at the latest when the queue block ends, the caller has what it is owed. -/
theorem State.Owes.run {timeout : Int} (hs : Reachable step (State.init timeout) s)
    (ho : s.Owes cb r) (hu : Reachable step s u) :
    u.Owes cb r ∧ (u.stack = [] → u.outcomes cb.caller = [r]) := by
  have howes : Reachable step (State.init timeout) u ∧ u.Owes cb r :=
    hu.invariant (I := fun v => Reachable step (State.init timeout) v ∧ v.Owes cb r) ⟨hs, ho⟩
      fun v e w ⟨hv, ho⟩ hP h => ⟨hv.tail hP h, ho.next (sound_of_reachable hv) h⟩
  refine ⟨howes.2, fun hidle => ?_⟩
  rcases howes.2 with hpaid | ⟨-, hf | ⟨-, n, hf⟩⟩
  · exact hpaid
  · rw [hidle] at hf
    cases hf
  · rw [hidle] at hf
    cases hf

/-! ## Reports -/

/-- The step in which libnfs reports a failure. -/
theorem Reports.owes {timeout e : Int} (hs : Reachable step (State.init timeout) s)
    (h : step s ev = some t) (hreport : Reports s cb e ev) (he : 0 < e)
    (hout : s.outcomes cb.caller = []) : t.Owes cb (cb.failure e) := by
  have hsound := sound_of_reachable hs
  have hw : WellFormed s := hsound.wellFormed
  have hres : s.hasResumed cb.caller = false := by
    cases hres : s.hasResumed cb.caller with
    | false => rfl
    | true => exact absurd hout (hsound.resumption.marked cb.caller hres)
  cases hreport with
  | called hcb data =>
    simp only [NFSKit.step, State.fireCallback] at h
    split at h
    · cases h
    · rename_i f rest hstack
      simp only [Option.bind_eq_some_iff, Option.map_eq_some_iff] at h
      obtain ⟨⟨c, s₁⟩, htake, s₂, hnote, rfl⟩ := h
      have hid := (State.takeRequest_cases htake).1
      obtain ⟨out, fhs, dirs, b, x, htaken, heq⟩ := State.callback_eq htake hnote
      have hpos : 0 < s.requests c := requests_pos_of_taken hstack htaken
      obtain rfl : c = cb := hw.id_inj c (requested_created hw hpos) cb hcb hid
      obtain ⟨v, hv⟩ := s₂.enterHook_stack c (-e) data
      have hx : x = c.failure e := by
        rw [heq] at hv
        injection hv with htop
        injection htop with _ hx
        rw [hx, State.settle_failure v c he data]
      rw [State.runCallback_eq, heq, hx]
      apply State.completionHook_owes
      · rfl
      · exact hout
      · exact hres
  | @returned site ran rest hstack view =>
    have hneg : -e < 0 := by omega
    simp only [NFSKit.step, State.returnFromCall, hstack, if_pos hneg] at h
    split at h
    · cases h
    · obtain rfl := Option.some.inj h
      have hmatch := (sitesMatch_of_reachable hs).2 site cb ran (hstack ▸ List.mem_cons_self ..)
      rw [State.setView_leaveTo]
      apply State.rejected_owes hmatch
      · rw [State.setView_toCore]
        exact hout
      · rw [State.setView_toCore]
        exact hres

/-- A failure that libnfs reports before the caller has been resumed reaches the caller with its own
number, or as `EIO` where the number is unknown, if and only if the operation is not a `getexports` or
the error is `EIO` anyway. -/
theorem failure_keeps_code_iff {timeout e : Int} (hs : Reachable step (State.init timeout) s)
    (h : step s ev = some t) (hreport : Reports s cb e ev) (he : 0 < e)
    (hout : s.outcomes cb.caller = []) :
    ∃ r, (∀ u, Reachable step t u →
        u.Owes cb r ∧ (u.stack = [] → u.outcomes cb.caller = [r])) ∧
      (r = .failure (.ofCode e) ↔
        cb.entry ≠ .getexports ∨ POSIXErrorCode.ofCode e = POSIXErrorCode.EIO) := by
  have howes := hreport.owes hs h he hout
  refine ⟨cb.failure e, fun u hu => ?_, cb.failure_iff e⟩
  exact howes.run (hs.tail trivial h) hu

/-- A stat is answered with `-EACCES`: its caller receives `EACCES` when the queue block ends. -/
theorem failure_keeps_code_stat :
    ∃ (s t u : State) (cb : CallbackData), Reachable step (State.init 60000000000) s ∧
      s.outcomes cb.caller = [] ∧ step s (.callback cb.continuationID (-13) none) = some t ∧
      step t (.ret 0 {}) = some u ∧ u.stack = [] ∧ u.outcomes cb.caller = [.failure ⟨13⟩] := by
  have hrun : ((run step (State.init 60000000000)
      [.block Block.stat, .ret 0 {}, .block .handleIOEvent]).any fun s =>
      (step s (.callback 1 (-13) none)).any fun t => (step t (.ret 0 {})).any fun u =>
        u.stack = [] ∧ ∃ cb ∈ s.created, cb.continuationID = 1 ∧ cb.entry ≠ .getexports ∧
          s.outcomes cb.caller = []) = true := by
    decide +kernel
  obtain ⟨s, hs, hrest⟩ := (Option.any_eq_true _ _).mp hrun
  obtain ⟨t, ht, hrest⟩ := (Option.any_eq_true _ _).mp hrest
  obtain ⟨u, hu, hfacts⟩ := (Option.any_eq_true _ _).mp hrest
  obtain ⟨hidle, cb, hcb, hid, hentry, hout⟩ := of_decide_eq_true hfacts
  have hreach := reachable_of_run hs
  rw [← hid] at ht
  obtain ⟨r, hruns, hr⟩ :=
    failure_keeps_code_iff hreach ht (.called hcb none) (by decide) hout
  obtain rfl := hr.mpr (.inl hentry)
  have hpaid := (hruns u (Reaches.refl.tail trivial hu)).2 hidle
  exact ⟨s, t, u, cb, hreach, hout, ht, hu, hidle, hpaid⟩

/-- libnfs refuses one `getexports` with `-EACCES` and answers another with `-EACCES`: both callers
receive `EIO`. -/
theorem exports_lose_code :
    (∃ s t u cb, Reachable step (State.init 60000000000) s ∧ Reports s cb 13 (.ret (-13) {}) ∧
      s.outcomes cb.caller = [] ∧ step s (.ret (-13) {}) = some t ∧ Reachable step t u ∧
      u.stack = [] ∧ u.outcomes cb.caller = [.failure POSIXErrorCode.EIO]) ∧
    (∃ s t u cb, Reachable step (State.init 60000000000) s ∧
      Reports s cb 13 (.callback cb.continuationID (-13) none) ∧ s.outcomes cb.caller = [] ∧
      step s (.callback cb.continuationID (-13) none) = some t ∧ Reachable step t u ∧
      u.stack = [] ∧ u.outcomes cb.caller = [.failure POSIXErrorCode.EIO]) ∧
    POSIXErrorCode.ofCode 13 ≠ POSIXErrorCode.EIO := by
  have hrefused : ((run step (State.init 60000000000) [.block (.getexports true)]).any fun s =>
      (step s (.ret (-13) {})).any fun t => (run step t [.ret 0 {}]).any fun u =>
        u.stack = [] ∧ ∃ cb ∈ s.created, s.stack = [.handOver (.getexports 0) cb []] ∧
          s.outcomes cb.caller = [] ∧
          u.outcomes cb.caller = [.failure POSIXErrorCode.EIO]) = true := by
    decide +kernel
  have hcalled : ((run step (State.init 60000000000)
      [.block (.getexports true), .ret 0 {}, .block .handleRpcExportsEvent]).any fun s =>
      (step s (.callback 1 (-13) none)).any fun t => (run step t [.ret 0 {}, .ret 0 {}]).any fun u =>
        u.stack = [] ∧ ∃ cb ∈ s.created, cb.continuationID = 1 ∧ s.outcomes cb.caller = [] ∧
          u.outcomes cb.caller = [.failure POSIXErrorCode.EIO]) = true := by
    decide +kernel
  refine ⟨?_, ?_, by decide⟩
  · obtain ⟨s, hs, hrest⟩ := (Option.any_eq_true _ _).mp hrefused
    obtain ⟨t, ht, hrest⟩ := (Option.any_eq_true _ _).mp hrest
    obtain ⟨u, hu, hfacts⟩ := (Option.any_eq_true _ _).mp hrest
    obtain ⟨hidle, cb, -, hstack, hout, hfailed⟩ := of_decide_eq_true hfacts
    exact ⟨s, t, u, cb, reachable_of_run hs, .returned hstack {}, hout, ht, reachable_of_run hu,
      hidle, hfailed⟩
  · obtain ⟨s, hs, hrest⟩ := (Option.any_eq_true _ _).mp hcalled
    obtain ⟨t, ht, hrest⟩ := (Option.any_eq_true _ _).mp hrest
    obtain ⟨u, hu, hfacts⟩ := (Option.any_eq_true _ _).mp hrest
    obtain ⟨hidle, cb, hcb, hid, hout, hfailed⟩ := of_decide_eq_true hfacts
    rw [← hid] at ht
    exact ⟨s, t, u, cb, reachable_of_run hs, .called hcb none, hout, ht, reachable_of_run hu, hidle,
      hfailed⟩

end NFSKit
