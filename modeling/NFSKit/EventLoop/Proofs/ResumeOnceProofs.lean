import NFSKit.EventLoop.Proofs.ResumptionProofs
import NFSKit.EventLoop.Proofs.EndingProofs

/-!
# Every caller is resumed exactly once

Every action keeps `Waiting`: who is not resumed stays in the registry or in the frame of a call that
is going to resume it. In a loop that is down, with no block running, nobody is waited for any more, so
everybody has been resumed.
-/

namespace NFSKit

open Machine

variable {s s' : State}

/-! ## Nobody is forgotten -/

namespace Waiting

/-- Who is covered stays covered or has been resumed. -/
theorem mono (hwt : Waiting s)
    (hnext : ∀ i < s'.nextCaller, s.nextCaller ≤ i →
      s'.outcomes i ≠ [] ∨ ∃ cb, cb.caller = i ∧ s'.Covers cb)
    (hout : ∀ i, s.outcomes i ≠ [] → s'.outcomes i ≠ [])
    (hcovers : ∀ cb, s.Covers cb → s'.Covers cb ∨ s'.outcomes cb.caller ≠ []) : Waiting s' := by
  intro i hi
  by_cases hlt : i < s.nextCaller
  · rcases hwt i hlt with h | ⟨cb, rfl, h⟩
    · exact .inl (hout i h)
    · rcases hcovers cb h with h | h
      · exact .inr ⟨cb, rfl, h⟩
      · exact .inl h
  · exact hnext i hi (Nat.le_of_not_lt hlt)

/-- Nothing that matters here changes. -/
theorem same (hwt : Waiting s) (hout : s'.outcomes = s.outcomes) (hnext : s'.nextCaller = s.nextCaller)
    (hactive : s'.activeContinuations = s.activeContinuations) (hstack : s'.stack = s.stack) :
    Waiting s' := by
  refine hwt.mono (fun i hi hle => by omega) (fun i h => hout ▸ h) fun cb h => .inl ?_
  unfold State.Covers at h ⊢
  rwa [hactive, hstack]

/-- A frame is pushed. -/
theorem push {f : Frame} (hwt : Waiting s) : Waiting { s with stack := f :: s.stack } := by
  refine hwt.mono (fun i hi hle => absurd hi (Nat.not_lt.mpr hle)) (fun i h => h) fun cb h => .inl ?_
  exact h.imp_right fun ⟨g, hg, h⟩ => ⟨g, List.mem_cons_of_mem _ hg, h⟩

/-- A frame that waits for nobody is left. -/
theorem leave {f : Frame} {rest : List Frame} (hwt : Waiting s) (hstack : s.stack = f :: rest)
    (hf : f.awaits = []) : Waiting (s.leaveTo rest) := by
  refine hwt.mono (fun i hi hle => absurd hi (Nat.not_lt.mpr hle)) (fun i h => h) fun cb h => .inl ?_
  refine h.imp_right fun ⟨g, hg, h⟩ => ⟨g, ?_, h⟩
  rw [hstack] at hg
  rcases List.mem_cons.mp hg with rfl | hg
  · rw [hf] at h
    cases h
  · exact hg

end Waiting

/-- After `CallbackData.resume` the caller has been resumed. -/
theorem Resumption.resume_ne_nil (hr : Resumption s) (cb : CallbackData) (r : Outcome) :
    (s.resume cb r).outcomes cb.caller ≠ [] := by
  rw [State.resume_outcomes]
  split
  · simp
  · rename_i h
    exact hr.marked _ (by simpa using h)

/-- The end of a teardown resumes its snapshot. -/
theorem Resumption.endTeardown_ne_nil (hr : Resumption s) (kind : Teardown) (l : List CallbackData)
    (i : Nat) (h : s.outcomes i ≠ [] ∨ i ∈ l.map CallbackData.caller) :
    (s.endTeardown kind l).outcomes i ≠ [] := by
  obtain ⟨bulk, metadata, counts, heq⟩ := State.endTeardown_eq s kind l
  rw [heq, State.foldl_resume_eq]
  show (if s.hasResumed i = false ∧ i ∈ l.map CallbackData.caller then s.outcomes i ++ [_]
    else s.outcomes i) ≠ []
  split
  · simp
  · rename_i hn
    rcases h with h | h
    · exact h
    · exact hr.marked i (by simpa [h] using hn)

namespace Waiting

/-- An operation that leaves the registry is covered by a frame or has been resumed. -/
theorem covers_of_mem {cb c : CallbackData} (hw : WellFormed s) (hcb : cb ∈ s.created)
    (hc : c ∈ s.activeContinuations) :
    c ∈ s.activeContinuations.filter (·.continuationID ≠ cb.continuationID) ∨ c = cb := by
  by_cases h : c.continuationID = cb.continuationID
  · exact .inr (hw.id_inj c (hw.active_created c hc) cb hcb h)
  · exact .inl (List.mem_filter.mpr ⟨hc, by simpa using h⟩)

/-- A refused operation leaves the registry, and its caller is resumed. -/
theorem refuse {site : Site} {cb : CallbackData} {ran : List Nat} {rest : List Frame}
    (hwt : Waiting s) (hw : WellFormed s) (hstack : s.stack = .handOver site cb ran :: rest)
    (hcb : cb ∈ s.created) (hnext : s'.nextCaller = s.nextCaller)
    (hactive : s'.activeContinuations =
      s.activeContinuations.filter (·.continuationID ≠ cb.continuationID))
    (hrest : ∀ f ∈ rest, f ∈ s'.stack) (hout : ∀ i, s.outcomes i ≠ [] → s'.outcomes i ≠ [])
    (hdone : s'.Covers cb ∨ s'.outcomes cb.caller ≠ []) : Waiting s' := by
  refine hwt.mono (fun i hi hle => by omega) hout ?_
  rintro c (hc | ⟨f, hf, hc⟩)
  · rcases covers_of_mem hw hcb hc with hc | rfl
    · exact .inl (.inl (hactive ▸ hc))
    · exact hdone
  · rw [hstack] at hf
    rcases List.mem_cons.mp hf with rfl | hf
    · cases hc
    · exact .inl (.inr ⟨f, hrest f hf, hc⟩)

/-- A callback hands its caller over to its completion hook. -/
theorem enterHook {s₁ s₂ : State} {f : Frame} {rest : List Frame} {cb : CallbackData} {status : Int}
    {data : Option Value} (hwt : Waiting s) (hw : WellFormed s) (hstack : s.stack = f :: rest)
    (htake : s.takeRequest f rest cb.continuationID = some (cb, s₁))
    (hnote : s₁.noteDelivery cb status data = some s₂) :
    Waiting (s₂.enterHook cb status data) ∧
      (∃ g ∈ (s₂.enterHook cb status data).stack, cb ∈ g.awaits) ∧
      cb ∈ (s₂.enterHook cb status data).created := by
  obtain ⟨out, fhs, dirs, b, r, htaken, heq⟩ := State.callback_eq htake hnote
  rw [heq]
  refine ⟨?_, ⟨.completionHook cb r, List.mem_cons_self .., List.mem_singleton_self cb⟩, ?_⟩
  · refine hwt.mono (fun i hi hle => absurd hi (Nat.not_lt.mpr hle)) (fun i h => h) fun c h => .inl ?_
    refine h.imp_right fun ⟨g, hg, hc⟩ => ?_
    rw [hstack] at hg
    rcases List.mem_cons.mp hg with rfl | hg
    · refine ⟨g.noteCallback cb.caller, by simp, ?_⟩
      cases g <;> exact hc
    · exact ⟨g, by simp [hg], hc⟩
  · refine hw.tokens_created cb (Nat.lt_of_lt_of_le ?_ (tokens_callback_le hstack htaken r cb))
    simp [Frame.holds]

/-- One action forgets nobody. -/
theorem act {k k' : Config} {a : Action} (hw : WellFormed k.state) (hr : Resumption k.state)
    (hwt : Waiting k.state) (h : Act k a k') : Waiting k'.state := by
  cases h with
  | silent hcore => exact hwt.same (by rw [hcore]) (by rw [hcore]) (by rw [hcore]) (by rw [hcore])
  | releaseBuffer | deinit | startTeardown | closing | dropHandle | registerHandle | readdirAll
  | dropDir | skip | drained | alreadyDown => exact hwt.same rfl rfl rfl rfl
  | @immediate s r =>
    refine hwt.mono ?_ (fun i h => State.resumeContinuation_mono _ _ _ h) fun cb h => .inl h
    intro i (hi : i < s.nextCaller + 1) hle
    obtain rfl : i = s.nextCaller := by
      have : s.nextCaller ≤ i := hle
      omega
    exact .inl (State.resumeContinuation_ne_nil _ _ _)
  | @start s site cb hstack hctx hsite hid hcaller =>
    refine hwt.mono ?_ (fun i h => h) ?_
    · intro i (hi : i < s.nextCaller + 1) (hle : s.nextCaller ≤ i)
      exact .inr ⟨cb, by omega, .inl (List.mem_append_right _ (List.mem_singleton_self cb))⟩
    · rintro c (hc | ⟨f, hf, hc⟩)
      · exact .inl (.inl (List.mem_append_left _ hc))
      · exact .inl (.inr ⟨f, List.mem_cons_of_mem _ hf, hc⟩)
  | @overflow s cb r hctx hid hcaller =>
    refine hwt.mono ?_ (fun i h => State.resumeContinuation_mono _ _ _ h) ?_
    · intro i (hi : i < s.nextCaller + 1) (hle : s.nextCaller ≤ i)
      obtain rfl : i = cb.caller := by omega
      exact .inl (State.resumeContinuation_ne_nil _ _ _)
    · rintro c (hc | hc)
      · refine .inl (.inl (List.mem_filter.mpr ⟨List.mem_append_left _ hc, ?_⟩))
        have hlt : c.continuationID < s.nextContinuationID := hw.id_lt c (hw.active_created c hc)
        have hne : c.continuationID ≠ cb.continuationID := by omega
        simpa using hne
      · exact .inl (.inr hc)
  | @enqueue s type cb hctx hid hcaller =>
    refine hwt.mono ?_ (fun i h => h) ?_
    · intro i (hi : i < s.nextCaller + 1) (hle : s.nextCaller ≤ i)
      exact .inr ⟨cb, by omega, .inl (List.mem_append_right _ (List.mem_singleton_self cb))⟩
    · rintro c (hc | hc)
      · exact .inl (.inl (List.mem_append_left _ hc))
      · exact .inl (.inr hc)
  | enterClose => exact (hwt.push (f := .close _)).same rfl rfl rfl rfl
  | enter => exact hwt.push
  | @leave s f rest m hstack hf =>
    refine hwt.leave hstack ?_
    cases f <;> first | rfl | cases hf
  | @expire s cb hstack hmem =>
    have hrec := (hr.removeActive cb.continuationID).recordCompletion cb.operationCategory false
    have hcb := hw.active_created cb hmem
    unfold State.expire
    rw [State.recordCompletion_eq] at hrec ⊢
    refine hwt.mono ?_ (fun i h => State.resume_outcomes_mono _ _ _ h) ?_
    · rw [State.resume_nextCaller]
      exact fun i hi hle => absurd hi (Nat.not_lt.mpr hle)
    · rintro c (hc | ⟨f, hf, -⟩)
      · rcases covers_of_mem hw hcb hc with hc | rfl
        · refine .inl (.inl ?_)
          rw [State.resume_activeContinuations]
          exact hc
        · exact .inr (hrec.resume_ne_nil c _)
      · rw [show _ = [] from hstack] at hf
        cases hf
  | callback halive hstack htake hnote =>
    obtain ⟨h, hcovers, hcreated⟩ := hwt.enterHook hw hstack htake hnote
    rw [State.recordCompletion_eq]
    refine h.mono (fun i hi hle => absurd hi (Nat.not_lt.mpr hle)) (fun i h => h) ?_
    rintro c (hc | hc)
    · rcases covers_of_mem (hw.enterHook hstack htake hnote) hcreated hc with hc | rfl
      · exact .inl (.inl hc)
      · exact .inl (.inr hcovers)
    · exact .inl (.inr hc)
  | callbackDead _ hstack htake hnote => exact (hwt.enterHook hw hstack htake hnote).1
  | execute => exact hwt.push.same rfl rfl rfl rfl
  | @finishHook s =>
    unfold State.finishHook
    split
    · rename_i cb result rest hstack
      refine hwt.mono ?_ (fun i h => State.resume_outcomes_mono _ _ _ h) ?_
      · rw [State.resume_nextCaller]
        exact fun i hi hle => absurd hi (Nat.not_lt.mpr hle)
      · rintro c (hc | ⟨f, hf, hc⟩)
        · refine .inl (.inl ?_)
          rw [State.resume_activeContinuations]
          exact hc
        · rw [show s.stack = _ from hstack] at hf
          rcases List.mem_cons.mp hf with rfl | hf
          · obtain rfl : c = cb := by simpa [Frame.awaits] using hc
            exact .inr ((hr.leave hstack).resume_ne_nil c _)
          · refine .inl (.inr ⟨f, ?_, hc⟩)
            rw [State.resume_stack]
            exact hf
    · exact hwt
  | @accept s site cb ran rest hstack =>
    have h := hwt.leave hstack rfl
    rw [State.enqueueRequest_eq]
    split <;> exact h.same rfl rfl rfl rfl
  | @reject s cb ran rest r hstack hran =>
    have hcb := hr.held_created hw hstack (Frame.mem_holds_handOver .issueOperation hran)
    refine hwt.refuse hw hstack hcb (State.resume_nextCaller _ _ _)
      (State.resume_activeContinuations _ _ _) ?_ (fun i h => State.resume_outcomes_mono _ _ _ h)
      (.inr ((hr.refuse hstack).resume_ne_nil _ _))
    rw [State.resume_stack]
    exact fun f hf => hf
  | @rejectPending s i op cb ran rest r hstack hran =>
    have hcb := hr.held_created hw hstack (Frame.mem_holds_handOver (.pending i op) hran)
    obtain ⟨rfl, hop⟩ := hw.frame_op i op cb ran (hstack ▸ List.mem_cons_self ..)
    rw [hop.id_eq]
    refine hwt.refuse hw hstack hcb (State.resume_nextCaller _ _ _)
      (State.resume_activeContinuations _ _ _) ?_ (fun i h => State.resume_outcomes_mono _ _ _ h)
      (.inr (((hr.refuse hstack).addInFlight _ _).resume_ne_nil _ _))
    rw [State.resume_stack]
    exact fun f hf => hf
  | @rejectRaw s site cb ran rest r hstack hran =>
    have hcb := hr.held_created hw hstack (Frame.mem_holds_handOver site hran)
    exact hwt.refuse hw hstack hcb rfl rfl (fun f hf => hf)
      (fun i h => State.resumeContinuation_mono _ _ _ h)
      (.inr (State.resumeContinuation_ne_nil _ _ _))
  | @rejectHandle s cb ran rest r hstack hran =>
    have hcb := hr.held_created hw hstack (Frame.mem_holds_handOver .handleOperation hran)
    exact hwt.refuse hw hstack hcb rfl rfl (fun f hf => hf)
      (fun i h => State.resumeContinuation_mono _ _ _ h)
      (.inr (State.resumeContinuation_ne_nil _ _ _))
  | @rejectExports s n k cb ran rest hstack hran =>
    have hcb := hr.held_created hw hstack (Frame.mem_holds_handOver (.getexports n) hran)
    refine hwt.refuse hw hstack hcb rfl rfl (fun f hf => List.mem_cons_of_mem _ hf) (fun i h => h)
      (.inl (.inr ⟨.rpcDestroy k (.getexports cb), List.mem_cons_self .., List.mem_singleton_self cb⟩))
  | enterRpcDestroy => exact hwt.push
  | @leaveRpcDestroy s n next rest hstack hnext =>
    have hf : (Frame.rpcDestroy n next).awaits = [] := by
      cases next with
      | getexports cb => cases hnext
      | _ => rfl
    exact (hwt.leave hstack hf).same rfl rfl rfl rfl
  | @exportsFailed s n cb rest r hstack =>
    refine hwt.mono (fun i hi hle => absurd hi (Nat.not_lt.mpr hle))
      (fun i h => State.resumeContinuation_mono _ _ _ h) ?_
    rintro c (hc | ⟨f, hf, hc⟩)
    · exact .inl (.inl hc)
    · rw [show s.stack = _ from hstack] at hf
      rcases List.mem_cons.mp hf with rfl | hf
      · obtain rfl : c = cb := by simpa [Frame.awaits] using hc
        exact .inr (State.resumeContinuation_ne_nil _ _ _)
      · exact .inl (.inr ⟨f, hf, hc⟩)
  | @enterDestroy s kind hctx hstack =>
    have hout : (s.clearRegistries kind).outcomes = s.outcomes := by cases kind <;> rfl
    have hnext : (s.clearRegistries kind).nextCaller = s.nextCaller := by cases kind <;> rfl
    refine hwt.mono ?_ (fun i h => by rw [show _ = s.outcomes from hout]; exact h) ?_
    · show ∀ i < (s.clearRegistries kind).nextCaller, _
      rw [hnext]
      exact fun i hi hle => absurd hi (Nat.not_lt.mpr hle)
    · rintro c (hc | ⟨f, hf, -⟩)
      · exact .inl (.inr ⟨.destroy kind s.activeContinuations, List.mem_cons_self .., hc⟩)
      · rw [show s.stack = [] from hstack] at hf
        cases hf
  | @leaveDestroy s kind conts rest hstack =>
    have hres := (hr.leave hstack).dropRequests .nfs
    refine hwt.mono ?_ (fun i h => hres.endTeardown_ne_nil kind conts i (.inl h)) ?_
    · rw [State.endTeardown_nextCaller]
      exact fun i hi hle => absurd hi (Nat.not_lt.mpr hle)
    · rintro c (hc | ⟨f, hf, hc⟩)
      · refine .inl (.inl ?_)
        rw [State.endTeardown_activeContinuations]
        exact hc
      · rw [show s.stack = _ from hstack] at hf
        rcases List.mem_cons.mp hf with rfl | hf
        · exact .inr (hres.endTeardown_ne_nil kind conts c.caller (.inr (List.mem_map_of_mem hc)))
        · refine .inl (.inr ⟨f, ?_, hc⟩)
          rw [State.endTeardown_stack]
          exact hf
  | @teardownNow s kind hctx hstack =>
    have hres := @Resumption.clearRegistries s kind hr
    have hactive : s.activeContinuations = [] := (hw.retired hctx).1
    have hout : (s.clearRegistries kind).outcomes = s.outcomes := by cases kind <;> rfl
    have hnext : (s.clearRegistries kind).nextCaller = s.nextCaller := by cases kind <;> rfl
    refine hwt.mono ?_ (fun i h => hres.endTeardown_ne_nil kind _ i (.inl (hout ▸ h))) ?_
    · rw [State.endTeardown_nextCaller, hnext]
      exact fun i hi hle => absurd hi (Nat.not_lt.mpr hle)
    · rintro c (hc | ⟨f, hf, -⟩)
      · rw [show _ = [] from hactive] at hc
        cases hc
      · rw [show s.stack = [] from hstack] at hf
        cases hf

end Waiting

/-! ## Runs -/

theorem resumption_init (timeout : Int) : Resumption (State.init timeout) where
  once := by simp [State.init]
  fresh := by simp [State.init]
  marked := by simp [State.init]
  unresumed := by simp [State.init]
  raw := by simp [State.init]
  refused := by simp [State.init]

/-- In every reachable state nobody has been resumed twice and nobody is forgotten. -/
theorem resumption_of_reachable {timeout : Int} {t : State}
    (h : Reachable step (State.init timeout) t) : Resumption t ∧ Waiting t := by
  refine (run_invariant h (fun k => Resumption k.state ∧ Waiting k.state) (wellFormed_init timeout)
    ⟨resumption_init timeout, fun i hi => absurd hi (Nat.not_lt_zero i)⟩ ?_).2
  intro u e k a k' _ hw hI _ hact
  exact ⟨hI.1.act hw hact, hI.2.act hw hI.1 hact⟩

/-- Without a context nobody waits, but for those that a call in progress is going to resume. -/
theorem Waiting.answered {t : State} (hw : WellFormed t) (hwt : Waiting t) (hctx : t.context = none)
    (hawaits : ∀ f ∈ t.stack, ∀ cb ∈ f.awaits, t.outcomes cb.caller ≠ []) :
    ∀ op < t.nextCaller, t.outcomes op ≠ [] := by
  intro op hop
  have hactive : t.activeContinuations = [] := (hw.retired hctx).1
  rcases hwt op hop with hne | ⟨cb, rfl, hc | ⟨f, hf, hcb⟩⟩
  · exact hne
  · rw [hactive] at hc
    cases hc
  · exact hawaits f hf cb hcb

/-- The continuation of every operation is resumed at most once; and between queue blocks, when
`performShutdown` or `shutdownWithError` has finished, every operation whose queue block has run has
been resumed exactly once. -/
theorem resumed_exactly_once {timeout : Int} {t : State}
    (h : Reachable step (State.init timeout) t) :
    (∀ op, (t.outcomes op).length ≤ 1) ∧
      (t.stack = [] → 0 < t.teardowns → ∀ op < t.nextCaller, (t.outcomes op).length = 1) := by
  obtain ⟨hr, hwt⟩ := resumption_of_reachable h
  have hw := wellFormed_of_reaches h (wellFormed_init timeout)
  refine ⟨hr.once, fun hstack hdown op hop => ?_⟩
  have hctx : t.context = none := (ending_of_reachable h).torn hdown
  have hne := hwt.answered hw hctx (by simp [hstack]) op hop
  have hle := hr.once op
  have hpos := List.length_pos_iff.mpr hne
  omega

/-- A mount that succeeds and a stat that is cut off by a shutdown. -/
theorem resumed_exactly_once_shutdown :
    ∃ t, run step (State.init 60000000000)
      [.block .mount, .ret 0 { fd := 5, socketIno := 1 },
        .block .handleIOEvent, .callback 1 0 none, .ret 0 { fd := 5, socketIno := 1 },
        .block Block.stat, .ret 0 { fd := 5, socketIno := 1 },
        .block .shutdown, .callback 2 (-5) none, .ret 0 {}] = some t ∧
      t.nextCaller = 2 ∧ (∀ op, (t.outcomes op).length ≤ 1) ∧
      ∀ op < t.nextCaller, (t.outcomes op).length = 1 := by
  have hrun : ((run step (State.init 60000000000)
      [.block .mount, .ret 0 { fd := 5, socketIno := 1 },
        .block .handleIOEvent, .callback 1 0 none, .ret 0 { fd := 5, socketIno := 1 },
        .block Block.stat, .ret 0 { fd := 5, socketIno := 1 },
        .block .shutdown, .callback 2 (-5) none, .ret 0 {}]).any fun t =>
      t.stack = [] ∧ 0 < t.teardowns ∧ t.nextCaller = 2) = true := by decide +kernel
  obtain ⟨t, ht, hfacts⟩ := (Option.any_eq_true _ _).mp hrun
  obtain ⟨hstack, hdown, hnext⟩ := of_decide_eq_true hfacts
  obtain ⟨honce, hall⟩ := resumed_exactly_once (reachable_of_run ht)
  exact ⟨t, ht, hnext, honce, hall hstack hdown⟩

end NFSKit
