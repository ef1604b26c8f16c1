import NFSKit.EventLoop.Conditions
import NFSKit.EventLoop.Proofs.LedgerProofs

/-!
# Queued operations find no capacity

A queued operation that the loop has looked at found its category at capacity, and it is looked at again
whenever a slot becomes free; except by a timeout scan, and by a refusal after which the loop goes on at
an index that a loop inside the refused call has moved.
-/

namespace NFSKit

open Machine

variable {s t u : State} {k k' : Config} {a : Action} {e : Event} {all : Bool}

/-- The index of the loop that hands the operation over. -/
def Frame.loopIndex : Frame → Option Nat
  | .handOver (.pending i _) _ _ => some i
  | _ => none

theorem Frame.loopIndex_of_not_nested {f : Frame} (h : f.nested = false) : f.loopIndex = none := by
  cases f with
  | handOver site => cases site <;> first | rfl | cases h
  | _ => rfl

/-- The index of the loop that is running, or that waits for its call to return. -/
def Config.index (k : Config) : Option Nat :=
  match k.mode with
  | .draining i => some i
  | .idle => k.state.stack.head?.bind Frame.loopIndex
  | _ => none

/-- The queued operations that the loop has looked at: those before its index, or all of them. -/
def Config.passed (k : Config) : List PendingOperation :=
  match k.index with
  | some i => k.state.pendingOperations.take i
  | none => k.state.pendingOperations

theorem Config.mem_of_passed {op : PendingOperation} (h : op ∈ k.passed) :
    op ∈ k.state.pendingOperations := by
  unfold Config.passed at h
  split at h
  · exact List.mem_of_mem_take h
  · exact h

theorem Config.passed_of_index (h : k.index = none) : k.passed = k.state.pendingOperations := by
  unfold Config.passed
  rw [h]

/-- No operation that the loop has passed finds capacity. -/
def QueueFull (all : Bool) (k : Config) : Prop :=
  k.state.alive → k.state.context.isSome → ∀ op ∈ k.passed, k.state.regards all op →
    k.state.hasCapacity op.category = false

theorem queueFull_init (timeout : Int) : QueueFull all (State.init timeout).config :=
  fun _ _ op hop => by cases Config.mem_of_passed hop

/-- A caller that has been resumed is not waiting any more. -/
theorem regards_mono {op : PendingOperation}
    (hout : ∀ i, s.outcomes i ≠ [] → t.outcomes i ≠ []) (h : t.regards all op) : s.regards all op := by
  unfold Core.regards at h ⊢
  cases all with
  | true => rfl
  | false =>
    rw [Bool.false_or, List.isEmpty_iff] at h ⊢
    by_contra hne
    exact hout _ hne h

/-- The capacity depends on the counts and the controllers. -/
theorem hasCapacity_congr (hcounts : t.inFlightCount = s.inFlightCount)
    (hbulk : t.bulkController = s.bulkController)
    (hmetadata : t.metadataController = s.metadataController) (c : OperationCategory) :
    t.hasCapacity c = s.hasCapacity c := by
  unfold Core.hasCapacity Core.controller
  rw [hcounts, hbulk, hmetadata]

/-- Taking a slot makes no room. -/
theorem hasCapacity_of_addInFlight {c d : OperationCategory}
    (h : (s.addInFlight d 1).hasCapacity c) : s.hasCapacity c := by
  have hlt : (s.addInFlight d 1).inFlightCount c < (s.controller c).effectiveDepth :=
    of_decide_eq_true h
  have hcount : (s.addInFlight d 1).inFlightCount c =
      if d = c then s.inFlightCount d + 1 else s.inFlightCount c := update_count _ _ _ _
  rw [hcount] at hlt
  refine decide_eq_true ?_
  split at hlt
  · rename_i heq
    rw [heq] at hlt
    omega
  · exact hlt

namespace QueueFull

/-- Nothing new has been passed, and no slot has become free. -/
theorem keep (hq : QueueFull all k) (h : Act k a k')
    (hpassed : ∀ op ∈ k'.passed, op ∈ k.passed)
    (hcap : ∀ c, k'.state.hasCapacity c → k.state.hasCapacity c) : QueueFull all k' := by
  intro ha hc op hop hregards
  obtain ⟨ha', hc'⟩ := h.up_before ha hc
  have hfull := hq ha' hc' op (hpassed op hop) (regards_mono h.effects.outcomes hregards)
  rw [Bool.eq_false_iff] at hfull ⊢
  exact fun hcap' => hfull (hcap _ hcap')

/-- The loop had passed the whole queue, and nothing is added to it. -/
theorem keepAll (hq : QueueFull all k) (h : Act k a k')
    (hindex : k.index = none)
    (hpending : ∀ op ∈ k'.state.pendingOperations, op ∈ k.state.pendingOperations)
    (hcounts : k'.state.inFlightCount = k.state.inFlightCount)
    (hbulk : k'.state.bulkController = k.state.bulkController)
    (hmetadata : k'.state.metadataController = k.state.metadataController) : QueueFull all k' := by
  refine hq.keep h (fun op hop => ?_) fun c hc => hasCapacity_congr hcounts hbulk hmetadata c ▸ hc
  rw [Config.passed_of_index hindex]
  exact hpending op (Config.mem_of_passed hop)

/-- The loop stays where it is. -/
theorem keepSame (hq : QueueFull all k) (h : Act k a k')
    (hmode : k'.mode = k.mode) (hstack : k'.state.stack = k.state.stack)
    (hpending : k'.state.pendingOperations = k.state.pendingOperations)
    (hcounts : k'.state.inFlightCount = k.state.inFlightCount)
    (hbulk : k'.state.bulkController = k.state.bulkController)
    (hmetadata : k'.state.metadataController = k.state.metadataController) : QueueFull all k' := by
  refine hq.keep h (fun op hop => ?_) fun c hc => hasCapacity_congr hcounts hbulk hmetadata c ▸ hc
  unfold Config.passed Config.index at hop ⊢
  rw [hmode, hstack, hpending] at hop
  exact hop

theorem of_no_context (h : k'.state.context = none) : QueueFull all k' := by
  intro _ hctx
  rw [h] at hctx
  cases hctx

/-- No action but an expiry and a refusal lets a queued operation that was passed find capacity. -/
theorem act (hq : QueueFull all k) (hk : Sound k) (hP : RefusesInOrder all u e)
    (ha : Allowed u e k a) (h : Act k a k') (hexpire : ∀ cb, a ≠ .expire cb) : QueueFull all k' := by
  have hact := h
  have hnested := hk.wellFormed.nested
  -- the only frame of a stack is popped
  have outer {s : State} {f : Frame} {rest : List Frame} (hstack : s.stack = f :: rest)
      (hn : NestedAbove s.stack) (hf : f.nested = false) :
      rest = [] ∧ s.stack.head?.bind Frame.loopIndex = none := by
    rw [hstack] at hn ⊢
    exact ⟨hn.rest_eq_nil hf, Frame.loopIndex_of_not_nested hf⟩
  cases h with
  | silent hcore =>
    exact hq.keepSame hact rfl (by rw [hcore]) (by rw [hcore]) (by rw [hcore])
      (by rw [hcore]) (by rw [hcore])
  | deinit => exact fun halive => by cases halive
  | @startTeardown s m kind hstack hm =>
    refine hq.keepAll hact ?_ (fun _ h => h) rfl rfl rfl
    obtain rfl | rfl := hm
    · simp [Config.index, hstack]
    · rfl
  | @start s site cb hstack =>
    dsimp only [State.handOver, State.passRetained, State.register, State.newCaller] at hact ⊢
    refine hq.keepAll hact ?_ (fun _ h => h) rfl rfl rfl
    simp [Config.index, hstack]
  | @enqueue s type cb _ _ _ _ _ hcap _ _ _ hstack =>
    intro halive hctx op hop hregards
    rcases List.mem_append.mp (Config.mem_of_passed hop) with hop | hop
    · refine hq halive hctx op ?_ hregards
      rw [Config.passed_of_index]
      · exact hop
      · simp [Config.index, hstack]
    · obtain rfl := List.mem_singleton.mp hop
      exact hcap
  | enterClose hstack | enter hstack =>
    refine hq.keepAll hact ?_ (fun _ h => h) rfl rfl rfl
    simp [Config.index, show _ = [] from hstack]
  | @enterRpcDestroy s n next hstack =>
    refine hq.keepAll hact ?_ (fun _ h => h) rfl rfl rfl
    cases next <;> simp [Config.index, AfterCleanup.mode, hstack]
  | @leave s f rest m hstack hf =>
    have hframe : f.nested = false := by cases f <;> first | rfl | cases hf
    exact hq.keepAll hact (outer hstack hnested hframe).2 (fun _ h => h) rfl rfl rfl
  | expire => exact absurd rfl (hexpire _)
  | callback => exact fun _ _ op hop => by simp [Config.passed, Config.index] at hop
  | callbackDead halive =>
    intro ha'
    rcases hact.rarely.1 with heq | heq
    · rw [heq] at ha'
      rw [show _ = false from halive] at ha'
      cases ha'
    · cases heq
  | @skip s i op hop hcap =>
    intro halive hctx x hx hregards
    have hx : x ∈ s.pendingOperations.take (i + 1) := hx
    rw [List.take_add_one, hop] at hx
    rcases List.mem_append.mp hx with hx | hx
    · exact hq halive hctx x hx hregards
    · obtain rfl : x = op := by simpa using hx
      exact hcap
  | @execute s i op hctx hop hcap =>
    intro halive _ x hx hregards
    have hx : x ∈ (s.pendingOperations.eraseIdx i).take i := hx
    rw [List.take_eraseIdx_eq_take_of_le _ _ _ (le_refl i)] at hx
    have hfull := hq halive hctx x hx hregards
    have hne : x.category ≠ op.category := by
      intro heq
      rw [heq, hcap] at hfull
      cases hfull
    show (s.addInFlight op.category 1).hasCapacity x.category = false
    simp only [Core.hasCapacity, State.addInFlight, Function.update_of_ne hne]
    exact hfull
  | @drained s i hend =>
    intro halive hctx x hx hregards
    refine hq halive hctx x ?_ hregards
    rcases hend with hnone | hend
    · rw [show s.context = none from hnone] at hctx
      cases hctx
    · show x ∈ s.pendingOperations.take i
      rw [List.take_of_length_le (List.getElem?_eq_none_iff.mp hend)]
      exact Config.mem_of_passed hx
  | @finishHook s =>
    obtain ⟨stack, resumed, outcomes, failed, heq⟩ := State.finishHook_eq s
    refine hq.keep hact (fun op hop => ?_) fun c hc => ?_
    · have hop := Config.mem_of_passed hop
      dsimp only at hop
      rw [heq] at hop
      exact hop
    · dsimp only at hc
      rw [heq] at hc
      exact hc
  | @accept s site cb ran rest hstack =>
    refine hq.keep hact (fun op hop => ?_) fun c hc => ?_
    · have hpending (v : State) (hv : v.pendingOperations = s.pendingOperations)
          (hop : op ∈ (⟨v, site.next⟩ : Config).passed) : op ∈ (⟨s, .idle⟩ : Config).passed := by
        cases site with
        | pending i x =>
          have hop : op ∈ v.pendingOperations.take i := hop
          rw [hv] at hop
          have hindex : (⟨s, .idle⟩ : Config).index = some i := by simp [Config.index, hstack, Frame.loopIndex]
          unfold Config.passed
          rw [hindex]
          exact hop
        | _ =>
          have hindex : (⟨s, .idle⟩ : Config).index = none := (outer hstack hnested rfl).2
          rw [Config.passed_of_index hindex, ← hv]
          exact Config.mem_of_passed hop
      refine hpending _ ?_ hop
      rw [State.enqueueRequest_eq]
      split <;> rfl
    · dsimp only at hc
      rw [State.enqueueRequest_eq] at hc
      split at hc
      · exact hasCapacity_of_addInFlight hc
      · exact hc
  | @reject s cb ran rest r hstack =>
    obtain ⟨-, hindex⟩ := outer hstack hnested rfl
    refine hq.keepAll hact hindex (fun op hop => ?_) ?_ ?_ ?_ <;> dsimp only at *
    · rw [State.resume_eq] at hop
      exact hop
    all_goals rw [State.resume_eq]; rfl
  | @rejectPending s i op cb ran rest r hstack =>
    obtain ⟨hcore, rc, view, rfl, hrc⟩ := ha
    intro halive hctx x hx hregards
    have hcore : s.toCore = u.toCore := hcore
    have hx : x ∈ u.pendingOperations.take i := by
      have hx : x ∈ (((s.refuse rest op.id cb).addInFlight op.category (-1)).resume cb
        r).pendingOperations.take i := hx
      rw [State.resume_eq] at hx
      rw [← hcore]
      exact hx
    have hregards' : u.regards all x := by
      rw [← hcore]
      exact regards_mono hact.effects.outcomes hregards
    have hfull := hP (i, op) (by simp [refusedPending, ← hcore, hstack, hrc]) x hx hregards'
    dsimp only at hfull ⊢
    rw [State.resume_eq]
    show (s.addInFlight op.category (-1)).hasCapacity x.category = false
    unfold Core.hasCapacity State.addInFlight at hfull ⊢
    dsimp only at hfull ⊢
    rw [hcore]
    exact hfull
  | rejectRaw hstack _ hsite =>
    refine hq.keepAll hact (outer hstack hnested ?_).2 (fun _ h => h) rfl rfl rfl
    obtain rfl | ⟨n, rfl⟩ := hsite <;> rfl
  | rejectHandle hstack | rejectExports hstack | leaveRpcDestroy hstack | exportsFailed hstack =>
    exact hq.keepAll hact (outer hstack hnested rfl).2 (fun _ h => h) rfl rfl rfl
  | enterDestroy => exact .of_no_context rfl
  | @leaveDestroy s kind conts rest hstack =>
    have hnone : s.context = none := hk.ending.destroyed kind conts (hstack ▸ List.mem_cons_self ..)
    exact .of_no_context ((State.endTeardown_context _ _ _).trans hnone)
  | @teardownNow s kind hnone =>
    refine .of_no_context ((State.endTeardown_context _ _ _).trans ?_)
    cases kind <;> exact hnone
  | alreadyDown hnone => exact .of_no_context hnone
  | immediate | overflow =>
    dsimp only [State.resumeContinuation, State.removeActive, State.register, State.newCaller] at hact ⊢
    exact hq.keepSame hact rfl rfl rfl rfl rfl rfl
  | _ => exact hq.keepSame hact rfl rfl rfl rfl rfl rfl

end QueueFull

/-! ## Whole steps -/

/-- After the expiries a timeout scan may still destroy the export context, nothing else. -/
theorem scanForTimeouts_fields (s : State) (h : 0 < s.timeout) :
    let t := (s.activeContinuations.filter s.expired).foldl State.expire s
    (s.scanForTimeouts.pendingOperations = t.pendingOperations ∧
      s.scanForTimeouts.outcomes = t.outcomes ∧ s.scanForTimeouts.handOvers = t.handOvers ∧
      s.scanForTimeouts.created = t.created) ∧
    s.scanForTimeouts.inFlightCount = t.inFlightCount ∧
      s.scanForTimeouts.bulkController = t.bulkController ∧
      s.scanForTimeouts.metadataController = t.metadataController := by
  intro t
  unfold State.scanForTimeouts
  rw [if_neg (by omega)]
  dsimp only
  split
  · split
    · unfold State.cleanupRpcExports
      dsimp only
      split <;> exact ⟨⟨rfl, rfl, rfl, rfl⟩, rfl, rfl, rfl⟩
    · exact ⟨⟨rfl, rfl, rfl, rfl⟩, rfl, rfl, rfl⟩
  · exact ⟨⟨rfl, rfl, rfl, rfl⟩, rfl, rfl, rfl⟩

/-- An expiry resumes a caller, and leaves the queue and libnfs alone. -/
theorem foldl_expire_fields (l : List CallbackData) (s : State) :
    (l.foldl State.expire s).pendingOperations = s.pendingOperations ∧
      (l.foldl State.expire s).handOvers = s.handOvers ∧
      (l.foldl State.expire s).created = s.created ∧
      ∀ i, s.outcomes i ≠ [] → (l.foldl State.expire s).outcomes i ≠ [] := by
  induction l generalizing s with
  | nil => exact ⟨rfl, rfl, rfl, fun _ h => h⟩
  | cons cb l ih =>
    rw [List.foldl_cons]
    obtain ⟨hpending, hhanded, hcreated, hout⟩ := ih (s.expire cb)
    have hcb : (s.expire cb).pendingOperations = s.pendingOperations ∧
        (s.expire cb).handOvers = s.handOvers ∧ (s.expire cb).created = s.created := by
      unfold State.expire
      rw [State.resume_eq, State.recordCompletion_eq]
      exact ⟨rfl, rfl, rfl⟩
    have hresumed (i : Nat) (hi : s.outcomes i ≠ []) : (s.expire cb).outcomes i ≠ [] := by
      unfold State.expire
      refine State.resume_outcomes_mono _ cb _ ?_
      rw [State.recordCompletion_eq]
      exact hi
    exact ⟨hpending.trans hcb.1, hhanded.trans hcb.2.1, hcreated.trans hcb.2.2,
      fun i hi => hout i (hresumed i hi)⟩

/-- A scan that expires something is the whole step. -/
theorem step_scan (h : step u e = some t) (hscan : scanExpires u e ≠ []) :
    0 < u.timeout ∧ scanExpires u e = u.activeContinuations.filter u.expired ∧
      t = u.scanForTimeouts := by
  have hcond : e = .block .scanForTimeouts ∧ 0 < u.timeout := by
    by_contra hno
    exact hscan (if_neg hno)
  obtain ⟨rfl, htimeout⟩ := hcond
  refine ⟨htimeout, if_pos ⟨rfl, htimeout⟩, ?_⟩
  simp only [step] at h
  split at h
  · exact (Option.some.inj h).symm
  · cases h

/-- An action of a step that expires nothing is no expiry. -/
theorem not_expire_of_scan (hscan : scanExpires u e = []) (ha : Allowed u e k a) (cb : CallbackData) :
    a ≠ .expire cb := by
  rintro rfl
  obtain ⟨rfl, hmem, hexpired, htimeout, -⟩ := ha
  have hcb : cb ∈ scanExpires u (.block .scanForTimeouts) := by
    simp [scanExpires, htimeout, hmem, hexpired]
  rw [hscan] at hcb
  cases hcb

/-- A step that looks again at the queue keeps every operation that was passed out of capacity. -/
theorem QueueFull.step (hq : QueueFull all u.config) (hs : Sound u.config) (hP : LooksAgain all u e)
    (h : NFSKit.step u e = some t) : QueueFull all t.config := by
  by_cases hscan : scanExpires u e = []
  · refine (step_invariant_sound h hs (QueueFull all) hq fun k a k' hk hq ha hact => ?_).2
    exact hq.act hk hP.2 ha hact (not_expire_of_scan hscan ha)
  · intro _ _ op hop hregards
    have hfull := hP.1 hscan op
    obtain ⟨htimeout, hexpires, ht⟩ := step_scan h hscan
    obtain ⟨⟨hpending, hout, -⟩, hcounts, hbulk, hmetadata⟩ := scanForTimeouts_fields u htimeout
    have hop := Config.mem_of_passed hop
    dsimp only [State.config] at hop hregards ⊢
    rw [hexpires] at hfull
    rw [ht, hpending, (foldl_expire_fields _ u).1] at hop
    rw [ht, hasCapacity_congr hcounts hbulk hmetadata]
    refine hfull hop ?_
    unfold Core.regards at hregards ⊢
    rw [ht, hout] at hregards
    exact hregards

/-- In a run whose steps all look again at the queue, no queued operation that the loop has passed finds
capacity. -/
theorem queueFull_of_reaches {P : State → Event → Prop} {timeout : Int}
    (h : Reaches step P (State.init timeout) t) (hP : ∀ u e, P u e → LooksAgain all u e) :
    QueueFull all t.config :=
  h.strengthen.invariant (I := fun u => QueueFull all u.config) (queueFull_init timeout)
    fun _ _ _ hq hp hstep => hq.step (sound_of_reachable hp.2.1) (hP _ _ hp.1) hstep

end NFSKit
