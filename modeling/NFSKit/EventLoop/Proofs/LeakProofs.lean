import NFSKit.EventLoop.Proofs.HandleProofs
import NFSKit.EventLoop.Proofs.SourcesProofs
import NFSKit.EventLoop.Conditions

/-!
# No object leaks

An object that libnfs has delivered is in a completion hook, with the caller of its open, in the
registry, or closed: as long as no reply comes after its caller was resumed, and no close is refused.
-/

namespace NFSKit

open Machine AssocList

variable {s s' : State} {k k' : Config} {a : Action} {e : Event}

/-! ## Completion hooks -/

/-- Above a frame that is responsible for an operation, nobody else is. -/
theorem caller_ne_of_holds {f g : Frame} {rest : List Frame} {cb c : CallbackData}
    (hw : WellFormed s) (hstack : s.stack = f :: rest) (hcb : cb ∈ f.holds) (hg : g ∈ rest)
    (hc : c ∈ g.holds) : c.caller ≠ cb.caller := by
  have hcmem : c ∈ rest.flatMap Frame.holds := List.mem_flatMap.mpr ⟨g, hg, hc⟩
  have hcount := Core.tokens_cons hstack c
  have hcount' := Core.tokens_cons hstack cb
  have hpos : 0 < (rest.flatMap Frame.holds).count c := List.count_pos_iff.mpr hcmem
  have hpos' : 0 < f.holds.count cb := List.count_pos_iff.mpr hcb
  have hcreated : c ∈ s.created := hw.tokens_created c (by omega)
  have hcreated' : cb ∈ s.created := hw.tokens_created cb (by omega)
  intro heq
  obtain rfl := hw.caller_inj c hcreated cb hcreated' heq
  have := hw.tokens_le c
  omega

/-- What happens to an operation whose completion hook is running: nothing, or the hook returns and
`resume(result)` runs. -/
inductive HookStep (s s' : State) (cb : CallbackData) (r : Outcome) : Prop where
  | running (hf : Frame.completionHook cb r ∈ s'.stack)
      (hout : s'.outcomes cb.caller = s.outcomes cb.caller) : HookStep s s' cb r
  | returned (hout : s.hasResumed cb.caller = false →
      s'.outcomes cb.caller = s.outcomes cb.caller ++ [r]) : HookStep s s' cb r

/-- A callback inside the innermost call leaves the completion hooks below. -/
theorem mem_noteCallback {f : Frame} {rest : List Frame} {cb c : CallbackData} {r r' : Outcome}
    (hstack : s.stack = f :: rest) (hf : Frame.completionHook cb r ∈ s.stack) :
    Frame.completionHook cb r ∈ .completionHook c r' :: f.noteCallback c.caller :: rest := by
  rw [hstack] at hf
  rcases List.mem_cons.mp hf with rfl | hf
  · exact List.mem_cons_of_mem _ (List.mem_cons_self ..)
  · exact List.mem_cons_of_mem _ (List.mem_cons_of_mem _ hf)

theorem Act.hookStep (hk : Sound k) (h : Act k a k') {cb : CallbackData} {r : Outcome}
    (hf : Frame.completionHook cb r ∈ k.state.stack) : HookStep k.state k'.state cb r := by
  have hw := hk.wellFormed
  have hcb := hook_created hw hf
  have hlt := hw.caller_lt cb hcb
  have idle {P : Prop} (hstack : k.state.stack = []) : P := by
    rw [hstack] at hf
    cases hf
  have below {f : Frame} {rest : List Frame} (hstack : k.state.stack = f :: rest)
      (hne : Frame.completionHook cb r ≠ f) : Frame.completionHook cb r ∈ rest := by
    rw [hstack] at hf
    exact (List.mem_cons.mp hf).resolve_left hne
  have other {f : Frame} {rest : List Frame} {c : CallbackData} (hstack : k.state.stack = f :: rest)
      (hne : Frame.completionHook cb r ≠ f) (hc : c ∈ f.holds) : cb.caller ≠ c.caller :=
    caller_ne_of_holds hw hstack hc (below hstack hne) (List.mem_singleton.mpr rfl)
  cases h with
  | silent hcore => exact .running (by rw [hcore]; exact hf) (by rw [hcore])
  | @immediate s r =>
    have hlt : cb.caller < s.nextCaller := hlt
    exact .running hf (State.resumeContinuation_of_ne _ (by omega))
  | @overflow s c r _ _ hcaller =>
    have hlt : cb.caller < s.nextCaller := hlt
    exact .running hf (State.resumeContinuation_of_ne _ (by omega))
  | start | execute => exact .running (List.mem_cons_of_mem _ hf) rfl
  | deinit hstack | enqueue _ _ _ _ _ _ _ _ _ hstack | enterClose hstack | enter hstack
  | expire hstack | startTeardown hstack | enterRpcDestroy hstack | enterDestroy _ hstack
  | teardownNow _ hstack => exact idle hstack
  | @leave s f rest m hstack hevent =>
    refine .running (below hstack ?_) rfl
    rintro rfl
    cases hevent
  | callback _ hstack htake hnote =>
    obtain ⟨out, fhs, dirs, b, r', -, heq⟩ := State.callback_eq htake hnote
    rw [State.recordCompletion_eq, heq]
    exact .running (mem_noteCallback hstack hf) rfl
  | callbackDead _ hstack htake hnote =>
    obtain ⟨out, fhs, dirs, b, r', -, heq⟩ := State.callback_eq htake hnote
    rw [heq]
    exact .running (mem_noteCallback hstack hf) rfl
  | @finishHook s =>
    unfold State.finishHook
    split
    · rename_i c r' rest hstack
      by_cases htop : Frame.completionHook cb r = .completionHook c r'
      · injection htop with h₁ h₂
        subst h₁
        subst h₂
        refine .returned fun hres => ?_
        dsimp only
        rw [State.resume_outcomes, if_pos ⟨rfl, hres⟩]
      · refine .running ?_ ?_
        · rw [State.resume_stack]
          exact below hstack htop
        · rw [State.resume_outcomes_of_ne]
          exact other hstack htop (List.mem_singleton.mpr rfl)
    · exact .running hf rfl
  | accept hstack =>
    rw [State.enqueueRequest_eq]
    split <;> exact .running (below hstack (by simp)) rfl
  | reject hstack hran | rejectPending hstack hran =>
    refine .running ?_ (State.resume_outcomes_of_ne _ ?_)
    · rw [State.resume_stack]
      exact below hstack (by simp)
    · exact other hstack (by simp) (Frame.mem_holds_handOver _ hran)
  | rejectRaw hstack hran | rejectHandle hstack hran =>
    refine .running (below hstack (by simp)) (State.resumeContinuation_of_ne _ ?_)
    exact other hstack (by simp) (Frame.mem_holds_handOver _ hran)
  | rejectExports hstack => exact .running (List.mem_cons_of_mem _ (below hstack (by simp))) rfl
  | leaveRpcDestroy hstack => exact .running (below hstack (by simp)) rfl
  | exportsFailed hstack =>
    refine .running (below hstack (by simp)) (State.resumeContinuation_of_ne _ ?_)
    exact other hstack (by simp) (List.mem_singleton.mpr rfl)
  | leaveDestroy hstack hrest =>
    have hmem := below hstack (by simp)
    rw [hrest] at hmem
    cases hmem
  | _ => exact .running hf rfl

/-! ## Refused closes -/

/-- A fate is a status, or the action refuses the operation. -/
theorem Act.fate (h : Act k a k') {i : Nat}
    (hi : k'.state.fates i = some .rejected) :
    k.state.fates i = some .rejected ∨
      ∃ site cb ran rest, a = .reject site cb ran ∧ i = cb.caller ∧ cb.caller ∉ ran ∧
        k.state.stack = .handOver site cb ran :: rest := by
  have called {s : State} {cb : CallbackData} {status : Int} :
      Function.update s.fates cb.caller (some (.called status)) i = some .rejected →
        s.fates i = some .rejected := by
    intro h
    by_cases hc : i = cb.caller
    · subst hc
      simp at h
    · rwa [Function.update_of_ne hc] at h
  have refused {s : State} {site : Site} {cb : CallbackData} {ran : List Nat} {rest : List Frame}
      {a : Action} (ha : a = .reject site cb ran) (hran : cb.caller ∉ ran)
      (hstack : s.stack = .handOver site cb ran :: rest) :
      Function.update s.fates cb.caller (some .rejected) i = some .rejected →
        s.fates i = some .rejected ∨ ∃ site cb ran rest, a = .reject site cb ran ∧ i = cb.caller ∧
          cb.caller ∉ ran ∧ s.stack = .handOver site cb ran :: rest := by
    intro h
    by_cases hc : i = cb.caller
    · exact .inr ⟨site, cb, ran, rest, ha, hc, hran, hstack⟩
    · rw [Function.update_of_ne hc] at h
      exact .inl h
  cases h with
  | silent hcore =>
    rw [hcore] at hi
    exact .inl hi
  | expire =>
    dsimp only [State.expire] at hi
    rw [State.resume_eq, State.recordCompletion_eq] at hi
    exact .inl hi
  | callback _ _ htake hnote =>
    obtain ⟨out, fhs, dirs, b, r, -, heq⟩ := State.callback_eq htake hnote
    rw [State.recordCompletion_eq, heq] at hi
    exact .inl (called hi)
  | callbackDead _ _ htake hnote =>
    obtain ⟨out, fhs, dirs, b, r, -, heq⟩ := State.callback_eq htake hnote
    rw [heq] at hi
    exact .inl (called hi)
  | @finishHook s =>
    obtain ⟨stack, resumed, outcomes, failed, heq⟩ := State.finishHook_eq s
    rw [heq] at hi
    exact .inl hi
  | accept =>
    rw [State.enqueueRequest_eq] at hi
    split at hi <;> exact .inl hi
  | reject hstack hran | rejectPending hstack hran =>
    rw [State.resume_eq] at hi
    exact refused rfl hran hstack hi
  | rejectRaw hstack hran | rejectHandle hstack hran | rejectExports hstack hran =>
    exact refused rfl hran hstack hi
  | @enterDestroy s kind => cases kind <;> exact .inl hi
  | @leaveDestroy s kind conts rest =>
    obtain ⟨bulk, metadata, counts, heq⟩ :=
      State.endTeardown_eq ((s.leaveTo rest).dropRequests .nfs) kind conts
    rw [heq, State.foldl_resume_eq] at hi
    exact .inl hi
  | @teardownNow s kind =>
    obtain ⟨bulk, metadata, counts, heq⟩ :=
      State.endTeardown_eq (s.clearRegistries kind) kind s.activeContinuations
    rw [heq, State.foldl_resume_eq] at hi
    cases kind <;> exact .inl hi
  | _ => exact .inl hi

/-! ## The invariant -/

/-- Every object that libnfs has delivered is kept track of. -/
structure ObjectsKept (s : State) : Prop where
  unwraps : ∀ cb ∈ s.created, ∀ type, cb.entry = .submit type → type.delivers →
    cb.dataHandler = .unwrap
  answered : ∀ i ∈ s.followed, s.outcomes i ≠ []
  /-- Its caller has received it, or will when the completion hook returns. -/
  source : ∀ type, type.delivers → ∀ p ∈ s.objects type, ∃ cb ∈ s.created,
    cb.entry = .submit type ∧ (.success (.pointer p) ∈ s.outcomes cb.caller ∨
      .completionHook cb (.success (.pointer p)) ∈ s.stack ∧ s.outcomes cb.caller = [])
  /-- A second block of `openFile` has registered it. -/
  registered : ∀ cb ∈ s.created, cb.entry = .submit .open → cb.caller ∈ s.followed → ∀ p,
    .success (.pointer p) ∈ s.outcomes cb.caller → p ∈ s.registrations.map Prod.snd
  /-- A second block of `contentsOfDirectory` has closed it. -/
  read : s.context.isSome → ∀ cb ∈ s.created, cb.entry = .submit .opendir →
    cb.caller ∈ s.followed → ∀ p, .success (.pointer p) ∈ s.outcomes cb.caller → p ∈ s.closedDirs
  registry : s.context.isSome → ∀ q ∈ s.registrations, q ∈ s.handleRegistry ∨ q.2 ∈ s.closedHandles
  accepted : ∀ cb ∈ s.created, cb.entry = .closeFile → s.fates cb.caller ≠ some .rejected
  fresh : ∀ i, s.nextCaller ≤ i → s.fates i ≠ some .rejected

theorem objectsKept_init (timeout : Int) : ObjectsKept (State.init timeout) where
  unwraps := fun cb h => by cases h
  answered := fun i h => by cases h
  source := fun type hd p h => by cases type <;> cases h
  registered := fun cb h => by cases h
  read := fun _ cb h => by cases h
  registry := fun _ q h => by cases h
  accepted := fun cb h => by cases h
  fresh := fun i _ h => by cases h

/-- A caller that has been resumed receives nothing more. -/
theorem Act.results_stable (hk : Sound k) (h : Act k a k') {i : Nat}
    (hi : k.state.outcomes i ≠ []) : k'.state.outcomes i = k.state.outcomes i := by
  have honce := (hk.resumption.act hk.wellFormed h).once i
  have hpos : 0 < (k.state.outcomes i).length := List.length_pos_iff.mpr hi
  cases h.results i with
  | same heq => exact heq
  | failed r heq | immediate r heq | hooked _ r _ heq =>
    rw [heq, List.length_append, List.length_singleton] at honce
    omega

/-- An operation whose caller had been resumed is no new one. -/
theorem Act.created_old (hk : Sound k) (h : Act k a k') {cb : CallbackData}
    (hcb : cb ∈ k'.state.created) (hout : k.state.outcomes cb.caller ≠ []) :
    cb ∈ k.state.created := by
  rw [h.effects.created] at hcb
  rcases List.mem_append.mp hcb with hmade | hcb
  · have hmade : a.made = some cb := by simpa using hmade
    have hcaller := (h.made_fresh hmade).2
    exact absurd (hk.resumption.fresh cb.caller (by omega)).1 hout
  · exact hcb

/-- A reply with an object, unwrapped. -/
theorem State.settle_unwrap {cb : CallbackData} {status : Int} {v : Value}
    (hentry : cb.entry ≠ .getexports) (hhandler : cb.dataHandler = .unwrap) (hs : 0 ≤ status) :
    (s.settle cb status (some v)).1 = .success v := by
  have hs : ¬ status < 0 := by omega
  simp [State.settle, State.dataHandler, hentry, hhandler, hs]

/-- The reply that brings an object is inside the completion hook, with the object as its result. -/
theorem Act.brings_hook (h : Act k a k') {type : OperationType} {p : Nat} (hp : a.brings type p)
    (hunwraps : ∀ f cb status data, a = .callback f cb status data → cb.dataHandler = .unwrap) :
    ∃ f cb status, a = .callback f cb status (some (.pointer p)) ∧ 0 ≤ status ∧
      cb.entry = .submit type ∧ .completionHook cb (.success (.pointer p)) ∈ k'.state.stack ∧
      k'.state.outcomes = k.state.outcomes := by
  have enter {s s₁ s₂ : State} {f : Frame} {cb : CallbackData} {rest : List Frame} {status : Int}
      {data : Option Value} (htake : s.takeRequest f rest cb.continuationID = some (cb, s₁))
      (hnote : s₁.noteDelivery cb status data = some s₂) (hhandler : cb.dataHandler = .unwrap)
      (hp : (Action.callback f cb status data).brings type p) :
      .completionHook cb (.success (.pointer p)) ∈ (s₂.enterHook cb status data).stack ∧
        (s₂.enterHook cb status data).outcomes = s.outcomes := by
    obtain ⟨hentry, hs, rfl⟩ := hp
    obtain ⟨u, hu⟩ := s₂.enterHook_stack cb status (some (.pointer p))
    rw [State.settle_unwrap (by rw [hentry]; simp) hhandler hs] at hu
    obtain ⟨out, fhs, dirs, b, r, -, heq⟩ := State.callback_eq htake hnote
    exact ⟨hu ▸ List.mem_cons_self .., by rw [heq]⟩
  cases h with
  | callback _ _ htake hnote =>
    have henter := enter htake hnote (hunwraps _ _ _ _ rfl) hp
    obtain ⟨hentry, hs, rfl⟩ := hp
    rw [State.recordCompletion_eq]
    exact ⟨_, _, _, rfl, hs, hentry, henter⟩
  | callbackDead _ _ htake hnote =>
    have henter := enter htake hnote (hunwraps _ _ _ _ rfl) hp
    obtain ⟨hentry, hs, rfl⟩ := hp
    exact ⟨_, _, _, rfl, hs, hentry, henter⟩
  | _ => cases hp

/-- In time, a reply that brings an object finds its caller waiting. -/
theorem DeliversInTime.waiting {u : State} (hk : Sound k) (hintime : DeliversInTime u e)
    {type : OperationType} (hd : type.delivers) {f : Frame} {cb : CallbackData} {status : Int}
    {p : Nat} (hs : 0 ≤ status) (hentry : cb.entry = .submit type)
    (ha : Allowed u e k (.callback f cb status (some (.pointer p))))
    (h : Act k (.callback f cb status (some (.pointer p))) k') :
    cb ∈ k.state.created ∧ k.state.outcomes cb.caller = [] ∧ k.state.context.isSome := by
  have hcb := h.callback_created hk
  obtain ⟨rfl, rfl⟩ := ha
  refine ⟨hcb, hintime cb hcb ?_⟩
  have htype : type = .open ∨ type = .opendir := by
    revert hd
    cases type <;> simp [OperationType.delivers]
  simpa [Event.bringsTo, hs, hentry] using htype

section

variable {u : State}

theorem ObjectsKept.act (hk : Sound k) (ho : ObjectsSafe k.state) (hkept : ObjectsKept k.state)
    (hunwraps : UnwrapsObjects e) (hintime : DeliversInTime u e) (haccepts : AcceptsCloses u e)
    (ha : Allowed u e k a) (h : Act k a k') : ObjectsKept k'.state where
  unwraps := by
    intro cb hcb type hentry hd
    rw [h.effects.created] at hcb
    rcases List.mem_append.mp hcb with hmade | hcb
    · have hmade : a.made = some cb := by simpa using hmade
      have hsubmits : e.submits = some (type, cb.dataHandler) := by
        cases a with
        | start site c =>
          obtain rfl := Option.some.inj hmade
          exact ha.1 type hentry
        | enqueue _ c =>
          obtain rfl := Option.some.inj hmade
          exact ha.1 type hentry
        | overflow c =>
          obtain rfl := Option.some.inj hmade
          exact ha type hentry
        | _ => cases hmade
      exact hunwraps _ hsubmits hd
    · exact hkept.unwraps cb hcb type hentry hd
  answered := by
    intro i hi
    refine h.effects.outcomes i ?_
    cases h.handles with
    | kept _ _ _ _ hfollowed | closed _ _ _ _ _ _ _ hfollowed =>
      exact hkept.answered i (hfollowed ▸ hi)
    | registered opener fh _ hdelivered _ _ _ _ hfollowed
    | read opener fh hdelivered _ _ _ _ hfollowed =>
      rw [hfollowed] at hi
      rcases List.mem_cons.mp hi with rfl | hi
      · obtain ⟨cb, -, -, -, hout⟩ := delivered_spec hdelivered
        simp [hout]
      · exact hkept.answered i hi
  source := by
    intro type hd p hp
    have mono {cb : CallbackData} (hcb : cb ∈ k.state.created) : cb ∈ k'.state.created := by
      rw [h.effects.created]
      exact List.mem_append_right _ hcb
    have old (hp : p ∈ k.state.objects type) : ∃ cb ∈ k'.state.created,
        cb.entry = .submit type ∧ (.success (.pointer p) ∈ k'.state.outcomes cb.caller ∨
          .completionHook cb (.success (.pointer p)) ∈ k'.state.stack ∧
            k'.state.outcomes cb.caller = []) := by
      obtain ⟨cb, hcb, hentry, hout | ⟨hf, hout⟩⟩ := hkept.source type hd p hp
      · exact ⟨cb, mono hcb, hentry, .inl ((h.results cb.caller).mono hout)⟩
      · refine ⟨cb, mono hcb, hentry, ?_⟩
        cases h.hookStep hk hf with
        | running hf' hout' => exact .inr ⟨hf', hout'.trans hout⟩
        | returned hout' =>
          have hres : k.state.hasResumed cb.caller = false := by
            cases hr : k.state.hasResumed cb.caller with
            | false => rfl
            | true => exact absurd hout (hk.resumption.marked _ hr)
          rw [hout' hres, hout]
          exact .inl (List.mem_singleton.mpr rfl)
    rcases h.noted hd with ⟨heq, -⟩ | ⟨q, hq, -, heq⟩
    · exact old (heq ▸ hp)
    · rw [heq] at hp
      rcases List.mem_cons.mp hp with rfl | hp
      · obtain ⟨f, cb, status, rfl, hs, hentry, hf, hout⟩ := h.brings_hook hq
          fun f cb status data hlabel => by
            subst hlabel
            exact hkept.unwraps cb (h.callback_created hk) type hq.1 hd
        obtain ⟨hcb, hnil, -⟩ := hintime.waiting hk hd hs hentry ha h
        exact ⟨cb, mono hcb, hentry, .inr ⟨hf, by rw [hout]; exact hnil⟩⟩
      · exact old hp
  registered := by
    intro cb hcb hentry hfol p hout
    have old (hfol : cb.caller ∈ k.state.followed) : p ∈ k.state.registrations.map Prod.snd := by
      have hanswered := hkept.answered _ hfol
      rw [h.results_stable hk hanswered] at hout
      exact hkept.registered cb (h.created_old hk hcb hanswered) hentry hfol p hout
    cases h.handles with
    | kept hreg _ _ _ hfollowed | closed _ _ _ hreg _ _ _ hfollowed =>
      exact hreg ▸ old (hfollowed ▸ hfol)
    | registered opener fh _ hdelivered hreg _ _ _ hfollowed =>
      rw [hfollowed] at hfol
      rw [hreg]
      rcases List.mem_cons.mp hfol with rfl | hfol
      · obtain ⟨c, -, -, -, hc⟩ := delivered_spec hdelivered
        rw [h.results_stable hk (by simp [hc]), hc, List.mem_singleton] at hout
        obtain rfl : p = fh := by simpa using hout
        exact List.mem_cons_self ..
      · exact List.mem_cons_of_mem _ (old hfol)
    | read opener dir hdelivered hreg _ _ _ hfollowed =>
      rw [hfollowed] at hfol
      rw [hreg]
      rcases List.mem_cons.mp hfol with rfl | hfol
      · obtain ⟨c, hc, hcaller, hcentry, hcout⟩ := delivered_spec hdelivered
        have hcb := h.created_old hk hcb (by simp [hcout])
        obtain rfl := hk.wellFormed.caller_inj c hc cb hcb hcaller
        cases hentry.symm.trans hcentry
      · exact old hfol
  read := by
    intro hctx cb hcb hentry hfol p hout
    have hctx' := h.context_isSome hctx
    have old (hfol : cb.caller ∈ k.state.followed) : p ∈ k.state.closedDirs := by
      have hanswered := hkept.answered _ hfol
      rw [h.results_stable hk hanswered] at hout
      exact hkept.read hctx' cb (h.created_old hk hcb hanswered) hentry hfol p hout
    cases h.handles with
    | kept _ _ _ _ hfollowed hdirs | closed _ _ _ _ _ _ _ hfollowed hdirs =>
      exact hdirs ▸ old (hfollowed ▸ hfol)
    | registered opener fh _ hdelivered _ _ _ _ hfollowed hdirs =>
      rw [hfollowed] at hfol
      rw [hdirs]
      rcases List.mem_cons.mp hfol with rfl | hfol
      · obtain ⟨c, hc, hcaller, hcentry, hcout⟩ := delivered_spec hdelivered
        have hcb := h.created_old hk hcb (by simp [hcout])
        obtain rfl := hk.wellFormed.caller_inj c hc cb hcb hcaller
        cases hentry.symm.trans hcentry
      · exact old hfol
    | read opener dir hdelivered _ _ _ _ hfollowed hdirs =>
      rcases hdirs with ⟨hdirs, -⟩ | ⟨hnone, -⟩
      · rw [hfollowed] at hfol
        rw [hdirs]
        rcases List.mem_cons.mp hfol with rfl | hfol
        · obtain ⟨c, -, -, -, hc⟩ := delivered_spec hdelivered
          rw [h.results_stable hk (by simp [hc]), hc, List.mem_singleton] at hout
          obtain rfl : p = dir := by simpa using hout
          exact List.mem_cons_self ..
        · exact List.mem_cons_of_mem _ (old hfol)
      · rw [hnone] at hctx
        cases hctx
  registry := by
    intro hctx q hq
    have hctx' := h.context_isSome hctx
    cases h.handles with
    | kept hreg _ hclosed hregistry =>
      rw [hclosed]
      rcases hregistry with hregistry | ⟨hnone, -⟩
      · rw [hregistry]
        exact hkept.registry hctx' q (hreg ▸ hq)
      · rw [hnone] at hctx
        cases hctx
    | closed id fh hlookup hreg _ hclosed hregistry =>
      rw [hclosed, hregistry]
      rw [hreg] at hq
      rcases hkept.registry hctx' q hq with hmem | hmem
      · by_cases hid : q.1 = id
        · have hsafe := ho.handles.safe
          have hown := (hsafe.registry _ (mem_of_lookup hlookup)).1
          have heq : q = (id, fh) := List.inj_on_of_nodup_map hsafe.ids hq hown hid
          exact .inr (heq ▸ List.mem_cons_self ..)
        · exact .inl (List.mem_filter.mpr ⟨hmem, by simpa using hid⟩)
      · exact .inr (List.mem_cons_of_mem _ hmem)
    | registered opener fh _ _ hreg _ hclosed hregistry =>
      rw [hclosed, hregistry]
      rw [hreg] at hq
      rcases List.mem_cons.mp hq with rfl | hq
      · exact .inl (List.mem_cons_self ..)
      · exact (hkept.registry hctx' q hq).imp_left (List.mem_cons_of_mem _)
    | read _ _ _ hreg _ hclosed hregistry =>
      rw [hclosed, hregistry]
      exact hkept.registry hctx' q (hreg ▸ hq)
  accepted := by
    intro cb hcb hentry hfate
    rcases h.fate hfate with hold | ⟨site, c, ran, rest, rfl, hcaller, hran, hstack⟩
    · rw [h.effects.created] at hcb
      rcases List.mem_append.mp hcb with hmade | hcb
      · have hmade : a.made = some cb := by simpa using hmade
        have hnew := (h.made_fresh hmade).2
        exact hkept.fresh cb.caller (by omega) hold
      · exact hkept.accepted cb hcb hentry hold
    · have hc := hk.resumption.held_created hk.wellFormed hstack (Frame.mem_holds_handOver site hran)
      rw [h.effects.created] at hcb
      obtain rfl := hk.wellFormed.caller_inj cb hcb c hc hcaller
      obtain ⟨hcore, rc, view, rfl, hrc⟩ := ha
      rw [hcore] at hstack
      refine haccepts cb ?_ hentry
      simp [refusedCall, hstack, hrc]
  fresh := by
    intro i hi hfate
    have hle := h.effects.nextCaller
    rcases h.fate hfate with hold | ⟨site, c, ran, rest, rfl, hcaller, hran, hstack⟩
    · exact hkept.fresh i (by omega) hold
    · have hc := hk.resumption.held_created hk.wellFormed hstack (Frame.mem_holds_handOver site hran)
      have hlt := hk.wellFormed.caller_lt c hc
      omega

end

/-! ## Accounts -/

/-- Where no hook runs and no second block is missing, every object is accounted for. -/
theorem ObjectsKept.accounted (hkept : ObjectsKept s) (hsafe : s.HandlesSafe)
    (hctx : s.context.isSome) (hhooks : ∀ cb r, Frame.completionHook cb r ∉ s.stack)
    (hclaimed : s.unclaimed = []) : s.Accounted := by
  have claimed (type : OperationType) (hd : type.delivers) {p : Nat} (hp : p ∈ s.objects type) :
      ∃ cb ∈ s.created, cb.entry = .submit type ∧ .success (.pointer p) ∈ s.outcomes cb.caller ∧
        cb.caller ∈ s.followed := by
    obtain ⟨cb, hcb, hentry, hout | ⟨hf, -⟩⟩ := hkept.source type hd p hp
    · refine ⟨cb, hcb, hentry, hout, ?_⟩
      by_contra hfol
      have hdelivers : cb.delivers := by
        simp only [CallbackData.delivers, hentry]
        exact hd
      have hany : (s.outcomes cb.caller).any (·.object.isSome) :=
        List.any_eq_true.mpr ⟨_, hout, rfl⟩
      have hmem : cb ∈ s.unclaimed := List.mem_filter.mpr ⟨hcb, by simp [hdelivers, hfol, hany]⟩
      rw [hclaimed] at hmem
      cases hmem
    · exact absurd hf (hhooks _ _)
  constructor
  · intro fh hfh
    obtain ⟨cb, hcb, hentry, hout, hfol⟩ := claimed .open rfl hfh
    have hreg := hkept.registered cb hcb hentry hfol fh hout
    obtain ⟨q, hq, rfl⟩ := List.mem_map.mp hreg
    rcases hkept.registry hctx q hq with hmem | hmem
    · exact .inr (existsUnique_lookup hsafe.ids hsafe.fhs (fun q hq => (hsafe.registry q hq).1) hmem)
    · exact .inl ⟨hmem, fun c hc hclose _ => hkept.accepted c hc hclose⟩
  · intro dir hdir
    obtain ⟨cb, hcb, hentry, hout, hfol⟩ := claimed .opendir rfl hdir
    exact hkept.read hctx cb hcb hentry hfol dir hout

/-! ## Steps that destroy the context -/

/-- A teardown starts where no completion hook is running. -/
theorem tearsDown_hooks {t : State} (hw : WellFormed s) (h : step s e = some t)
    (ht : s.tearsDown e) (cb : CallbackData) (r : Outcome) : Frame.completionHook cb r ∉ s.stack := by
  intro hf
  have hnested := hw.nested
  cases e with
  | block b =>
    rw [(step_block h).1.1] at hf
    cases hf
  | deinit q =>
    simp only [step] at h
    split at h
    · rename_i hidle
      simp only [Bool.and_eq_true, List.isEmpty_iff] at hidle
      rw [hidle.1.1] at hf
      cases hf
    · cases h
  | ret rc view =>
    simp only [State.tearsDown] at ht
    split at ht
    · rename_i rest hstack
      rw [hstack] at hf hnested
      obtain rfl := hnested.rest_eq_nil rfl
      simp at hf
    · rename_i n rest hstack
      rw [hstack] at hf hnested
      obtain rfl := hnested.rest_eq_nil rfl
      simp at hf
    · cases ht
  | _ => cases ht

/-- Without a context, a step that delivers its objects in time delivers none. -/
theorem step_objects {t : State} (hs : Sound s.config) (hintime : DeliversInTime s e)
    (h : step s e = some t) (hctx : s.context = none) (type : OperationType) (hd : type.delivers) :
    t.objects type = s.objects type := by
  refine (step_invariant_sound h hs (fun k => k.state.objects type = s.objects type) rfl ?_).2
  intro k a k' hk heq ha hact
  rcases hact.noted hd with ⟨hsame, -⟩ | ⟨p, hp, -, -⟩
  · exact hsame.trans heq
  · cases a with
    | callback f cb status data =>
      obtain ⟨hentry, hstatus, rfl⟩ := hp
      obtain ⟨-, -, hsome⟩ := hintime.waiting hk hd hstatus hentry ha hact
      obtain ⟨rfl, -⟩ := ha
      rw [hctx] at hsome
      cases hsome
    | _ => cases hp

/-! ## Runs -/

/-- In a run whose replies deliver their objects to waiting callers, whose closes are accepted and whose
second blocks run before the context is destroyed, every object is closed or in the registry under one
id whenever the loop is quiescent and when its context is destroyed; afterwards none is delivered. -/
theorem objects_accounted {timeout : Int} (hs : Reaches step KeepsObjects (State.init timeout) s) :
    (s.context.isSome → s.Quiescent → s.Accounted) ∧
      ∀ e t, KeepsObjects s e → step s e = some t →
        (s.context.isSome → t.context = none → s.Accounted) ∧
        (s.context = none → t.nfsfhs = s.nfsfhs ∧ t.nfsdirs = s.nfsdirs) := by
  obtain ⟨hsound, ho, hkept⟩ := run_invariant_init hs
    (fun k => ObjectsSafe k.state ∧ ObjectsKept k.state)
    ⟨⟨deliveries_init timeout, handles_init timeout, submitted_init timeout⟩,
      objectsKept_init timeout⟩
    fun _ _ _ _ _ ⟨hunwraps, hintime, haccepts, _⟩ hk ⟨ho, hkept⟩ ha hact =>
      ⟨⟨ho.deliveries.act hk hact, ho.handles.act ho.deliveries hact, ho.submitted.act hact⟩,
        hkept.act hk ho hunwraps hintime haccepts ha hact⟩
  have hsafe := ho.handles.safe
  refine ⟨?_, ?_⟩
  · intro hctx hq
    refine hkept.accounted hsafe hctx ?_ hq.blocks
    intro cb r hf
    have hstack : s.stack = [] := hq.stack
    have hf : Frame.completionHook cb r ∈ s.stack := hf
    rw [hstack] at hf
    cases hf
  · intro e t ⟨_, hintime, _, hclaimed⟩ h
    refine ⟨fun hctx hgone => ?_, fun hctx => ?_⟩
    · have ht := step_context hsound h hctx hgone
      exact hkept.accounted hsafe hctx (tearsDown_hooks hsound.wellFormed h ht) (hclaimed ht hctx)
    · exact ⟨step_objects hsound hintime h hctx .open rfl,
        step_objects hsound hintime h hctx .opendir rfl⟩

/-- A file and a directory are opened, and the file is closed. -/
theorem objects_accounted_closeFile :
    ∃ t, Reaches step KeepsObjects (State.init 60000000000) t ∧ t.nfsfhs = [7] ∧ t.nfsdirs = [8] ∧
      t.Accounted := by
  have hrun : ((run step (State.init 60000000000)
      [.block Block.openFile, .ret 0 {}, .block Block.opendir, .ret 0 {}, .block .handleIOEvent,
        .callback 1 0 (some (.pointer 7)), .callback 2 0 (some (.pointer 8)), .ret 0 {},
        .block (.registerHandle 0), .block (.readdirAll 1), .block (.closeFile 1), .ret 0 {},
        .block .handleIOEvent, .callback 3 0 none, .ret 0 {}]).any fun t =>
      t.nfsfhs = [7] ∧ t.nfsdirs = [8] ∧ t.context.isSome ∧ t.Quiescent) = true := by
    decide +kernel
  have hmeets : meets step (fun s e => decide (KeepsObjects s e)) (State.init 60000000000)
      [.block Block.openFile, .ret 0 {}, .block Block.opendir, .ret 0 {}, .block .handleIOEvent,
        .callback 1 0 (some (.pointer 7)), .callback 2 0 (some (.pointer 8)), .ret 0 {},
        .block (.registerHandle 0), .block (.readdirAll 1), .block (.closeFile 1), .ret 0 {},
        .block .handleIOEvent, .callback 3 0 none, .ret 0 {}] = true := by
    decide +kernel
  obtain ⟨t, ht, hfacts⟩ := (Option.any_eq_true _ _).mp hrun
  obtain ⟨hfhs, hdirs, hctx, hquiet⟩ := of_decide_eq_true hfacts
  have hreaches := reaches_of_run (fun _ _ => of_decide_eq_true) ht hmeets
  exact ⟨t, hreaches, hfhs, hdirs, (objects_accounted hreaches).1 hctx hquiet⟩

/-- The reply to an open comes after its caller timed out, and a close is refused: each time the loop
comes to rest with its context alive and the `nfsfh` neither closed nor registered. -/
theorem object_leaks :
    (∃ t, run step (State.init 60000000000) (mountEvents ++
      [.block Block.openFile, .ret 0 .connected, .tick 60000000001, .block .scanForTimeouts,
        .block .handleIOEvent, .callback 2 0 (some (.pointer 7)), .ret 0 .connected]) = some t ∧
      t.context.isSome ∧ t.Quiescent ∧ ¬ t.Accounted) ∧
    ∃ t, run step (State.init 60000000000) (openEvents 7 ++
      [.block (.closeFile 1), .ret (-12) .connected, .block (.closeFileFireAndForget 1)]) = some t ∧
      t.context.isSome ∧ t.Quiescent ∧ ¬ t.Accounted := by
  constructor
  · have hrun : ((run step (State.init 60000000000) (mountEvents ++
        [.block Block.openFile, .ret 0 .connected, .tick 60000000001, .block .scanForTimeouts,
          .block .handleIOEvent, .callback 2 0 (some (.pointer 7)), .ret 0 .connected])).any fun t =>
        t.context.isSome ∧ t.Quiescent ∧ t.nfsfhs = [7] ∧ t.closedHandles = [] ∧
          t.handleRegistry = []) = true := by
      decide +kernel
    obtain ⟨t, ht, hfacts⟩ := (Option.any_eq_true _ _).mp hrun
    obtain ⟨hctx, hquiet, hfhs, hclosed, hregistry⟩ := of_decide_eq_true hfacts
    refine ⟨t, ht, hctx, hquiet, fun hacc => ?_⟩
    rcases hacc.handles 7 (by simp [hfhs]) with ⟨hmem, -⟩ | ⟨id, hid, -⟩
    · simp [hclosed] at hmem
    · simp [hregistry] at hid
  · have hrun : ((run step (State.init 60000000000) (openEvents 7 ++
        [.block (.closeFile 1), .ret (-12) .connected, .block (.closeFileFireAndForget 1)])).any fun t =>
        t.context.isSome ∧ t.Quiescent ∧ t.nfsfhs = [7] ∧ t.handleRegistry = [] ∧
          ∃ cb ∈ t.created, cb.entry = .closeFile ∧ cb.handle = some 7 ∧
            t.fates cb.caller = some .rejected) = true := by
      decide +kernel
    obtain ⟨t, ht, hfacts⟩ := (Option.any_eq_true _ _).mp hrun
    obtain ⟨hctx, hquiet, hfhs, hregistry, cb, hcb, hentry, hhandle, hfate⟩ :=
      of_decide_eq_true hfacts
    refine ⟨t, ht, hctx, hquiet, fun hacc => ?_⟩
    rcases hacc.handles 7 (by simp [hfhs]) with ⟨-, haccepted⟩ | ⟨id, hid, -⟩
    · exact haccepted cb hcb hentry hhandle hfate
    · simp [hregistry] at hid

end NFSKit
