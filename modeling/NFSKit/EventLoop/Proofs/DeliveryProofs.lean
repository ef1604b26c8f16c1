import NFSKit.EventLoop.Objects
import NFSKit.EventLoop.Proofs.RequestProofs

/-!
# How objects are delivered

A caller receives an object only at the end of a completion hook, and the hook has it from a callback
that has just delivered it: every object has one operation as its source.
-/

namespace NFSKit

open Machine

variable {s s' : State} {k k' : Config} {a : Action}

/-! ## What the callers receive -/

/-- What an action may do to a caller: nothing, or it adds one result. -/
inductive Results (s s' : State) (i : Nat) : Action → Prop where
  | same {a : Action} (h : s'.outcomes i = s.outcomes i) : Results s s' i a
  | failed {a : Action} (r : Outcome) (h : s'.outcomes i = s.outcomes i ++ [r])
      (hr : r.isSuccess = false) : Results s s' i a
  | immediate (r : Outcome) (h : s'.outcomes i = s.outcomes i ++ [r]) (hi : i = s.nextCaller) :
      Results s s' i (.immediate r)
  /-- The completion hook that was running returns. -/
  | hooked (cb : CallbackData) (r : Outcome) (rest : List Frame)
      (h : s'.outcomes i = s.outcomes i ++ [r]) (hi : i = cb.caller)
      (hstack : s.stack = .completionHook cb r :: rest) : Results s s' i .finishHook

namespace Results

/-- A failure is the last thing that happens to the callers. -/
theorem resume {t : State} (h : t.outcomes = s.outcomes) (cb : CallbackData) {r : Outcome}
    (hr : r.isSuccess = false) (i : Nat) : Results s (t.resume cb r) i a := by
  have hout := t.resume_outcomes cb r i
  rw [h] at hout
  split at hout
  · exact .failed r hout hr
  · exact .same hout

theorem resumeContinuation {t : State} (h : t.outcomes = s.outcomes) (j : Nat) {r : Outcome}
    (hr : r.isSuccess = false) (i : Nat) : Results s (t.resumeContinuation j r) i a := by
  by_cases hi : i = j
  · subst hi
    refine .failed r ?_ hr
    simp [State.resumeContinuation, h]
  · refine .same ?_
    rw [State.resumeContinuation_of_ne _ hi, h]

theorem endTeardown {t : State} (h : t.outcomes = s.outcomes) (kind : Teardown)
    (l : List CallbackData) (i : Nat) : Results s (t.endTeardown kind l) i a := by
  obtain ⟨bulk, metadata, counts, heq⟩ := State.endTeardown_eq t kind l
  rw [State.foldl_resume_eq] at heq
  by_cases hi : t.hasResumed i = false ∧ i ∈ l.map CallbackData.caller
  · refine .failed (.failure .ENOTCONN) ?_ rfl
    rw [heq]
    simp only [hi, h, if_true, true_and]
  · refine .same ?_
    rw [heq]
    simp only [hi, h, if_false]

end Results

/-- What each action adds to the results of a caller. -/
theorem Act.results (h : Act k a k') (i : Nat) : Results k.state k'.state i a := by
  cases h with
  | silent hcore => exact .same (by rw [hcore])
  | @immediate s r =>
    by_cases hi : i = s.nextCaller
    · subst hi
      exact .immediate r (by simp [State.resumeContinuation, State.newCaller]) rfl
    · exact .same (State.resumeContinuation_of_ne _ hi)
  | overflow _ _ _ _ _ hr =>
    refine .resumeContinuation ?_ _ hr i
    rfl
  | @expire s cb =>
    dsimp only [State.expire]
    refine .resume ?_ cb rfl i
    rw [State.recordCompletion_eq]
    rfl
  | callback _ _ htake hnote =>
    obtain ⟨out, fhs, dirs, b, r, -, heq⟩ := State.callback_eq htake hnote
    rw [State.recordCompletion_eq, heq]
    exact .same rfl
  | callbackDead _ _ htake hnote =>
    obtain ⟨out, fhs, dirs, b, r, -, heq⟩ := State.callback_eq htake hnote
    rw [heq]
    exact .same rfl
  | @finishHook s =>
    unfold State.finishHook
    split
    · rename_i cb r rest hstack
      have hout := ({ s with stack := rest } : State).resume_outcomes cb r i
      split at hout
      · rename_i hi
        exact .hooked cb r rest hout hi.1 hstack
      · exact .same hout
    · exact .same rfl
  | accept =>
    rw [State.enqueueRequest_eq]
    split <;> exact .same rfl
  | reject _ _ hr | rejectPending _ _ hr =>
    refine .resume ?_ _ hr i
    rfl
  | rejectRaw _ _ _ hr | rejectHandle _ _ hr | exportsFailed _ hr =>
    refine .resumeContinuation ?_ _ hr i
    rfl
  | @enterDestroy s kind => cases kind <;> exact .same rfl
  | leaveDestroy =>
    refine .endTeardown ?_ _ _ i
    rfl
  | @teardownNow s kind =>
    refine .endTeardown ?_ kind _ i
    cases kind <;> rfl
  | _ => exact .same rfl

/-! ## What the callbacks deliver -/

/-- Only a successful reply that carries an object has it as its result. -/
theorem State.settle_pointer {cb : CallbackData} {status : Int} {data : Option Value} {p : Nat}
    (h : (s.settle cb status data).1 = .success (.pointer p)) (hentry : cb.entry ≠ .getexports) :
    0 ≤ status ∧ data = some (.pointer p) := by
  unfold State.settle at h
  simp only [if_neg hentry] at h
  by_cases hs : status < 0
  · simp [hs] at h
  · simp only [hs, if_false] at h
    refine ⟨by omega, ?_⟩
    unfold State.dataHandler at h
    cases hh : cb.dataHandler with
    | unwrap =>
      rw [hh] at h
      cases data with
      | none => cases h
      | some v => simpa using h
    | offset =>
      rw [hh] at h
      cases data with
      | none => simp at h
      | some v => simpa using h
    | takeBuffer =>
      simp only [hh] at h
      split at h <;> cases h
    | exports =>
      simp only [hh] at h
      split at h <;> cases h
    | _ => simp [hh] at h

/-- A reply that delivers an object of the type. -/
def Action.brings (type : OperationType) (p : Nat) : Action → Prop
  | .callback _ cb status data => cb.entry = .submit type ∧ 0 ≤ status ∧ data = some (.pointer p)
  | _ => False

/-- What is noted of the objects of a type: the one that a reply brings, and it is new. -/
def Noted (type : OperationType) (s s' : State) (a : Action) : Prop :=
  (s'.objects type = s.objects type ∧ ∀ p, ¬ a.brings type p) ∨
    ∃ p, a.brings type p ∧ p ∉ s.objects type ∧ s'.objects type = p :: s.objects type

theorem Noted.same {type : OperationType} (hfhs : s'.nfsfhs = s.nfsfhs)
    (hdirs : s'.nfsdirs = s.nfsdirs) (ha : ∀ p, ¬ a.brings type p) : Noted type s s' a := by
  refine .inl ⟨?_, ha⟩
  cases type <;> first | exact hfhs | exact hdirs | rfl

theorem State.noteDelivery_noted {type : OperationType} {f : Frame} {cb : CallbackData}
    {status : Int} {data : Option Value} (hd : type.delivers)
    (h : s.noteDelivery cb status data = some s') :
    Noted type s s' (.callback f cb status data) := by
  unfold State.noteDelivery at h
  split at h
  · rename_i hs
    obtain rfl := Option.some.inj h
    exact .inl ⟨rfl, fun p hp => absurd hp.2.1 (by omega)⟩
  · rename_i hs
    split at h
    · rename_i p hentry
      split at h
      · cases h
      · rename_i hp
        obtain rfl := Option.some.inj h
        cases type with
        | «open» => exact .inr ⟨p, ⟨hentry, by omega, rfl⟩, hp, rfl⟩
        | opendir => exact .inl ⟨rfl, fun q hq => by cases hentry.symm.trans hq.1⟩
        | _ => cases hd
    · rename_i p hentry
      split at h
      · cases h
      · rename_i hp
        obtain rfl := Option.some.inj h
        cases type with
        | opendir => exact .inr ⟨p, ⟨hentry, by omega, rfl⟩, hp, rfl⟩
        | «open» => exact .inl ⟨rfl, fun q hq => by cases hentry.symm.trans hq.1⟩
        | _ => cases hd
    · rename_i hopen hopendir
      obtain rfl := Option.some.inj h
      refine .inl ⟨rfl, fun p hp => ?_⟩
      cases type with
      | «open» => exact hopen p hp.1 hp.2.2
      | opendir => exact hopendir p hp.1 hp.2.2
      | _ => cases hd

/-- A callback that enters its completion hook notes what it brings. -/
theorem State.enterHook_noted {s₁ s₂ : State} {type : OperationType} {f : Frame}
    {rest : List Frame} {cb : CallbackData} {status : Int} {data : Option Value}
    (hd : type.delivers) (htake : s.takeRequest f rest cb.continuationID = some (cb, s₁))
    (hnote : s₁.noteDelivery cb status data = some s₂) :
    Noted type s (s₂.enterHook cb status data) (.callback f cb status data) := by
  have htaken : s₁.objects type = s.objects type := by
    obtain ⟨-, ⟨-, rfl⟩ | ⟨r, -, -, -, rfl⟩⟩ := State.takeRequest_cases htake <;>
      cases type <;> rfl
  have henter : (s₂.enterHook cb status data).objects type = s₂.objects type := by
    obtain ⟨b, r, heq⟩ := s₂.enterHook_eq cb status data
    rw [heq]
    cases type <;> rfl
  unfold Noted
  rw [henter, ← htaken]
  exact State.noteDelivery_noted hd hnote

/-- The objects delivered so far: a reply adds the one it brings. -/
theorem Act.noted (h : Act k a k') {type : OperationType} (hd : type.delivers) :
    Noted type k.state k'.state a := by
  cases h with
  | silent hcore => exact .same (by rw [hcore]) (by rw [hcore]) (by simp [Action.brings])
  | callback _ _ htake hnote =>
    have henter := State.enterHook_noted hd htake hnote
    dsimp only
    rw [State.recordCompletion_eq]
    unfold Noted at henter ⊢
    dsimp only [State.removeActive]
    cases type <;> exact henter
  | callbackDead _ _ htake hnote => exact State.enterHook_noted hd htake hnote
  | expire =>
    dsimp only [State.expire]
    rw [State.resume_eq, State.recordCompletion_eq]
    exact .same rfl rfl (by simp [Action.brings])
  | @finishHook s =>
    obtain ⟨stack, resumed, outcomes, failed, heq⟩ := State.finishHook_eq s
    rw [heq]
    exact .same rfl rfl (by simp [Action.brings])
  | start =>
    dsimp only [State.handOver, State.passRetained, State.register, State.newCaller]
    exact .same rfl rfl (by simp [Action.brings])
  | immediate | overflow =>
    dsimp only [State.resumeContinuation, State.removeActive, State.register, State.newCaller]
    exact .same rfl rfl (by simp [Action.brings])
  | accept =>
    rw [State.enqueueRequest_eq]
    split <;> exact .same rfl rfl (by simp [Action.brings])
  | reject | rejectPending =>
    rw [State.resume_eq]
    exact .same rfl rfl (by simp [Action.brings])
  | @enterDestroy s kind => cases kind <;> exact .same rfl rfl (by simp [Action.brings])
  | @leaveDestroy s kind conts rest =>
    obtain ⟨bulk, metadata, counts, heq⟩ :=
      State.endTeardown_eq ((s.leaveTo rest).dropRequests .nfs) kind conts
    rw [heq, State.foldl_resume_eq]
    exact .same rfl rfl (by simp [Action.brings])
  | @teardownNow s kind =>
    obtain ⟨bulk, metadata, counts, heq⟩ :=
      State.endTeardown_eq (s.clearRegistries kind) kind s.activeContinuations
    rw [heq, State.foldl_resume_eq]
    cases kind <;> exact .same rfl rfl (by simp [Action.brings])
  | _ => exact .same rfl rfl (by simp [Action.brings])

theorem State.enterHook_stack (s : State) (cb : CallbackData) (status : Int) (data : Option Value) :
    ∃ u : State, (s.enterHook cb status data).stack =
      .completionHook cb (u.settle cb status data).1 :: s.stack := by
  obtain ⟨b, hb⟩ := State.settle_eq ((s.setFate cb.caller (.called status)).release cb) cb status data
  refine ⟨(s.setFate cb.caller (.called status)).release cb, ?_⟩
  unfold State.enterHook
  dsimp only
  rw [hb]
  rfl

/-- Below a completion hook that is entered, only the innermost call changes. -/
theorem State.mem_enterHook {s₁ s₂ : State} {f : Frame} {rest : List Frame} {cb c : CallbackData}
    {status : Int} {data : Option Value} {r : Outcome} (hstack : s.stack = f :: rest)
    (htake : s.takeRequest f rest cb.continuationID = some (cb, s₁))
    (hnote : s₁.noteDelivery cb status data = some s₂)
    (hf : Frame.completionHook c r ∈ (s₂.enterHook cb status data).stack) :
    Frame.completionHook c r ∈ s.stack ∨
      c = cb ∧ ∃ u : State, r = (u.settle cb status data).1 := by
  obtain ⟨u, hu⟩ := s₂.enterHook_stack cb status data
  have hs₂ : s₂.stack = f.noteCallback cb.caller :: rest := by
    obtain ⟨fhs, dirs, rfl⟩ := State.noteDelivery_eq hnote
    obtain ⟨-, ⟨-, rfl⟩ | ⟨q, -, -, -, rfl⟩⟩ := State.takeRequest_cases htake <;> rfl
  rw [hu, hs₂] at hf
  rw [hstack]
  rcases List.mem_cons.mp hf with heq | hf
  · injection heq with h₁ h₂
    exact .inr ⟨h₁, u, h₂⟩
  · refine .inl ?_
    rcases List.mem_cons.mp hf with heq | hf
    · cases f with
      | handOver => cases heq
      | _ => exact List.mem_cons.mpr (.inl heq)
    · exact List.mem_cons_of_mem _ hf

/-- A completion hook that is running was running before, or its callback has just made its result. -/
theorem Act.hook_mem (h : Act k a k') {cb : CallbackData} {r : Outcome}
    (hf : Frame.completionHook cb r ∈ k'.state.stack) :
    Frame.completionHook cb r ∈ k.state.stack ∨ ∃ f status data, a = .callback f cb status data ∧
      ∃ u : State, r = (u.settle cb status data).1 := by
  rcases h.effects.frames _ hf with hmem | ⟨g, hg, _, _, _, -, heq⟩ | hpush
  · exact .inl hmem
  · cases g with
    | handOver => cases heq
    | _ => exact .inl (heq ▸ hg)
  · cases h with
    | callback _ hstack htake hnote =>
      rw [State.recordCompletion_eq] at hf
      rcases State.mem_enterHook hstack htake hnote hf with hmem | ⟨rfl, hu⟩
      · exact .inl hmem
      · exact .inr ⟨_, _, _, rfl, hu⟩
    | callbackDead _ hstack htake hnote =>
      rcases State.mem_enterHook hstack htake hnote hf with hmem | ⟨rfl, hu⟩
      · exact .inl hmem
      · exact .inr ⟨_, _, _, rfl, hu⟩
    | enter _ hservice =>
      have hpush : Frame.completionHook cb r = _ := hpush
      obtain rfl | ⟨n, rfl⟩ := hservice <;> cases hpush
    | enterDestroy | reject | rejectPending | rejectRaw | rejectHandle | rejectExports =>
      obtain ⟨_, h⟩ := hpush
      cases h
    | _ => cases hpush

/-! ## Who has the objects -/

/-- A completion hook belongs to an operation of the loop. -/
theorem hook_created (hw : WellFormed s) {cb : CallbackData} {r : Outcome}
    (h : Frame.completionHook cb r ∈ s.stack) : cb ∈ s.created := by
  refine hw.tokens_created cb ?_
  have hmem : cb ∈ s.stack.flatMap Frame.holds :=
    List.mem_flatMap.mpr ⟨_, h, List.mem_singleton.mpr rfl⟩
  have hpos := List.count_pos_iff.mpr hmem
  unfold Core.tokens
  omega

/-- Only operations of the loop are called back. -/
theorem Act.callback_created (hk : Sound k) {f : Frame} {cb : CallbackData} {status : Int}
    {data : Option Value} (h : Act k (.callback f cb status data) k') : cb ∈ k.state.created := by
  have hw' := hk.wellFormed.act h
  cases h with
  | callback _ _ htake hnote =>
    obtain ⟨out, fhs, dirs, b, r, -, heq⟩ := State.callback_eq htake hnote
    rw [State.recordCompletion_eq, heq] at hw'
    exact hook_created hw' (List.mem_cons_self ..)
  | callbackDead _ _ htake hnote =>
    obtain ⟨out, fhs, dirs, b, r, -, heq⟩ := State.callback_eq htake hnote
    rw [heq] at hw'
    exact hook_created hw' (List.mem_cons_self ..)

/-- An operation that is just being made has no result yet. -/
theorem Act.made_unanswered (hk : Sound k) (h : Act k a k') {cb : CallbackData}
    (hmade : a.made = some cb) {v : Value} :
    .success v ∉ k'.state.outcomes cb.caller ∧
      Frame.completionHook cb (.success v) ∉ k'.state.stack := by
  have hcaller := (h.made_fresh hmade).2
  have hnil := (hk.resumption.fresh cb.caller (by omega)).1
  have hnew {c : CallbackData} {r : Outcome} (hc : Frame.completionHook c r ∈ k.state.stack) :
      c.caller ≠ cb.caller := by
    have hlt := hk.wellFormed.caller_lt c (hook_created hk.wellFormed hc)
    omega
  constructor
  · intro hout
    cases h.results cb.caller with
    | same heq =>
      rw [heq, hnil] at hout
      cases hout
    | failed r heq hr =>
      rw [heq, hnil, List.nil_append, List.mem_singleton] at hout
      subst hout
      cases hr
    | immediate r heq hi => cases hmade
    | hooked c r rest heq hi hstack => exact hnew (hstack ▸ List.mem_cons_self ..) hi.symm
  · intro hf
    rcases h.hook_mem hf with hf | ⟨f, status, data, rfl, -⟩
    · exact hnew hf rfl
    · cases hmade

/-- Whoever has an object had it before, or a reply has just brought it. -/
theorem Act.delivers (hk : Sound k) (h : Act k a k') {type : OperationType} {cb : CallbackData}
    {p : Nat} (hcb : k'.state.Delivers type cb p) :
    k.state.Delivers type cb p ∨
      a.brings type p ∧ ∃ f status data, a = .callback f cb status data := by
  obtain ⟨hd, hcreated, hentry, hresult⟩ := hcb
  have hw := hk.wellFormed
  have hold : cb ∈ k.state.created := by
    rw [h.effects.created] at hcreated
    rcases List.mem_append.mp hcreated with hmade | hcb
    · have hmade : a.made = some cb := by simpa using hmade
      obtain ⟨hout, hf⟩ := h.made_unanswered hk hmade (v := .pointer p)
      exact absurd hresult (not_or.mpr ⟨hout, hf⟩)
    · exact hcb
  have hlt := hw.caller_lt cb hold
  rcases hresult with hout | hframe
  · refine .inl ⟨hd, hold, hentry, ?_⟩
    cases h.results cb.caller with
    | same heq => exact .inl (heq ▸ hout)
    | failed r heq hr =>
      rw [heq] at hout
      rcases List.mem_append.mp hout with hout | hout
      · exact .inl hout
      · obtain rfl := List.mem_singleton.mp hout
        cases hr
    | immediate r heq hi => omega
    | hooked c r rest heq hi hstack =>
      rw [heq] at hout
      rcases List.mem_append.mp hout with hout | hout
      · exact .inl hout
      · have hframe : Frame.completionHook c r ∈ k.state.stack := hstack ▸ List.mem_cons_self ..
        obtain rfl := hw.caller_inj cb hold c (hook_created hw hframe) hi
        obtain rfl := List.mem_singleton.mp hout
        exact .inr hframe
  · rcases h.hook_mem hframe with hframe | ⟨f, status, data, rfl, u, hu⟩
    · exact .inl ⟨hd, hold, hentry, .inr hframe⟩
    · obtain ⟨hs, hdata⟩ := State.settle_pointer hu.symm (by rw [hentry]; simp)
      exact .inr ⟨⟨hentry, hs, hdata⟩, f, status, data, rfl⟩

/-- A reply brings one object, and it is new. -/
theorem Act.brings_fresh (h : Act k a k') {type : OperationType} (hd : type.delivers) {p : Nat}
    (hp : a.brings type p) :
    p ∉ k.state.objects type ∧ k'.state.objects type = p :: k.state.objects type := by
  rcases h.noted hd with ⟨-, hnone⟩ | ⟨q, hq, hfresh, heq⟩
  · exact absurd hp (hnone p)
  · obtain rfl : p = q := by
      cases a with
      | callback f cb status data => simpa using hp.2.2.symm.trans hq.2.2
      | _ => cases hp
    exact ⟨hfresh, heq⟩

/-- Every object has one operation as its source. -/
structure Deliveries (s : State) : Prop where
  noted : ∀ type cb p, s.Delivers type cb p → p ∈ s.objects type
  unique : ∀ type cb c p, s.Delivers type cb p → s.Delivers type c p → cb = c

theorem Deliveries.act (hk : Sound k) (hdel : Deliveries k.state) (h : Act k a k') :
    Deliveries k'.state where
  noted := by
    intro type cb p hcb
    rcases h.delivers hk hcb with hold | ⟨hbrings, -⟩
    · have hmem := hdel.noted type cb p hold
      rcases h.noted hcb.delivers with ⟨heq, -⟩ | ⟨q, -, -, heq⟩
      · exact heq ▸ hmem
      · exact heq ▸ List.mem_cons_of_mem _ hmem
    · exact (h.brings_fresh hcb.delivers hbrings).2 ▸ List.mem_cons_self ..
  unique := by
    intro type cb c p hcb hc
    rcases h.delivers hk hcb with hold | ⟨hbrings, f, status, data, rfl⟩
    · rcases h.delivers hk hc with hold' | ⟨hbrings, -⟩
      · exact hdel.unique type cb c p hold hold'
      · exact absurd (hdel.noted type cb p hold) (h.brings_fresh hcb.delivers hbrings).1
    · rcases h.delivers hk hc with hold' | ⟨-, f', status', data', heq⟩
      · exact absurd (hdel.noted type c p hold') (h.brings_fresh hcb.delivers hbrings).1
      · injection heq

theorem deliveries_init (timeout : Int) : Deliveries (State.init timeout) where
  noted := fun type cb p h => by cases h.created
  unique := fun type cb c p h => by cases h.created

end NFSKit
