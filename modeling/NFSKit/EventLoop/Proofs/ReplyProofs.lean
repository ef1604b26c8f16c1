import NFSKit.EventLoop.Replies
import NFSKit.EventLoop.Proofs.CallLogProofs
import NFSKit.EventLoop.Proofs.FailureProofs

/-!
# Every caller is told of its own reply

The callbacks of several operations can be in progress at once, one inside the completion hook of another.
The results are not mixed up: a caller that waits is told what its own reply says and nothing else, and a
reply that comes too late changes nothing.
-/

namespace NFSKit

open Machine

variable {s t : State} {k k' : Config} {a : Action} {e : Event} {cb : CallbackData} {q : Reply} {r : Outcome}

/-! ## What the callbacks make of a reply -/

theorem State.dataHandler_fst (s : State) (cb : CallbackData) (status : Int) (data : Option Value) :
    (s.dataHandler cb status data).1 = cb.dataHandler.result status data := by
  unfold State.dataHandler
  cases cb.dataHandler with
  | unwrap => cases data <;> rfl
  | exports =>
    cases data with
    | none => rfl
    | some v => cases v <;> rfl
  | takeBuffer =>
    dsimp only [DataHandler.result]
    split
    · rw [max_eq_right (by omega)]
    · rw [max_eq_left (by omega)]
  | _ => rfl

/-- The result does not depend on the state of the loop. -/
theorem State.settle_fst (s : State) (cb : CallbackData) (q : Reply) :
    (s.settle cb q.status q.data).1 = cb.told q := by
  have hhandler := s.dataHandler_fst cb q.status q.data
  unfold State.settle CallbackData.told
  dsimp only
  split
  · split
    · rfl
    · exact hhandler
  · split
    · rfl
    · exact hhandler

/-! ## One reply -/

theorem State.drainLoop_fates (s : State) (n i : Nat) : (s.drainLoop n i).fates = s.fates := by
  have hfinish : s.finishHook.fates = s.fates := by
    obtain ⟨stack, resumed, outcomes, failed, heq⟩ := State.finishHook_eq s
    rw [heq]
  induction n generalizing i with
  | zero => exact hfinish
  | succ n ih =>
    unfold State.drainLoop
    split
    · exact hfinish
    · split
      · rfl
      · exact ih (i + 1)

theorem State.completionHook_fates (s : State) (cb : CallbackData) (ok : Bool) :
    (s.completionHook cb ok).fates = s.fates := by
  have hissue (u : State) (hu : u.fates = s.fates) : u.issuePendingOperations.fates = s.fates := by
    unfold State.issuePendingOperations
    split
    · obtain ⟨stack, resumed, outcomes, failed, heq⟩ := State.finishHook_eq u
      rw [heq]
      exact hu
    · exact (State.drainLoop_fates _ _ _).trans hu
  unfold State.completionHook State.handleCallbackCompletion
  split
  · refine hissue _ ?_
    rw [State.recordCompletion_eq]
    split <;> rfl
  · obtain ⟨stack, resumed, outcomes, failed, heq⟩ := State.finishHook_eq s
    rw [heq]

/-- A caller that waits has not been resumed. -/
theorem Resumption.unmarked (hr : Resumption s) {i : Nat} (hi : s.outcomes i = []) :
    s.hasResumed i = false := by
  by_contra hres
  exact hr.marked i (by simpa using hres) hi

/-- What a callback does to its operation. -/
theorem fireCallback_told {id : Nat} {status : Int} {data : Option Value} (hs : Sound s.config)
    (h : s.fireCallback id status data = some t) : ∃ cb, 0 < s.requests cb ∧
      cb.continuationID = id ∧ t.fates cb.caller = some (.called status) ∧
      ∀ q : Reply, q.status = status → q.data = data → s.outcomes cb.caller = [] →
        t.Owes cb (cb.told q) := by
  unfold State.fireCallback at h
  split at h
  · cases h
  · rename_i f rest hstack
    simp only [Option.bind_eq_some_iff, Option.map_eq_some_iff] at h
    obtain ⟨⟨cb, s₁⟩, htake, s₂, hnote, rfl⟩ := h
    obtain ⟨out, fhs, dirs, b, x, htaken, heq⟩ := State.callback_eq htake hnote
    refine ⟨cb, requests_pos_of_taken hstack htaken, (State.takeRequest_cases htake).1, ?_, ?_⟩
    · rw [State.runCallback_eq, State.completionHook_fates, heq]
      exact Function.update_self ..
    · rintro q rfl rfl hout
      obtain ⟨v, hv⟩ := s₂.enterHook_stack cb q.status q.data
      have hx : x = cb.told q := by
        rw [heq] at hv
        injection hv with htop
        injection htop with _ hx
        rw [hx, State.settle_fst]
      rw [State.runCallback_eq, heq, hx]
      apply State.completionHook_owes
      · rfl
      · exact hout
      · exact hs.resumption.unmarked hout

/-! ## Late replies -/

/-- Whoever has given up has done so for good. -/
theorem State.GaveUp.act (hr : k.state.GaveUp r) (h : Act k a k') : k'.state.GaveUp r := by
  rcases hr with htimeout | ⟨hshut, hctx⟩
  · exact .inl htimeout
  · refine .inr ⟨hshut, ?_⟩
    by_contra hsome
    have hold := h.context_isSome (Option.isSome_iff_ne_none.mpr hsome)
    rw [hctx] at hold
    cases hold

theorem State.GaveUp.step (hr : s.GaveUp r) (hs : Sound s.config) (h : step s e = some t) : t.GaveUp r :=
  (step_invariant_sound h hs (fun k => k.state.GaveUp r) hr fun _ _ _ _ hI _ hact => hI.act hact).2

/-- As long as its operation is requested, a caller waits or gives up. -/
def Patient (s : State) : Prop := ∀ cb, 0 < s.requests cb → ∀ r ∈ s.outcomes cb.caller, s.GaveUp r

theorem Patient.act (hk : Sound k) (hp : Patient k.state) (h : Act k a k') : Patient k'.state := by
  intro cb hcb r hr
  have before (hr : r ∈ k.state.outcomes cb.caller) : k'.state.GaveUp r := by
    by_cases hmade : a.made = some cb
    · have hcaller := (h.made_fresh hmade).2
      rw [(hk.resumption.fresh cb.caller (by omega)).1] at hr
      cases hr
    · exact (hp cb (hcb.trans_le (h.requests_le hmade)) r hr).act h
  cases h.untouched hk hcb with
  | same heq => exact before (heq ▸ hr)
  | expired =>
    cases h with
    | expire =>
      rw [State.expire_outcomes] at hr
      split at hr
      · rcases List.mem_append.mp hr with hr | hr
        · exact before hr
        · exact .inl (List.mem_singleton.mp hr)
      · exact before hr
  | @tornDown kind conts =>
    cases h with
    | @leaveDestroy s _ _ rest hstack =>
      obtain ⟨bulk, metadata, counts, heq⟩ :=
        State.endTeardown_eq ((s.leaveTo rest).dropRequests .nfs) kind conts
      rw [heq, State.foldl_resume_eq] at hr
      dsimp only at hr
      split at hr
      · rcases List.mem_append.mp hr with hr | hr
        · exact before hr
        · refine .inr ⟨List.mem_singleton.mp hr, ?_⟩
          rw [State.endTeardown_context]
          exact hk.ending.destroyed kind conts (hstack ▸ List.mem_cons_self ..)
      · exact before hr

theorem patient_of_reachable {timeout : Int} (h : Reachable step (State.init timeout) s) : Patient s := by
  refine (run_invariant_init h (fun k => Patient k.state) ?_ fun _ _ _ _ _ _ hk hp _ hact => hp.act hk hact).2
  intro cb hcb r hr
  cases hr

/-! ## The replies and the callers -/

/-- One of the replies is to `cb`, and it says `r`. -/
def Says (replies : List Reply) (cb : CallbackData) (r : Outcome) : Prop :=
  ∃ q ∈ replies, q.id = cb.continuationID ∧ cb.told q = r

/-- What the completion hooks bring, and the successes that the callers have received, are what replies
say. -/
structure Sourced (replies : List Reply) (s : State) : Prop where
  hooks : ∀ cb r, Frame.completionHook cb r ∈ s.stack → Says replies cb r
  successes : ∀ cb ∈ s.created, ∀ v, .success v ∈ s.outcomes cb.caller → Says replies cb (.success v)

theorem Sourced.act {replies : List Reply} (hk : Sound k) (hsrc : Sourced replies k.state)
    (h : Act k a k') (hreply : ∀ f cb status data, a = .callback f cb status data →
      ∃ q ∈ replies, q.id = cb.continuationID ∧ q.status = status ∧ q.data = data) :
    Sourced replies k'.state where
  hooks := by
    intro cb r hf
    rcases h.hook_mem hf with hf | ⟨f, status, data, hcall, u, rfl⟩
    · exact hsrc.hooks cb r hf
    · obtain ⟨q, hq, hid, rfl, rfl⟩ := hreply f cb status data hcall
      exact ⟨q, hq, hid, (u.settle_fst cb q).symm⟩
  successes := by
    intro cb hcb v hv
    have hold : cb ∈ k.state.created := by
      rw [h.effects.created] at hcb
      rcases List.mem_append.mp hcb with hmade | hcb
      · exact absurd hv (h.made_unanswered hk (Option.mem_toList.mp hmade)).1
      · exact hcb
    have hlt := hk.wellFormed.caller_lt cb hold
    cases h.results cb.caller with
    | same heq => exact hsrc.successes cb hold v (heq ▸ hv)
    | failed r heq hr =>
      rw [heq] at hv
      rcases List.mem_append.mp hv with hv | hv
      · exact hsrc.successes cb hold v hv
      · rw [← List.mem_singleton.mp hv] at hr
        cases hr
    | immediate r heq hi => omega
    | hooked c r rest heq hi hstack =>
      rw [heq] at hv
      rcases List.mem_append.mp hv with hv | hv
      · exact hsrc.successes cb hold v hv
      · have hframe : Frame.completionHook c r ∈ k.state.stack := hstack ▸ List.mem_cons_self ..
        obtain rfl := hk.wellFormed.caller_inj cb hold c (hook_created hk.wellFormed hframe) hi
        rw [List.mem_singleton.mp hv]
        exact hsrc.hooks cb r hframe

/-- What ties the callers to the replies. -/
structure Faithful (w : Replied) : Prop where
  /-- A reply settles an operation of the loop. -/
  settles : ∀ q ∈ w.notes, ∃ cb ∈ w.state.created,
    cb.continuationID = q.id ∧ w.state.fates cb.caller ≠ none
  once : (w.notes.map Reply.id).Nodup
  sourced : Sourced w.notes w.state
  awaited : ∀ q ∈ w.notes, q.awaited → ∀ cb ∈ w.state.created, cb.continuationID = q.id →
    w.state.Owes cb (cb.told q)
  late : ∀ q ∈ w.notes, q.awaited = false → ∀ cb ∈ w.state.created, cb.continuationID = q.id →
    ∃ r, w.state.outcomes cb.caller = [r] ∧ w.state.GaveUp r

theorem mem_noteReply {l : List Reply} : q ∈ noteReply s e t l ↔
    q ∈ l ∨ e = .callback q.id q.status q.data ∧ q.awaited = s.waitsFor q.id := by
  cases e with
  | callback id status data =>
    obtain ⟨i, x, d, b⟩ := q
    simp only [noteReply, List.mem_cons, Reply.mk.injEq, Event.callback.injEq]
    grind
  | _ => simp [noteReply]

namespace Faithful

variable {w : Replied}

/-- An operation that has been replied to is settled for good. -/
theorem settles_step {timeout : Int} (hrun : Reachable step (State.init timeout) s)
    (h : step s e = some t) (hcb : cb ∈ s.created) (hfate : s.fates cb.caller ≠ none) :
    cb ∈ t.created ∧ t.fates cb.caller ≠ none := by
  refine ((step_invariant_sound h (sound_of_reachable hrun)
    (fun k => Disposal k.state ∧ cb ∈ k.state.created ∧ k.state.fates cb.caller ≠ none)
    ⟨disposal_of_reachable hrun, hcb, hfate⟩ fun k a k' hk hI _ hact => ?_).2).2
  obtain ⟨hd, hcb, hfate⟩ := hI
  refine ⟨hd.act hk.wellFormed hact, ?_, ?_⟩
  · rw [hact.effects.created]
    exact List.mem_append_right _ hcb
  · rwa [Accountable.fate_stable hk.wellFormed hd hact hfate]

/-- What a new reply finds: an operation that libnfs still holds, and its caller waiting or gone. -/
theorem reply_held {timeout : Int} (hrun : Reachable step (State.init timeout) s)
    (h : step s (.callback q.id q.status q.data) = some t) :
    ∃ cb ∈ s.created, cb.continuationID = q.id ∧ s.fates cb.caller = none ∧ t.fates cb.caller ≠ none ∧
      (s.outcomes cb.caller = [] → t.Owes cb (cb.told q)) ∧
      (s.outcomes cb.caller ≠ [] → ∃ r, t.outcomes cb.caller = [r] ∧ t.GaveUp r) := by
  have hs := sound_of_reachable hrun
  obtain ⟨cb, hpos, hid, hfate, howes⟩ := fireCallback_told hs h
  refine ⟨cb, requested_created hs.wellFormed hpos, hid, (disposal_of_reachable hrun).unanswered cb hpos, ?_,
    howes q rfl rfl, fun hout => ?_⟩
  · rw [hfate]
    exact Option.some_ne_none _
  · obtain ⟨r, hr⟩ : ∃ r, s.outcomes cb.caller = [r] := by
      refine List.length_eq_one_iff.mp ?_
      have hone : (s.outcomes cb.caller).length ≤ 1 := hs.resumption.once cb.caller
      have hpos := List.length_pos_iff.mpr hout
      omega
    have hgone : s.GaveUp r := patient_of_reachable hrun cb hpos r (hr ▸ List.mem_singleton_self r)
    refine ⟨r, ?_, hgone.step hs h⟩
    rw [outcomes_stable hrun (.tail .refl trivial h) hout, hr]

/-- Somebody waits for the reply or not. -/
theorem waitsFor_eq (hw : WellFormed s) (hcb : cb ∈ s.created) :
    s.waitsFor cb.continuationID = true ↔ s.outcomes cb.caller = [] := by
  unfold State.waitsFor
  simp only [List.any_eq_true, Bool.and_eq_true, decide_eq_true_eq, List.isEmpty_iff]
  constructor
  · rintro ⟨c, hc, hid, hout⟩
    rwa [← hw.id_inj c hc cb hcb hid]
  · intro hout
    exact ⟨cb, hcb, rfl, hout⟩

/-- What a new reply does to the operation it is about. -/
theorem reply_to {timeout : Int} (hrun : Reachable step (State.init timeout) s)
    (h : step s (.callback q.id q.status q.data) = some t) (hcb : cb ∈ t.created)
    (hid : cb.continuationID = q.id) : cb ∈ s.created ∧
      (s.outcomes cb.caller = [] → t.Owes cb (cb.told q)) ∧
      (s.outcomes cb.caller ≠ [] → ∃ r, t.outcomes cb.caller = [r] ∧ t.GaveUp r) := by
  have hw' : WellFormed t := (sound_of_reachable (hrun.tail trivial h)).wellFormed
  obtain ⟨c, hc, hid', -, -, htold⟩ := reply_held hrun h
  have hc' := step_created_mono (sound_of_reachable hrun) h hc
  obtain rfl := hw'.id_inj cb hcb c hc' (hid.trans hid'.symm)
  exact ⟨hc, htold⟩

/-- An old reply is about an operation that was there before. -/
theorem old (hf : Faithful w) {timeout : Int} (hrun : Reachable step (State.init timeout) w.state)
    (h : step w.state e = some t) (hq : q ∈ w.notes) (hcb : cb ∈ t.created)
    (hid : cb.continuationID = q.id) : cb ∈ w.state.created := by
  have hw' : WellFormed t := (sound_of_reachable (hrun.tail trivial h)).wellFormed
  obtain ⟨c, hc, hid', hfate⟩ := hf.settles q hq
  have hc' := (settles_step hrun h hc hfate).1
  rwa [hw'.id_inj cb hcb c hc' (hid.trans hid'.symm)]

/-- No operation is called back again. -/
theorem once_step (hf : Faithful w) {timeout : Int} (hrun : Reachable step (State.init timeout) w.state)
    (h : step w.state e = some t) : ((noteReply w.state e t w.notes).map Reply.id).Nodup := by
  have hw : WellFormed w.state := (sound_of_reachable hrun).wellFormed
  cases e with
  | callback id status data =>
    refine List.nodup_cons.mpr ⟨fun hmem => ?_, hf.once⟩
    obtain ⟨q, hq, hid⟩ := List.mem_map.mp hmem
    obtain ⟨c, hc, hcid, hfate⟩ := hf.settles q hq
    obtain ⟨cb, hcb, hid', hnone, -⟩ := reply_held (q := ⟨id, status, data, false⟩) hrun h
    obtain rfl := hw.id_inj c hc cb hcb (hcid.trans (hid.trans hid'.symm))
    exact hfate hnone
  | _ => exact hf.once

theorem sourced_step (hf : Faithful w) (hs : Sound w.state.config) (h : step w.state e = some t) :
    Sourced (noteReply w.state e t w.notes) t := by
  have hmono {cb : CallbackData} {r : Outcome} (hsaid : Says w.notes cb r) :
      Says (noteReply w.state e t w.notes) cb r := by
    obtain ⟨q, hq, hid, hr⟩ := hsaid
    exact ⟨q, mem_noteReply.mpr (.inl hq), hid, hr⟩
  refine (step_invariant_sound h hs (fun k => Sourced (noteReply w.state e t w.notes) k.state)
    ⟨?_, ?_⟩ fun k a k' hk hI ha hact => hI.act hk hact ?_).2
  · intro cb r hmem
    exact hmono (hf.sourced.hooks cb r hmem)
  · intro cb hcb v hv
    exact hmono (hf.sourced.successes cb hcb v hv)
  · rintro f cb status data rfl
    obtain ⟨-, rfl⟩ := ha
    exact ⟨_, List.mem_cons_self .., rfl, rfl, rfl⟩

/-- The step lemma. -/
theorem step {timeout : Int} (hf : Faithful w) (hrun : Reachable step (State.init timeout) w.state)
    (h : NFSKit.step w.state e = some t) : Faithful ⟨t, noteReply w.state e t w.notes⟩ := by
  have hs := sound_of_reachable hrun
  have hw : WellFormed w.state := hs.wellFormed
  refine ⟨?_, hf.once_step hrun h, hf.sourced_step hs h, ?_, ?_⟩
  · intro q hq
    rcases (mem_noteReply (t := t)).mp hq with hq | ⟨rfl, -⟩
    · obtain ⟨cb, hcb, hid, hfate⟩ := hf.settles q hq
      obtain ⟨hcb', hfate'⟩ := settles_step hrun h hcb hfate
      exact ⟨cb, hcb', hid, hfate'⟩
    · obtain ⟨cb, hcb, hid, -, hfate, -⟩ := reply_held hrun h
      exact ⟨cb, step_created_mono hs h hcb, hid, hfate⟩
  · intro q hq hawaited cb hcb hid
    rcases (mem_noteReply (t := t)).mp hq with hq | ⟨rfl, hwaits⟩
    · exact (hf.awaited q hq hawaited cb (hf.old hrun h hq hcb hid) hid).next hs h
    · obtain ⟨hcreated, htold, -⟩ := reply_to hrun h hcb hid
      refine htold ((waitsFor_eq hw hcreated).mp ?_)
      rw [hid, ← hwaits, hawaited]
  · intro q hq hlate cb hcb hid
    rcases (mem_noteReply (t := t)).mp hq with hq | ⟨rfl, hwaits⟩
    · obtain ⟨r, hr, hgone⟩ := hf.late q hq hlate cb (hf.old hrun h hq hcb hid) hid
      have hstable := outcomes_stable hrun (.tail .refl trivial h) (i := cb.caller) (by simp [hr])
      exact ⟨r, hstable.trans hr, hgone.step hs h⟩
    · obtain ⟨hcreated, -, hgone⟩ := reply_to hrun h hcb hid
      refine hgone fun hout => ?_
      have hyes := (waitsFor_eq hw hcreated).mpr hout
      rw [hid, ← hwaits, hlate] at hyes
      cases hyes

end Faithful

/-- The run lemma: the loop is faithful to the replies. -/
theorem faithful_of_reachable {timeout : Int} {w : Replied}
    (h : Reachable (monitor step noteReply) ⟨State.init timeout, []⟩ w) : Faithful w := by
  refine Reaches.monitored_invariant (P := fun _ _ => True) h ?_ fun a e b hrun hf _ hs => hf.step hrun hs
  refine ⟨by simp, .nil, ⟨?_, ?_⟩, by simp, by simp⟩
  · intro cb r hf
    cases hf
  · intro cb hcb
    cases hcb

/-- Replies are not mixed up: in every run, whatever callbacks libnfs runs inside which calls, every operation
is called back at most once; every success that a caller receives is what the reply to its own operation says;
between queue blocks, a caller that was waiting when the reply came has received exactly what it says, and one
that was not has received `ETIMEDOUT` or, of a loop that has been torn down, `ENOTCONN`. -/
theorem replies_delivered {timeout : Int} {w : Replied}
    (h : Reachable (monitor step noteReply) ⟨State.init timeout, []⟩ w) :
    (w.notes.map Reply.id).Nodup ∧
      ∀ cb ∈ w.state.created,
        (∀ v, .success v ∈ w.state.outcomes cb.caller →
          ∃ q ∈ w.notes, q.id = cb.continuationID ∧ q.awaited ∧ cb.told q = .success v) ∧
        ∀ q ∈ w.notes, q.id = cb.continuationID →
          (q.awaited → w.state.stack = [] → w.state.outcomes cb.caller = [cb.told q]) ∧
          (q.awaited = false → w.state.outcomes cb.caller = [.failure .ETIMEDOUT] ∨
            w.state.outcomes cb.caller = [.failure .ENOTCONN] ∧ w.state.context = none) := by
  have hf := faithful_of_reachable h
  have hrun : Reachable step (State.init timeout) w.state := Reaches.state (P := fun _ _ => True) h
  refine ⟨hf.once, fun cb hcb => ⟨fun v hv => ?_, fun q hq hid => ⟨fun hawaited hidle => ?_, fun hlate => ?_⟩⟩⟩
  · obtain ⟨q, hq, hid, htold⟩ := hf.sourced.successes cb hcb v hv
    refine ⟨q, hq, hid, ?_, htold⟩
    by_contra hlate
    obtain ⟨r, hr, hgone⟩ := hf.late q hq (by simpa using hlate) cb hcb hid.symm
    rw [hr] at hv
    rw [← List.mem_singleton.mp hv] at hgone
    rcases hgone with hgone | ⟨hgone, -⟩ <;> cases hgone
  · exact ((hf.awaited q hq hawaited cb hcb hid.symm).run hrun .refl).2 hidle
  · obtain ⟨r, hr, rfl | ⟨rfl, hctx⟩⟩ := hf.late q hq hlate cb hcb hid.symm
    · exact .inl hr
    · exact .inr ⟨hr, hctx⟩

/-- The third stat is called back inside the completion hook of the second one, and the first one after it
has timed out. -/
theorem replies_delivered_nested :
    ∃ w : Replied, Machine.run (monitor step noteReply) ⟨State.init 60000000000, []⟩
        [.block Block.stat, .ret 0 {}, .tick 60000000001, .block .scanForTimeouts, .block Block.stat, .ret 0 {},
          .block Block.stat, .block .handleIOEvent, .callback 2 0 (some (.pointer 7)),
          .callback 3 0 (some (.pointer 9)), .ret 0 {}, .callback 1 0 (some (.pointer 8)), .ret 0 {}] = some w ∧
      w.notes.map Reply.id = [1, 3, 2] ∧ w.state.outcomes 0 = [.failure .ETIMEDOUT] ∧
      w.state.outcomes 1 = [.success (.pointer 7)] ∧ w.state.outcomes 2 = [.success (.pointer 9)] ∧
      ∀ cb ∈ w.state.created, ∀ q ∈ w.notes, q.id = cb.continuationID → q.awaited →
        w.state.outcomes cb.caller = [cb.told q] := by
  have hrun : ((Machine.run (monitor step noteReply) ⟨State.init 60000000000, []⟩
      [.block Block.stat, .ret 0 {}, .tick 60000000001, .block .scanForTimeouts, .block Block.stat, .ret 0 {},
        .block Block.stat, .block .handleIOEvent, .callback 2 0 (some (.pointer 7)),
        .callback 3 0 (some (.pointer 9)), .ret 0 {}, .callback 1 0 (some (.pointer 8)), .ret 0 {}]).any fun w =>
      w.state.stack = [] ∧ w.notes.map Reply.id = [1, 3, 2] ∧ w.state.outcomes 0 = [.failure .ETIMEDOUT] ∧
        w.state.outcomes 1 = [.success (.pointer 7)] ∧ w.state.outcomes 2 = [.success (.pointer 9)]) = true := by
    decide +kernel
  obtain ⟨w, hw, hfacts⟩ := (Option.any_eq_true _ _).mp hrun
  obtain ⟨hidle, hids, hfirst, hsecond, hthird⟩ := of_decide_eq_true hfacts
  refine ⟨w, hw, hids, hfirst, hsecond, hthird, fun cb hcb q hq hid hawaited => ?_⟩
  exact (((replies_delivered (reachable_of_run hw)).2 cb hcb).2 q hq hid).1 hawaited hidle

end NFSKit
