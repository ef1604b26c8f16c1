import NFSKit.EventLoop.Proofs.DeliveryProofs
import NFSKit.Foundations.AssocList

/-!
# Handles

Every `nfsfh` is registered under one id and closed at most once, and no call is made on it afterwards.
-/

namespace NFSKit

open Machine AssocList

variable {s s' : State} {k k' : Config} {a : Action}

/-! ## The registry -/

/-- What an action does with the handles and the directories. -/
inductive HandleStep (s s' : State) : Prop where
  | kept (hreg : s'.registrations = s.registrations) (hnext : s'.nextHandleID = s.nextHandleID)
      (hclosed : s'.closedHandles = s.closedHandles)
      (hregistry : s'.handleRegistry = s.handleRegistry ∨
        s'.context = none ∧ ∀ p ∈ s'.handleRegistry, p ∈ s.handleRegistry)
      (hfollowed : s'.followed = s.followed) (hdirs : s'.closedDirs = s.closedDirs) :
      HandleStep s s'
  | closed (id fh : Nat) (hlookup : s.handleRegistry.lookup id = some fh)
      (hreg : s'.registrations = s.registrations) (hnext : s'.nextHandleID = s.nextHandleID)
      (hclosed : s'.closedHandles = fh :: s.closedHandles)
      (hregistry : s'.handleRegistry = s.handleRegistry.filter (·.1 ≠ id))
      (hfollowed : s'.followed = s.followed) (hdirs : s'.closedDirs = s.closedDirs)
      (hctx : s.context.isSome) : HandleStep s s'
  | registered (opener fh : Nat) (hopener : opener ∉ s.followed)
      (hdelivered : s.delivered .open opener = some fh)
      (hreg : s'.registrations = (s.nextHandleID, fh) :: s.registrations)
      (hnext : s'.nextHandleID = s.nextHandleID + 1) (hclosed : s'.closedHandles = s.closedHandles)
      (hregistry : s'.handleRegistry = (s.nextHandleID, fh) :: s.handleRegistry)
      (hfollowed : s'.followed = opener :: s.followed) (hdirs : s'.closedDirs = s.closedDirs) :
      HandleStep s s'
  | read (opener dir : Nat) (hdelivered : s.delivered .opendir opener = some dir)
      (hreg : s'.registrations = s.registrations) (hnext : s'.nextHandleID = s.nextHandleID)
      (hclosed : s'.closedHandles = s.closedHandles)
      (hregistry : s'.handleRegistry = s.handleRegistry)
      (hfollowed : s'.followed = opener :: s.followed)
      (hdirs : s'.closedDirs = dir :: s.closedDirs ∧ s.context.isSome ∨
        s'.context = none ∧ s'.closedDirs = s.closedDirs) : HandleStep s s'

/-- Nothing that concerns the handles changes. -/
theorem HandleStep.same (hreg : s'.registrations = s.registrations)
    (hnext : s'.nextHandleID = s.nextHandleID) (hclosed : s'.closedHandles = s.closedHandles)
    (hregistry : s'.handleRegistry = s.handleRegistry) (hfollowed : s'.followed = s.followed)
    (hdirs : s'.closedDirs = s.closedDirs) : HandleStep s s' :=
  .kept hreg hnext hclosed (.inl hregistry) hfollowed hdirs

/-- A registry that lost entries keeps the others. -/
theorem HandleStep.subset {l l' : List (Nat × Nat)} {p : Prop} (h : l' = l ∨ p ∧ ∀ x ∈ l', x ∈ l) :
    ∀ x ∈ l', x ∈ l := by
  rcases h with rfl | ⟨-, h⟩
  · exact fun _ h => h
  · exact h

theorem Act.handles (h : Act k a k') : HandleStep k.state k'.state := by
  cases h with
  | silent hcore => apply HandleStep.same <;> rw [hcore]
  | closing hlookup hctx => exact .closed _ _ hlookup rfl rfl rfl rfl rfl rfl hctx
  | enterClose _ hctx hlookup => exact .closed _ _ hlookup rfl rfl rfl rfl rfl rfl hctx
  | registerHandle hopener hdelivered =>
    exact .registered _ _ hopener hdelivered rfl rfl rfl rfl rfl rfl
  | dropHandle _ hctx =>
    exact .kept rfl rfl rfl (.inr ⟨hctx, fun _ h => List.mem_of_mem_filter h⟩) rfl rfl
  | readdirAll _ hdelivered hctx =>
    exact .read _ _ hdelivered rfl rfl rfl rfl rfl (.inl ⟨rfl, hctx⟩)
  | dropDir _ hdelivered hctx =>
    exact .read _ _ hdelivered rfl rfl rfl rfl rfl (.inr ⟨hctx, rfl⟩)
  | expire =>
    dsimp only [State.expire]
    rw [State.resume_eq, State.recordCompletion_eq]
    exact .same rfl rfl rfl rfl rfl rfl
  | callback _ _ htake hnote =>
    obtain ⟨out, fhs, dirs, b, r, -, heq⟩ := State.callback_eq htake hnote
    rw [State.recordCompletion_eq, heq]
    exact .same rfl rfl rfl rfl rfl rfl
  | callbackDead _ _ htake hnote =>
    obtain ⟨out, fhs, dirs, b, r, -, heq⟩ := State.callback_eq htake hnote
    rw [heq]
    exact .same rfl rfl rfl rfl rfl rfl
  | @finishHook s =>
    obtain ⟨stack, resumed, outcomes, failed, heq⟩ := State.finishHook_eq s
    rw [heq]
    exact .same rfl rfl rfl rfl rfl rfl
  | accept =>
    rw [State.enqueueRequest_eq]
    split <;> exact .same rfl rfl rfl rfl rfl rfl
  | reject | rejectPending =>
    rw [State.resume_eq]
    exact .same rfl rfl rfl rfl rfl rfl
  | @enterDestroy s kind =>
    cases kind
    · exact .kept rfl rfl rfl (.inr ⟨rfl, fun _ h => by cases h⟩) rfl rfl
    · exact .same rfl rfl rfl rfl rfl rfl
  | @leaveDestroy s kind conts rest =>
    obtain ⟨bulk, metadata, counts, heq⟩ :=
      State.endTeardown_eq ((s.leaveTo rest).dropRequests .nfs) kind conts
    rw [heq, State.foldl_resume_eq]
    exact .same rfl rfl rfl rfl rfl rfl
  | @teardownNow s kind hctx =>
    obtain ⟨bulk, metadata, counts, heq⟩ :=
      State.endTeardown_eq (s.clearRegistries kind) kind s.activeContinuations
    rw [heq, State.foldl_resume_eq]
    cases kind
    · exact .kept rfl rfl rfl (.inr ⟨hctx, fun _ h => by cases h⟩) rfl rfl
    · exact .same rfl rfl rfl rfl rfl rfl
  | start | overflow | enqueue | execute | rejectRaw | rejectHandle | exportsFailed =>
    dsimp only [State.handOver, State.passRetained, State.register, State.newCaller,
      State.removeActive, State.resumeContinuation, State.executePending, State.addInFlight,
      State.refuse, State.withBuffers, State.leaveTo, State.dropRequests]
    exact .same rfl rfl rfl rfl rfl rfl
  | _ => exact .same rfl rfl rfl rfl rfl rfl

/-- The caller that received an object. -/
theorem delivered_spec {type : OperationType} {opener p : Nat}
    (h : s.delivered type opener = some p) :
    ∃ cb ∈ s.created, cb.caller = opener ∧ cb.entry = .submit type ∧
      s.outcomes opener = [.success (.pointer p)] := by
  unfold State.delivered at h
  split at h
  · rename_i hany
    obtain ⟨cb, hcb, hp⟩ := List.any_eq_true.mp hany
    have hp : cb.caller = opener ∧ cb.entry = .submit type := by simpa using hp
    split at h
    · rename_i q hout
      obtain rfl := Option.some.inj h
      exact ⟨cb, hcb, hp.1, hp.2, hout⟩
    · cases h
  · cases h

/-- What a caller has received stays with it. -/
theorem Results.mono {i : Nat} (h : Results s s' i a) {r : Outcome} (hr : r ∈ s.outcomes i) :
    r ∈ s'.outcomes i := by
  cases h with
  | same heq => exact heq ▸ hr
  | failed r' heq | immediate r' heq | hooked _ r' _ heq =>
    rw [heq]
    exact List.mem_append_left _ hr

/-- The invariant of the handles. -/
structure Handles (s : State) : Prop where
  safe : s.HandlesSafe
  fresh : ∀ p ∈ s.registrations, p.1 < s.nextHandleID
  /-- Every registered `nfsfh` comes from an `openFile` whose second block has run. -/
  owner : ∀ p ∈ s.registrations, ∃ cb ∈ s.created, cb.entry = .submit .open ∧
    .success (.pointer p.2) ∈ s.outcomes cb.caller ∧ cb.caller ∈ s.followed

namespace Handles

theorem act (hdel : Deliveries k.state) (hh : Handles k.state) (h : Act k a k') :
    Handles k'.state := by
  have hcreated : ∀ cb ∈ k.state.created, cb ∈ k'.state.created := by
    intro cb hcb
    rw [h.effects.created]
    exact List.mem_append_right _ hcb
  have howner (hfollowed : ∀ i ∈ k.state.followed, i ∈ k'.state.followed) :
      ∀ p ∈ k.state.registrations, ∃ cb ∈ k'.state.created, cb.entry = .submit .open ∧
        .success (.pointer p.2) ∈ k'.state.outcomes cb.caller ∧ cb.caller ∈ k'.state.followed := by
    intro p hp
    obtain ⟨cb, hcb, hentry, hout, hfol⟩ := hh.owner p hp
    exact ⟨cb, hcreated cb hcb, hentry, (h.results cb.caller).mono hout, hfollowed _ hfol⟩
  have hsafe := hh.safe
  cases h.handles with
  | kept hreg hnext hclosed hregistry hfollowed =>
    refine ⟨⟨hreg ▸ hsafe.ids, hreg ▸ hsafe.fhs, hclosed ▸ hsafe.closed, ?_, ?_⟩, ?_, ?_⟩
    · rw [hreg, hclosed]
      exact fun p hp => hsafe.registry p (HandleStep.subset hregistry p hp)
    · rw [hreg, hclosed]
      exact hsafe.delivered
    · rw [hreg, hnext]
      exact hh.fresh
    · rw [hreg]
      exact howner fun i hi => hfollowed ▸ hi
  | read opener dir hdelivered hreg hnext hclosed hregistry hfollowed =>
    refine ⟨⟨hreg ▸ hsafe.ids, hreg ▸ hsafe.fhs, hclosed ▸ hsafe.closed, ?_, ?_⟩, ?_, ?_⟩
    · rw [hreg, hclosed, hregistry]
      exact hsafe.registry
    · rw [hreg, hclosed]
      exact hsafe.delivered
    · rw [hreg, hnext]
      exact hh.fresh
    · rw [hreg]
      exact howner fun i hi => hfollowed ▸ List.mem_cons_of_mem _ hi
  | closed id fh hlookup hreg hnext hclosed hregistry hfollowed =>
    have hmem := hsafe.registry _ (mem_of_lookup hlookup)
    refine ⟨⟨hreg ▸ hsafe.ids, hreg ▸ hsafe.fhs, ?_, ?_, ?_⟩, ?_, ?_⟩
    · rw [hclosed]
      exact List.nodup_cons.mpr ⟨hmem.2, hsafe.closed⟩
    · rw [hreg, hclosed, hregistry]
      intro p hp
      obtain ⟨hp, hne⟩ := List.mem_filter.mp hp
      obtain ⟨hpreg, hpopen⟩ := hsafe.registry p hp
      refine ⟨hpreg, fun hfh => ?_⟩
      rcases List.mem_cons.mp hfh with hfh | hfh
      · have heq : p = (id, fh) := List.inj_on_of_nodup_map hsafe.fhs hpreg hmem.1 hfh
        simp [heq] at hne
      · exact hpopen hfh
    · rw [hreg, hclosed]
      intro x hx
      rcases List.mem_cons.mp hx with rfl | hx
      · exact List.mem_map.mpr ⟨_, hmem.1, rfl⟩
      · exact hsafe.delivered x hx
    · rw [hreg, hnext]
      exact hh.fresh
    · rw [hreg]
      exact howner fun i hi => hfollowed ▸ hi
  | registered opener fh hopener hdelivered hreg hnext hclosed hregistry hfollowed =>
    obtain ⟨cb, hcb, hcaller, hentry, hout⟩ := delivered_spec hdelivered
    have hresult : .success (.pointer fh) ∈ k.state.outcomes cb.caller := by
      rw [hcaller, hout]
      exact List.mem_singleton.mpr rfl
    -- two registrations of one `nfsfh` would come from one `openFile`
    have hnew : fh ∉ k.state.registrations.map Prod.snd := by
      intro hmem
      obtain ⟨p, hp, rfl⟩ := List.mem_map.mp hmem
      obtain ⟨c, hc, hcentry, hcout, hcfol⟩ := hh.owner p hp
      have heq : c = cb := hdel.unique .open c cb p.2 ⟨rfl, hc, hcentry, .inl hcout⟩
        ⟨rfl, hcb, hentry, .inl hresult⟩
      exact hopener (by rw [← hcaller, ← heq]; exact hcfol)
    refine ⟨⟨?_, ?_, hclosed ▸ hsafe.closed, ?_, ?_⟩, ?_, ?_⟩
    · rw [hreg]
      refine List.nodup_cons.mpr ⟨fun hmem => ?_, hsafe.ids⟩
      obtain ⟨p, hp, heq⟩ := List.mem_map.mp hmem
      have hlt := hh.fresh p hp
      have heq : p.1 = k.state.nextHandleID := heq
      omega
    · rw [hreg]
      exact List.nodup_cons.mpr ⟨hnew, hsafe.fhs⟩
    · rw [hreg, hclosed, hregistry]
      intro p hp
      rcases List.mem_cons.mp hp with rfl | hp
      · exact ⟨List.mem_cons_self .., fun hfh => hnew (hsafe.delivered fh hfh)⟩
      · obtain ⟨hpreg, hpopen⟩ := hsafe.registry p hp
        exact ⟨List.mem_cons_of_mem _ hpreg, hpopen⟩
    · rw [hreg, hclosed]
      exact fun x hx => List.mem_cons_of_mem _ (hsafe.delivered x hx)
    · rw [hreg, hnext]
      intro p hp
      rcases List.mem_cons.mp hp with rfl | hp
      · exact Nat.lt_succ_self _
      · have := hh.fresh p hp
        omega
    · rw [hreg]
      intro p hp
      rcases List.mem_cons.mp hp with rfl | hp
      · refine ⟨cb, hcreated cb hcb, hentry, (h.results cb.caller).mono hresult, ?_⟩
        rw [hfollowed, hcaller]
        exact List.mem_cons_self ..
      · exact howner (fun i hi => hfollowed ▸ List.mem_cons_of_mem _ hi) p hp

end Handles

theorem handles_init (timeout : Int) : Handles (State.init timeout) where
  safe :=
    { ids := List.nodup_nil
      fhs := List.nodup_nil
      closed := List.nodup_nil
      registry := fun p hp => by cases hp
      delivered := fun fh hfh => by cases hfh }
  fresh := fun p hp => by cases hp
  owner := fun p hp => by cases hp

/-! ## The calls made with an `nfsfh` -/

/-- A synchronous `nfs_close` in progress was so before, or the action begins it. -/
theorem Act.close_mem (h : Act k a k') {fh : Nat} (hf : Frame.close fh ∈ k'.state.stack) :
    Frame.close fh ∈ k.state.stack ∨ ∃ id, a = .enterClose id fh := by
  rcases h.effects.frames _ hf with hold | ⟨g, hg, _, _, _, -, heq⟩ | hpush
  · exact .inl hold
  · cases g with
    | handOver => cases heq
    | _ => exact .inl (heq ▸ hg)
  · cases h with
    | @enterClose s id x =>
      injection hpush with hx
      exact .inr ⟨id, by rw [hx]⟩
    | enter _ hservice =>
      have hpush : Frame.close fh = _ := hpush
      obtain rfl | ⟨n, rfl⟩ := hservice <;> cases hpush
    | callback | callbackDead | enterDestroy | reject | rejectPending | rejectRaw | rejectHandle
    | rejectExports =>
      obtain ⟨_, h⟩ := hpush
      cases h
    | _ => cases hpush

/-- What an action does inside the step from `s`. -/
structure HandleUse (s : State) (k : Config) : Prop where
  deliveries : Deliveries k.state
  handles : Handles k.state
  submitted : Submitted k.state
  uses : s.UsesHandles k.state.toCore
  context : k.state.context.isSome → s.context.isSome
  closed : ∀ fh ∈ s.closedHandles, fh ∈ k.state.closedHandles

theorem Core.UsesHandles.refl (s : Core) : s.UsesHandles s where
  ids := ⟨[], rfl, by simp⟩
  handOvers := ⟨[], rfl, by simp⟩
  closes := fun _ h => .inl h

theorem HandleUse.act {e : Event} (hs : Handles s) (hk : Sound k) (hu : HandleUse s k)
    (ha : Allowed s e k a) (h : Act k a k') : HandleUse s k' := by
  refine ⟨hu.deliveries.act hk h, hu.handles.act hu.deliveries h, hu.submitted.act h, ⟨?_, ?_, ?_⟩,
    fun hctx => hu.context (h.context_isSome hctx), ?_⟩
  · obtain ⟨new, hnew, hfresh⟩ := hu.uses.ids
    cases h.handles with
    | kept hreg | closed _ _ _ hreg | read _ _ _ hreg => exact ⟨new, hreg.trans hnew, hfresh⟩
    | registered opener fh _ _ hreg =>
      refine ⟨(k.state.nextHandleID, fh) :: new, by rw [hreg, hnew]; rfl, fun p hp => ?_⟩
      rcases List.mem_cons.mp hp with rfl | hp
      · intro hmem
        obtain ⟨q, hq, heq⟩ := List.mem_map.mp hmem
        have hlt := hu.handles.fresh q (hnew ▸ List.mem_append_right _ hq)
        have heq : q.1 = k.state.nextHandleID := heq
        omega
      · exact hfresh p hp
  · obtain ⟨new, hnew, hopen⟩ := hu.uses.handOvers
    rcases h.handed with heq | ⟨x, heq, hctx, horigin⟩
    · exact ⟨new, heq.trans hnew, hopen⟩
    · refine ⟨x :: new, by rw [heq, hnew]; rfl, fun y hy fh hfh => ?_⟩
      rcases List.mem_cons.mp hy with rfl | hy
      · rcases horigin with ⟨site, rfl⟩ | ⟨i, op, rfl, hop, hcb⟩
        · obtain ⟨id, hid⟩ := ha.2.1 fh hfh
          exact ⟨(hs.safe.registry _ (mem_of_lookup hid)).2, hu.context hctx⟩
        · obtain ⟨hentry, hmade⟩ := hu.submitted op hop
          have hnone : op.cbData.handle.isSome = false := by
            rw [hmade.handle, hentry]
            rfl
          rw [← hcb, hfh] at hnone
          cases hnone
      · exact hopen y hy fh hfh
  · intro fh hfh
    rcases h.close_mem hfh with hold | ⟨id, rfl⟩
    · exact hu.uses.closes fh hold
    · cases h with
      | enterClose _ hctx hlookup =>
        have hmem := hu.handles.safe.registry _ (mem_of_lookup hlookup)
        exact .inr ⟨fun hclosed => hmem.2 (hu.closed fh hclosed), hu.context hctx⟩
  · intro fh hfh
    have hmem := hu.closed fh hfh
    cases h.handles with
    | kept _ _ hclosed | registered _ _ _ _ _ _ hclosed | read _ _ _ _ _ hclosed =>
      exact hclosed ▸ hmem
    | closed _ _ _ _ _ hclosed => exact hclosed ▸ List.mem_cons_of_mem _ hmem

/-- What holds of the objects in every reachable state. -/
structure ObjectsSafe (s : State) : Prop where
  deliveries : Deliveries s
  handles : Handles s
  submitted : Submitted s

theorem objectsSafe_of_reachable {timeout : Int} (h : Reachable step (State.init timeout) s) :
    ObjectsSafe s :=
  (run_invariant_init h (fun k => ObjectsSafe k.state)
    ⟨deliveries_init timeout, handles_init timeout, submitted_init timeout⟩
    fun _ _ _ _ _ _ hk ho _ hact =>
      ⟨ho.deliveries.act hk hact, ho.handles.act ho.deliveries hact, ho.submitted.act hact⟩).2

/-- What every step does with the handles. -/
theorem step_usesHandles {t : State} {e : Event} (hs : Sound s.config) (ho : ObjectsSafe s)
    (h : step s e = some t) : s.UsesHandles t.toCore :=
  (step_invariant_sound h hs (HandleUse s)
    ⟨ho.deliveries, ho.handles, ho.submitted, .refl _, fun h => h, fun _ h => h⟩
    fun _ _ _ hk hu ha hact => hu.act ho.handles hk ha hact).2.uses

/-! ## Closed ids -/

/-- A closed id stays closed. -/
theorem Core.IsClosed.act {id : Nat} (hh : Handles k.state) (hid : k.state.IsClosed id)
    (h : Act k a k') : k'.state.IsClosed id := by
  obtain ⟨hreturned, hnone⟩ := hid
  cases h.handles with
  | kept hreg _ _ hregistry =>
    exact ⟨hreg ▸ hreturned, lookup_eq_none_of_subset (HandleStep.subset hregistry) hnone⟩
  | read _ _ _ hreg _ _ hregistry => exact ⟨hreg ▸ hreturned, hregistry ▸ hnone⟩
  | closed _ _ _ hreg _ _ hregistry =>
    refine ⟨hreg ▸ hreturned, lookup_eq_none_of_subset (fun p hp => ?_) hnone⟩
    rw [hregistry] at hp
    exact List.mem_of_mem_filter hp
  | registered _ fh _ _ hreg _ _ hregistry =>
    refine ⟨?_, ?_⟩
    · rw [hreg]
      exact List.mem_cons_of_mem _ hreturned
    · obtain ⟨p, hp, rfl⟩ := List.mem_map.mp hreturned
      have hlt := hh.fresh p hp
      have hne : (p.1 == k.state.nextHandleID) = false := by
        simp
        omega
      rw [hregistry, List.lookup_cons, hne]
      exact hnone

/-- A block starts only when no other one runs. -/
theorem step_block {b : Block} {t : State} (h : step s (.block b) = some t) :
    (s.stack = [] ∧ s.alive) ∧ s.runBlock b = some t := by
  simp only [step] at h
  split at h
  · rename_i hidle
    simp only [Bool.and_eq_true, List.isEmpty_iff] at hidle
    exact ⟨hidle, h⟩
  · cases h

/-- A block that closes an id that the registry has closes it. -/
theorem runBlock_closes {b : Block} {id : Nat} {t : State} (hid : id ∈ s.registrations.map Prod.fst)
    (hb : b = .closeFile id ∧ s.context.isSome ∨ b = .closeFileFireAndForget id)
    (h : s.runBlock b = some t) : t.IsClosed id := by
  rcases hb with ⟨rfl, hctx⟩ | rfl
  · obtain rfl := Option.some.inj h
    obtain ⟨c, hc⟩ := Option.isSome_iff_exists.mp hctx
    have hc : s.newCaller.context = some c := hc
    unfold State.closeFile State.handleOperation
    dsimp only
    cases hlookup : s.newCaller.handleRegistry.lookup id with
    | none => exact ⟨hid, hlookup⟩
    | some fh =>
      rw [hc]
      exact ⟨hid, lookup_filter_ne _ id⟩
  · simp only [State.runBlock] at h
    split at h
    · obtain rfl := Option.some.inj h
      unfold State.closeFileFireAndForget
      cases hlookup : s.handleRegistry.lookup id with
      | none => exact ⟨hid, hlookup⟩
      | some fh =>
        dsimp only
        cases s.context with
        | none => exact ⟨hid, lookup_filter_ne _ id⟩
        | some c => exact ⟨hid, lookup_filter_ne _ id⟩
    · cases h

/-- An operation on a closed id is answered at once. -/
theorem runBlock_closed {b : Block} {id : Nat} {t : State} (hid : s.IsClosed id)
    (hb : b.handleID = some id) (h : s.runBlock b = some t) :
    t = s.newCaller.resumeContinuation s.nextCaller (.failure .EBADF) := by
  have handle {op : State.HandleOperation} {n : Nat} (hn : n = id)
      (heq : some (s.handleOperation op n) = some t) :
      t = s.newCaller.resumeContinuation s.nextCaller (.failure .EBADF) := by
    obtain rfl := Option.some.inj heq
    have hnone : s.newCaller.handleRegistry.lookup n = none := hn ▸ hid.2
    unfold State.handleOperation
    dsimp only
    rw [hnone]
  cases b with
  | preadIntoBuffer n buffer =>
    simp only [State.runBlock] at h
    split at h
    · cases h
    · exact handle (Option.some.inj hb) h
  | closeFile | readFile | writeFile | preadFile | pwriteFile | fsync | fstat | ftruncate
  | lseek => exact handle (Option.some.inj hb) h
  | _ => cases hb

/-- In every interleaving of opens, operations on open handles, closes and shutdowns, ids are returned
once, an `nfsfh` is closed at most once and not used afterwards or without its context, and operations
on a closed id fail with `EBADF`. -/
theorem handle_lifecycle {timeout : Int} (hs : Reachable step (State.init timeout) s) :
    s.HandlesSafe ∧ (∀ e t, step s e = some t → s.UsesHandles t.toCore) ∧
      (∀ opener t, step s (.block (.registerHandle opener)) = some t → ∃ id fh,
        t.registrations = (id, fh) :: s.registrations ∧ t.outcomes s.nextCaller = [.success (.int id)]) ∧
      (∀ id ∈ s.registrations.map Prod.fst, ∀ b t,
        b = .closeFile id ∧ s.context.isSome ∨ b = .closeFileFireAndForget id →
          step s (.block b) = some t → t.IsClosed id) ∧
      ∀ id, s.IsClosed id → ∀ t, Reachable step s t → t.IsClosed id ∧
        ∀ b u, b.handleID = some id → step t (.block b) = some u →
          u = t.newCaller.resumeContinuation t.nextCaller (.failure .EBADF) := by
  have hsound := sound_of_reachable hs
  have ho := objectsSafe_of_reachable hs
  refine ⟨ho.handles.safe, fun e t h => step_usesHandles hsound ho h, ?_, ?_, ?_⟩
  · intro opener t h
    obtain ⟨-, h⟩ := step_block h
    simp only [State.runBlock] at h
    split at h
    · cases h
    · obtain ⟨fh, -, rfl⟩ := Option.map_eq_some_iff.mp h
      refine ⟨s.nextHandleID, fh, rfl, ?_⟩
      have hnil := (hsound.resumption.fresh s.nextCaller (le_refl _)).1
      have hnil : s.outcomes s.nextCaller = [] := hnil
      simp [State.registerHandle, State.resumeContinuation, State.newCaller, hnil]
  · intro id hid b t hb h
    exact runBlock_closes hid hb (step_block h).2
  · intro id hid t ht
    have hclosed := (run_invariant_sound ht hsound
      (fun k => (Handles k.state ∧ Deliveries k.state) ∧ k.state.IsClosed id)
      ⟨⟨ho.handles, ho.deliveries⟩, hid⟩ fun _ _ _ _ _ _ hk hi _ hact =>
        ⟨⟨hi.1.1.act hi.1.2 hact, hi.1.2.act hk hact⟩, hi.2.act hi.1.1 hact⟩).2.2
    exact ⟨hclosed, fun b u hb h => runBlock_closed hclosed hb (step_block h).2⟩

/-- A file is opened and closed; a read on its id fails. -/
theorem handle_lifecycle_closeFile :
    ∃ t, run step (State.init 60000000000)
      [.block Block.openFile, .ret 0 {}, .block .handleIOEvent, .callback 1 0 (some (.pointer 7)),
        .ret 0 {}, .block (.registerHandle 0), .block (.closeFile 1), .ret 0 {}] = some t ∧
      t.closedHandles = [7] ∧ ∃ u, step t (.block (.readFile 1)) = some u ∧
        u = t.newCaller.resumeContinuation t.nextCaller (.failure .EBADF) := by
  have hrun : ((run step (State.init 60000000000)
      [.block Block.openFile, .ret 0 {}, .block .handleIOEvent, .callback 1 0 (some (.pointer 7)),
        .ret 0 {}, .block (.registerHandle 0), .block (.closeFile 1), .ret 0 {}]).any fun t =>
      t.closedHandles = [7] ∧ t.registrations.map Prod.fst = [1] ∧
        t.handleRegistry.lookup 1 = none ∧ (step t (.block (.readFile 1))).isSome) = true := by
    decide +kernel
  obtain ⟨t, ht, hfacts⟩ := (Option.any_eq_true _ _).mp hrun
  obtain ⟨hclosed, hids, hnone, hstep⟩ := of_decide_eq_true hfacts
  obtain ⟨u, hu⟩ := Option.isSome_iff_exists.mp hstep
  have hid : t.IsClosed 1 := ⟨by rw [hids]; exact List.mem_singleton.mpr rfl, hnone⟩
  obtain ⟨-, -, -, -, hlater⟩ := handle_lifecycle (reachable_of_run ht)
  exact ⟨t, ht, hclosed, u, hu, (hlater 1 hid t .refl).2 _ u rfl hu⟩

end NFSKit
