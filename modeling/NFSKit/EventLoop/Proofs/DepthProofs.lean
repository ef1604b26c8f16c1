import NFSKit.EventLoop.Proofs.OrderProofs
import NFSKit.EventLoop.Proofs.StrandingProofs

/-!
# The depth of the pipeline

Before an operation is handed over, libnfs holds fewer operations of its category than the effective
depth. The loop compares the in-flight count with the depth, so the count must not fall behind what
libnfs holds; and the operations on open handles do not look at the count at all.
-/

namespace NFSKit

open Machine

variable {s t u : State} {k k' : Config} {a : Action} {e : Event} {c : OperationCategory}

/-! ## What libnfs holds -/

/-- The operations that libnfs holds. -/
def Core.held (s : Core) : List CallbackData :=
  s.outstanding.map Request.cb ++ s.stack.filterMap Frame.inCall

theorem Core.outstandingCount_eq (s : Core) (c : OperationCategory) :
    s.outstandingCount c = s.held.countP c.is := by
  unfold Core.outstandingCount Core.held
  rw [List.countP_append, List.countP_map]
  rfl

/-- No operation is held twice. -/
theorem held_nodup (hw : WellFormed s) : s.held.Nodup := by
  rw [List.nodup_iff_count_le_one]
  intro cb
  have hcount : s.held.count cb ≤ s.requests cb := by
    unfold Core.held Core.requests
    have hmap : (s.outstanding.map Request.cb).count cb = s.outstanding.countP (fun r => r.cb = cb) := by
      rw [List.count, List.countP_map]
      congr 1
    rw [List.count_append, hmap]
    omega
  have := requests_le_tokens s cb
  have := hw.tokens_le cb
  omega

/-- The operation that an action hands to libnfs. -/
def Action.hands : Action → Option CallbackData
  | .start _ cb => some cb
  | .execute _ op => some op.cbData
  | _ => none

/-- libnfs holds what it held before, and what is handed over. -/
theorem Act.held_mem (h : Act k a k') {cb : CallbackData} (hcb : cb ∈ k'.state.held) :
    cb ∈ k.state.held ∨ a.hands = some cb := by
  have inCall {f : Frame} (hf : f ∈ k.state.stack) (hcall : f.inCall = some cb) :
      cb ∈ k.state.held :=
    List.mem_append_right _ (List.mem_filterMap.mpr ⟨f, hf, hcall⟩)
  rcases List.mem_append.mp hcb with hout | hstack
  · obtain ⟨r, hr, rfl⟩ := List.mem_map.mp hout
    by_cases hold : r ∈ k.state.outstanding
    · exact .inl (List.mem_append_left _ (List.mem_map_of_mem hold))
    · obtain hr' | ⟨site, cb, ran, rfl, rfl⟩ := h.effects.outstanding r hr
      · exact absurd hr' hold
      · -- a request is accepted only if its callback has not run
        have hframe := (h.accepts .bulk fun _ => true).1
        refine .inl (inCall hframe (Frame.inCall_eq_some.mpr ⟨?_, rfl⟩))
        intro hran
        cases h with
        | @accept s site cb ran rest hstack =>
          have hsame : ((s.leaveTo rest).enqueueRequest site.ctx cb ran).outstanding = s.outstanding := by
            rw [State.enqueueRequest_eq]
            simp [hran, State.leaveTo]
          refine hold ?_
          rw [← hsame]
          dsimp only at hr
          split at hr <;> exact hr
  · obtain ⟨f, hf, hcall⟩ := List.mem_filterMap.mp hstack
    obtain hf | ⟨g, hg, x, status, data, rfl, rfl⟩ | hpush := h.effects.frames f hf
    · exact .inl (inCall hf hcall)
    · cases g with
      | handOver site y ran =>
        obtain ⟨hran, rfl⟩ := Frame.inCall_eq_some.mp hcall
        refine .inl (inCall hg (Frame.inCall_eq_some.mpr ⟨fun hmem => hran ?_, rfl⟩))
        exact List.mem_cons_of_mem _ hmem
      | _ => cases hcall
    · cases a with
      | start site x =>
        obtain rfl : f = _ := hpush
        obtain ⟨-, rfl⟩ := Frame.inCall_eq_some.mp hcall
        exact .inr rfl
      | execute i op =>
        obtain rfl : f = _ := hpush
        obtain ⟨-, rfl⟩ := Frame.inCall_eq_some.mp hcall
        exact .inr rfl
      | enter g =>
        obtain rfl : f = _ := hpush
        cases h with
        | enter _ hg => obtain rfl | ⟨n, rfl⟩ := hg <;> cases hcall
      | enterClose | enterRpcDestroy =>
        obtain rfl : f = _ := hpush
        cases hcall
      | callback | reject | enterDestroy =>
        obtain ⟨_, rfl⟩ := hpush
        cases hcall
      | _ => cases hpush

/-- An action adds at most the operation that it hands over to those that libnfs holds. -/
theorem Act.outstandingCount_le (hw : WellFormed k'.state) (h : Act k a k') (c : OperationCategory) :
    k'.state.outstandingCount c ≤ a.hands.toList.countP c.is + k.state.outstandingCount c := by
  have hsub : k'.state.held ⊆ a.hands.toList ++ k.state.held := by
    intro cb hcb
    rcases h.held_mem hcb with hold | hhands
    · exact List.mem_append_right _ hold
    · exact List.mem_append_left _ (by simp [hhands])
  have hle := ((held_nodup hw).subperm hsub).countP_le c.is
  rw [Core.outstandingCount_eq, Core.outstandingCount_eq, ← List.countP_append]
  exact hle

/-- Where the operations of a category that are being handed over are all deferred and counted, and so
are those libnfs has accepted, it holds as many as are booked. -/
theorem outstandingCount_eq_booked
    (hreq : ∀ r ∈ s.outstanding, r.cb.operationCategory = c → r.cb.isCounted)
    (hcalls : ∀ site cb ran, Frame.handOver site cb ran ∈ s.stack → cb.operationCategory = c →
      site.isPending ∧ cb.isCounted) :
    s.outstandingCount c = s.booked c.counts := by
  have hrequests : s.outstanding.countP (fun r => c.is r.cb) =
      s.outstanding.countP (fun r => c.counts r.cb) := by
    refine List.countP_congr fun r hr => ?_
    have := hreq r hr
    simpa [OperationCategory.counts, OperationCategory.is] using this
  have hframes : (s.stack.filterMap Frame.inCall).countP c.is =
      (s.stack.filterMap Frame.deferredCall).countP c.counts := by
    rw [List.countP_filterMap, List.countP_filterMap]
    refine List.countP_congr fun f hf => ?_
    cases f with
    | handOver site cb ran =>
      have hcall := hcalls site cb ran hf
      by_cases hran : cb.caller ∈ ran
      · simp [Frame.inCall, Frame.deferredCall, hran]
      · by_cases hc : cb.operationCategory = c
        · simp [Frame.inCall, Frame.deferredCall, OperationCategory.counts, OperationCategory.is, hran,
            hc, hcall hc]
        · cases hsite : site.isPending <;>
            simp [Frame.inCall, Frame.deferredCall, OperationCategory.counts, OperationCategory.is, hran,
              hc, hsite]
    | _ => simp [Frame.inCall, Frame.deferredCall]
  unfold Core.booked
  rw [← hrequests, ← hframes]
  rfl

/-! ## The count covers what libnfs holds -/

/-- The in-flight count of the category, with the operations that will be counted although their
callbacks have run, is not behind the booked operations. -/
def Covered (c : OperationCategory) (k : Config) : Prop :=
  k.state.alive → k.state.context.isSome →
    (k.state.booked c.counts : Int) ≤ k.state.inFlightCount c + k.state.answered c

theorem covered_init (timeout : Int) (c : OperationCategory) :
    Covered c (State.init timeout).config := by
  intro _ _
  show (0 : Int) ≤ 0 + 0
  omega

theorem OperationCategory.counts_iff {cb : CallbackData} :
    c.counts cb ↔ cb.operationCategory = c ∧ cb.isCounted := by
  simp [OperationCategory.counts, OperationCategory.is]

/-- A call in its own queue block that does not count its operation hands over one that is never
counted. -/
theorem SitesCount.uncounted_of_direct (hc : SitesCount s) {f : Frame} {cb : CallbackData}
    (hf : f ∈ s.stack) (hdirect : f.directCall = some cb) (hlate : f.lateCall ≠ some cb) :
    cb.isCounted = false := by
  cases f with
  | handOver site x ran =>
    simp only [Frame.directCall, Frame.lateCall] at hdirect hlate
    split at hdirect
    · cases hdirect
    · rename_i hsite
      obtain rfl := Option.some.inj hdirect
      rw [not_or, Bool.not_eq_true] at hsite
      rw [hc.frames site x ran hf, hsite.1, Bool.false_or]
      cases hl : site.countsLate with
      | false => rfl
      | true => exact absurd (by simp [hl, hsite.2]) hlate
  | _ => cases hdirect

namespace Covered

/-- A completion takes back the slot of the operation that it strikes out. -/
theorem callback {f : Frame} {cb : CallbackData} {status : Int} {data : Option Value}
    (hb : (k.state.booked c.counts : Int) ≤ k.state.inFlightCount c + k.state.answered c)
    (hk : Sound k) (hs : SitesCount k.state) (hP : KeepsSlots c u e) (halive : k.state.alive)
    (ha : Allowed u e k (.callback f cb status data)) (h : Act k (.callback f cb status data) k') :
    (k'.state.booked c.counts : Int) ≤ k'.state.inFlightCount c + k'.state.answered c := by
  obtain ⟨hcalled, hf⟩ := calledBack_of_callback ha h
  obtain ⟨hin, -, hcount⟩ := h.completes hk halive c c.counts
  have hanswered := h.answered hk c
  have hsame : k.state = u := ha.1
  simp only [Action.settles, Action.answers, Nat.add_zero] at hanswered
  by_cases hc : cb.operationCategory = c
  swap
  · have hnot : ¬ c.counts cb := fun hcounts => hc (OperationCategory.counts_iff.mp hcounts).1
    simp only [hc, if_false] at hin
    simp only [hnot, Bool.false_eq_true, false_and, if_false, Nat.add_zero] at hcount
    omega
  simp only [hc, if_true] at hin
  have his : c.is cb = true := by simpa [OperationCategory.is] using hc
  by_cases hcounted : cb.isCounted
  swap
  · -- nothing is struck out, so no slot may be taken back
    have hzero := hP.2.2.2 cb hcalled hc ((Bool.not_eq_true _).mp hcounted)
    rw [← hsame] at hzero
    have hle : k'.state.booked c.counts ≤ k.state.booked c.counts := by omega
    omega
  have hcounts : c.counts cb := OperationCategory.counts_iff.mpr ⟨hc, hcounted⟩
  by_cases hdirect : f.directCall = some cb
  · have hlate : f.lateCall = some cb := by
      by_contra hlate
      rw [hs.uncounted_of_direct (hsame ▸ hf) hdirect hlate] at hcounted
      cases hcounted
    simp only [his, hlate, and_self, if_true] at hanswered
    have hle : k'.state.booked c.counts ≤ k.state.booked c.counts := by omega
    omega
  · simp only [hcounts, hdirect, ne_eq, not_false_eq_true, and_self, if_true] at hcount
    omega

/-- An operation that is accepted is booked when it is counted. -/
theorem accept {site : Site} {cb : CallbackData} {ran : List Nat}
    (hb : (k.state.booked c.counts : Int) ≤ k.state.inFlightCount c + k.state.answered c)
    (hk : Sound k) (hs : SitesCount k.state) (h : Act k (.accept site cb ran) k') :
    (k'.state.booked c.counts : Int) ≤ k'.state.inFlightCount c + k'.state.answered c := by
  obtain ⟨hframe, hin, -, hcount⟩ := h.accepts c c.counts
  have hanswered := h.answered hk c
  have hcounted := hs.frames site cb ran hframe
  simp only [Action.settles, Action.answers, Nat.add_zero] at hanswered
  by_cases htakes : site.countsLate ∧ cb.operationCategory = c
  · have his : c.is cb = true := by simpa [OperationCategory.is] using htakes.2
    rw [if_pos htakes] at hin
    by_cases hran : cb.caller ∈ ran
    · simp only [his, htakes.1, hran, and_self, if_true] at hanswered
      simp only [hran, not_true_eq_false, and_false, if_false, Nat.add_zero] at hcount
      omega
    · simp only [hran, and_false, if_false, Nat.add_zero] at hanswered
      split at hcount <;> omega
  · have hsettles : ¬ (c.is cb = true ∧ site.countsLate = true ∧ cb.caller ∈ ran) := by
      intro hsettles
      exact htakes ⟨hsettles.2.1, by simpa [OperationCategory.is] using hsettles.1⟩
    have hbooks : ¬ (c.counts cb ∧ site.isPending = false ∧ cb.caller ∉ ran) := by
      rintro ⟨hcounts, hpending, -⟩
      obtain ⟨hc, hcb⟩ := OperationCategory.counts_iff.mp hcounts
      rw [hcounted, hpending, Bool.false_or] at hcb
      exact htakes ⟨hcb, hc⟩
    rw [if_neg htakes] at hin
    rw [if_neg hsettles] at hanswered
    rw [if_neg hbooks] at hcount
    omega

/-- One action that keeps the slots keeps the count from falling behind. -/
theorem act (hcov : Covered c k) (hk : Sound k) (hs : SitesCount k.state) (hP : KeepsSlots c u e)
    (ha : Allowed u e k a) (h : Act k a k') : Covered c k' := by
  intro halive hctx
  obtain ⟨halive', hctx'⟩ := h.up_before halive hctx
  have hb := hcov halive' hctx'
  by_cases hcall : ∃ f cb status data, a = .callback f cb status data
  · obtain ⟨f, cb, status, data, rfl⟩ := hcall
    exact callback hb hk hs hP halive' ha h
  by_cases haccept : ∃ site cb ran, a = .accept site cb ran
  · obtain ⟨site, cb, ran, rfl⟩ := haccept
    exact accept hb hk hs h
  have hanswered := h.answered hk c
  have hnone : a.answers c = 0 ∧ a.settles c = 0 := by
    cases a with
    | callback => exact absurd ⟨_, _, _, _, rfl⟩ hcall
    | accept => exact absurd ⟨_, _, _, rfl⟩ haccept
    | _ => exact ⟨rfl, rfl⟩
  rw [hnone.1, hnone.2] at hanswered
  cases h.books hk c c.counts with
  | same hin _ hcount => omega
  | @executed i op hop hin _ hcount =>
    have hcat := (hk.wellFormed.pending_op op hop).category_eq
    by_cases hc : op.category = c
    · rw [if_pos hc] at hin
      split at hcount <;> omega
    · have hnot : ¬ c.counts op.cbData := fun hcounts =>
        hc (hcat.trans (OperationCategory.counts_iff.mp hcounts).1)
      rw [if_neg hc] at hin
      rw [if_neg hnot] at hcount
      omega
  | completed => exact absurd ⟨_, _, _, _, rfl⟩ hcall
  | @expired cb hin _ hcount =>
    obtain ⟨rfl, hmem, hexpired, htimeout, -⟩ := ha
    have hc : cb.operationCategory ≠ c :=
      hP.1 cb (by simp [scanExpires, htimeout, hmem, hexpired])
    rw [if_neg hc] at hin
    omega
  | accepted => exact absurd ⟨_, _, _, rfl⟩ haccept
  | @refused i op ran hop hin _ hcount =>
    by_cases hc : op.category = c
    · have hcounts : c.counts op.cbData := by
        refine OperationCategory.counts_iff.mpr ⟨hop.category_eq.symm.trans hc, ?_⟩
        cases h with
        | rejectPending hstack =>
          rw [hs.frames _ _ _ (hstack ▸ List.mem_cons_self ..)]
          rfl
        | rejectRaw _ _ hsite =>
          obtain hsite | ⟨n, hsite⟩ := hsite <;> cases hsite
      rw [if_pos hc] at hin
      rw [if_pos hcounts] at hcount
      omega
    · rw [if_neg hc] at hin
      split at hcount <;> omega
  | dropped hin _ hcount => omega
  | down hdown =>
    rcases hdown with hdown | hdown
    · rw [hdown] at hctx
      cases hctx
    · rw [hdown] at halive
      cases halive

end Covered

/-! ## The queue and what is handed over beside it -/

/-- While an operation of the category is queued, everything libnfs holds of the category is counted, and
every call that hands one over is deferred. -/
def Apart (c : OperationCategory) (s : State) : Prop :=
  ∀ op ∈ s.pendingOperations, op.category = c →
    (∀ r ∈ s.outstanding, r.cb.operationCategory = c → r.cb.isCounted) ∧
    ∀ site cb ran, Frame.handOver site cb ran ∈ s.stack → cb.operationCategory = c → site.isPending

theorem apart_init (timeout : Int) (c : OperationCategory) : Apart c (State.init timeout) :=
  fun _ h => by cases h

theorem comesIn_of_submits {x : OperationType × DataHandler} (h : e.submits = some x) :
    comesIn s e = some x.1.category := by
  simp [comesIn, h]

theorem comesIn_of_directs (h : directs s e = some c) : comesIn s e = some c := by
  cases e with
  | block b =>
    cases b with
    | submit | submitWithStatus => simp [directs, Block.directCategory] at h
    | _ => exact h
  | _ => cases h

/-- What is known when an operation is handed over in its own queue block: the category has capacity,
none of its operations is queued, and all of its operations that libnfs holds are counted. -/
theorem start_has_slot {site : Site} {cb : CallbackData} (hP : KeepsSlots c u e)
    (ha : Allowed u e k (.start site cb)) (h : Act k (.start site cb) k')
    (hc : cb.operationCategory = c) :
    k.state.hasCapacity c ∧ (∀ op ∈ k.state.pendingOperations, op.category ≠ c) ∧
      ∀ r ∈ k.state.outstanding, r.cb.operationCategory = c → r.cb.isCounted := by
  obtain ⟨-, -, hwhere, hpipe⟩ := ha
  cases h with
  | @start s _ _ hstack hctx hsite hid hcaller hmade hissued =>
    have hcap_eq : s.hasCapacity c = u.hasCapacity c := by
      unfold Core.hasCapacity Core.controller
      rw [hpipe.counts, hpipe.bulk, hpipe.metadata]
    have hcap : u.hasCapacity c ∧ comesIn u e = some c := by
      obtain ⟨rfl, x, hx, hcat⟩ | ⟨b, rfl, hb, hreach⟩ := hwhere
      · refine ⟨?_, ?_⟩
        · rw [← hcap_eq, ← hc]
          exact hissued.capacity rfl
        · rw [comesIn_of_submits (Option.mem_def.mp hx), ← hcat, hc]
      · have hdirect : directs u (.block b) = some c := by
          rw [directs, if_pos hreach, hb, hc]
        exact ⟨hP.2.1 hdirect, comesIn_of_directs hdirect⟩
    have henters := hP.2.2.1 hcap.2 (hpipe.context ▸ hctx)
    refine ⟨hcap_eq ▸ hcap.1, ?_, ?_⟩
    · exact hpipe.pending ▸ henters.2 hcap.1
    · exact hpipe.outstanding ▸ henters.1

/-- One action that keeps the slots keeps the queue apart. -/
theorem Apart.act (hap : Apart c k.state) (hs : SitesCount k.state) (hP : KeepsSlots c u e)
    (ha : Allowed u e k a) (h : Act k a k') : Apart c k'.state := by
  intro op hop hc
  rcases h.effects.pending op hop with hop | ⟨type, cb, rfl, rfl⟩
  · obtain ⟨hreq, hcalls⟩ := hap op hop hc
    refine ⟨fun r hr hrc => ?_, fun site cb ran hf hcb => ?_⟩
    · rcases h.effects.outstanding r hr with hr | ⟨site, cb, ran, rfl, rfl⟩
      · exact hreq r hr hrc
      · have hframe := (h.accepts .bulk fun _ => true).1
        rw [hs.frames site cb ran hframe, hcalls site cb ran hframe hrc, Bool.true_or]
    · rcases h.handOver_mem hf with ⟨ran', hf'⟩ | rfl | ⟨i, op', rfl, -, -⟩
      · exact hcalls site cb ran' hf' hcb
      · exact absurd hc ((start_has_slot hP ha h hcb).2.1 op hop)
      · rfl
  · obtain ⟨hsubmits, hpipe⟩ := ha
    cases h with
    | @enqueue s _ _ hctx hid hcaller hcategory hentry hcap hroom hmade hcleanup hstack =>
      have hcomes : comesIn u e = some c := by
        rw [comesIn_of_submits (hsubmits type hentry)]
        exact congrArg some hc
      have henters := hP.2.2.1 hcomes (hpipe.context ▸ hctx)
      refine ⟨fun r hr hrc => henters.1 r (hpipe.outstanding ▸ hr) hrc, fun site x ran hf _ => ?_⟩
      have hf : Frame.handOver site x ran ∈ s.stack := hf
      rw [hstack] at hf
      cases hf

/-! ## The depth -/

/-- Every hand-over of the category found fewer operations in libnfs than the effective depth, and libnfs
holds no more than the greatest depth. -/
structure WithinDepth (c : OperationCategory) (s : State) : Prop where
  below : ∀ x ∈ s.handOvers, x.cb.operationCategory = c → (x.outstanding : Int) < x.depth
  atMost : s.outstandingCount c ≤ 32

theorem withinDepth_init (timeout : Int) (c : OperationCategory) :
    WithinDepth c (State.init timeout) where
  below := fun _ h => by cases h
  atMost := by simp [Core.outstandingCount, State.init]

/-- What is handed over finds libnfs below the depth. -/
theorem lt_depth_of_hands (hk : Sound k) (hquiet : Quiet k') (hcov : Covered c k)
    (hap : Apart c k.state) (hs : SitesCount k.state) (hP : KeepsSlots c u e) (ha : Allowed u e k a)
    (h : Act k a k') {cb : CallbackData} (hhands : a.hands = some cb) (hc : cb.operationCategory = c) :
    (k.state.outstandingCount c : Int) < (k.state.controller c).effectiveDepth := by
  cases a with
  | start site x =>
    obtain rfl := Option.some.inj hhands
    obtain ⟨hcap, -, hreq⟩ := start_has_slot hP ha h hc
    have hcap : k.state.inFlightCount c < (k.state.controller c).effectiveDepth := of_decide_eq_true hcap
    cases h with
    | @start s _ _ hstack hctx =>
      have hstack : s.stack = [] := hstack
      have halive : s.alive := hquiet.alive_of_isWork hctx (List.mem_cons_self ..) rfl
      have hheld : s.outstandingCount c = s.booked c.counts := by
        refine outstandingCount_eq_booked hreq fun site y ran hf => ?_
        rw [hstack] at hf
        cases hf
      have hanswered : s.answered c = 0 := by simp [Core.answered, hstack]
      have hbooked : (s.booked c.counts : Int) ≤ s.inFlightCount c + s.answered c := hcov halive hctx
      show (s.outstandingCount c : Int) < (s.controller c).effectiveDepth
      have hcap : s.inFlightCount c < (s.controller c).effectiveDepth := hcap
      rw [hheld]
      omega
  | execute i op =>
    obtain rfl := Option.some.inj hhands
    cases h with
    | @execute s _ _ hctx hop hcap =>
      have hmem := List.mem_of_getElem? hop
      have hcat : op.category = c := (hk.wellFormed.pending_op op hmem).category_eq.trans hc
      have halive : s.alive := hquiet.alive_of_isWork hctx (List.mem_cons_self ..) rfl
      obtain ⟨hreq, hcalls⟩ := hap op hmem hcat
      have hheld : s.outstandingCount c = s.booked c.counts := by
        refine outstandingCount_eq_booked hreq fun site y ran hf hy => ?_
        have hpending := hcalls site y ran hf hy
        refine ⟨hpending, ?_⟩
        rw [hs.frames site y ran hf, hpending, Bool.true_or]
      have hanswered : s.answered c = 0 := by
        refine List.countP_eq_zero.mpr fun y hy hcy => ?_
        obtain ⟨f, hf, hfy⟩ := List.mem_filterMap.mp hy
        cases f with
        | handOver site z ran =>
          simp only [Frame.answeredCall] at hfy
          split at hfy
          · rename_i hlate
            obtain rfl := Option.some.inj hfy
            have hpending := hcalls site z ran hf (by simpa [OperationCategory.is] using hcy)
            rw [Site.countsLate_of_isPending hpending] at hlate
            cases hlate.1
          · cases hfy
        | _ => cases hfy
      have hbooked : (s.booked c.counts : Int) ≤ s.inFlightCount c + s.answered c := hcov halive hctx
      have hcap : s.inFlightCount c < (s.controller c).effectiveDepth :=
        of_decide_eq_true (hcat ▸ hcap)
      show (s.outstandingCount c : Int) < (s.controller c).effectiveDepth
      rw [hheld]
      omega
  | _ => cases hhands

/-- What an action writes down of the operation that it hands over. -/
theorem Act.handOvers_eq (h : Act k a k') : k'.state.handOvers = k.state.handOvers ∨
    ∃ x cb, k'.state.handOvers = x :: k.state.handOvers ∧ a.hands = some cb ∧ x.cb = cb ∧
      x.outstanding = k.state.outstandingCount cb.operationCategory ∧
      x.depth = (k.state.controller cb.operationCategory).effectiveDepth := by
  rcases h.rarely.2.2 with hsame | ⟨site, cb, rfl⟩ | ⟨i, op, rfl⟩
  · exact .inl hsame
  · cases h with
    | start =>
      dsimp only [State.handOver, State.passRetained, State.register, State.newCaller]
      exact .inr ⟨_, cb, rfl, rfl, rfl, rfl, rfl⟩
  · cases h with
    | execute =>
      dsimp only [State.executePending, State.handOver, State.addInFlight]
      exact .inr ⟨_, op.cbData, rfl, rfl, rfl, rfl, rfl⟩

/-- One action that keeps the slots stays within the depth. -/
theorem WithinDepth.act (hd : WithinDepth c k.state) (hw : WellFormed k'.state)
    (hbound : Bounded k.state) (h : Act k a k')
    (hlt : ∀ cb, a.hands = some cb → cb.operationCategory = c →
      (k.state.outstandingCount c : Int) < (k.state.controller c).effectiveDepth) :
    WithinDepth c k'.state where
  below := by
    intro x hx hc
    rcases h.handOvers_eq with hsame | ⟨y, cb, heq, hhands, hcb, hout, hdepth⟩
    · exact hd.below x (hsame ▸ hx) hc
    · rw [heq] at hx
      rcases List.mem_cons.mp hx with rfl | hx
      · rw [hcb] at hc
        rw [hout, hdepth, hc]
        exact hlt cb hhands hc
      · exact hd.below x hx hc
  atMost := by
    have hle := h.outstandingCount_le hw c
    cases hhands : a.hands with
    | none =>
      rw [hhands] at hle
      have := hd.atMost
      simp only [Option.toList_none, List.countP_nil, Nat.zero_add] at hle
      omega
    | some cb =>
      rw [hhands, Option.toList_some, List.countP_singleton] at hle
      by_cases hc : cb.operationCategory = c
      · have hless := hlt cb hhands hc
        have hdepth := (hbound c).le_32
        split at hle <;> omega
      · have hnot : ¬ c.is cb := by simpa [OperationCategory.is] using hc
        rw [if_neg hnot] at hle
        have := hd.atMost
        omega

/-- In a run whose steps all keep the slots of a category, every operation of the category that is handed
to libnfs, at whatever entry point, finds fewer operations of the category there than the effective depth;
and libnfs never holds more than 32 of them. -/
theorem handOvers_within_depth {timeout : Int} (h : Reaches step (KeepsSlots c) (State.init timeout) t) :
    (∀ x ∈ t.handOvers, x.cb.operationCategory = c → (x.outstanding : Int) < x.depth) ∧
      t.outstandingCount c ≤ 32 := by
  have hrun := run_invariant_init h
    (fun k => ((Quiet k ∧ Bounded k.state ∧ SitesCount k.state) ∧ Covered c k ∧ Apart c k.state) ∧
      WithinDepth c k.state)
    ⟨⟨⟨quiet_of_reachable .refl, bounded_of_reachable .refl, sitesCount_init timeout⟩,
      covered_init timeout c, apart_init timeout c⟩, withinDepth_init timeout c⟩
    fun u e k a k' hP hk hI ha hact => by
      obtain ⟨⟨⟨hquiet, hbound, hs⟩, hcov, hap⟩, hd⟩ := hI
      have hquiet' := hquiet.act hk hact
      have hbound' : Bounded k'.state := Controlled.act (fun _ b hp => hp.record b)
        (fun _ hp => hp.reset) hbound hact
      refine ⟨⟨⟨hquiet', hbound', hs.act hact⟩, hcov.act hk hs hP ha hact,
        hap.act hs hP ha hact⟩, ?_⟩
      exact hd.act (hk.wellFormed.act hact) hbound hact fun cb hhands hc =>
        lt_depth_of_hands hk hquiet' hcov hap hs hP ha hact hhands hc
  exact ⟨hrun.2.2.below, hrun.2.2.atMost⟩

/-- Three stats, the third of which waits for the reply to the first. -/
theorem handOvers_within_depth_stats :
    ∃ t, run step (State.init 60000000000)
      [.block Block.stat, .ret 0 {}, .block Block.stat, .ret 0 {}, .block Block.stat,
        .block .handleIOEvent, .callback 1 0 (some (.pointer 7)), .ret 0 {}, .ret 0 {}] = some t ∧
      t.handOvers.length = 3 ∧
      (∀ x ∈ t.handOvers, x.cb.operationCategory = .metadata → (x.outstanding : Int) < x.depth) ∧
      t.outstandingCount .metadata ≤ 32 := by
  have hrun : ((run step (State.init 60000000000)
      [.block Block.stat, .ret 0 {}, .block Block.stat, .ret 0 {}, .block Block.stat,
        .block .handleIOEvent, .callback 1 0 (some (.pointer 7)), .ret 0 {}, .ret 0 {}]).any fun t =>
      t.handOvers.length = 3) = true := by
    decide +kernel
  have hkeeps : meets step (fun s e => decide (KeepsSlots .metadata s e)) (State.init 60000000000)
      [.block Block.stat, .ret 0 {}, .block Block.stat, .ret 0 {}, .block Block.stat,
        .block .handleIOEvent, .callback 1 0 (some (.pointer 7)), .ret 0 {}, .ret 0 {}] = true := by
    decide +kernel
  obtain ⟨t, ht, hlength⟩ := (Option.any_eq_true _ _).mp hrun
  exact ⟨t, ht, of_decide_eq_true hlength,
    handOvers_within_depth (reaches_of_run (fun _ _ => of_decide_eq_true) ht hkeeps)⟩

/-- A file is open, and 33 reads of it are handed over at once: the depth is 2 all the while. -/
theorem reads_exceed_depth :
    ∃ t, run step (State.init 60000000000)
      ([.block Block.openFile, .ret 0 {}, .block .handleIOEvent, .callback 1 0 (some (.pointer 7)),
        .ret 0 {}, .block (.registerHandle 0)] ++
        (List.replicate 33 [Event.block (.preadFile 1), .ret 0 {}]).flatten) = some t ∧
      (∃ x ∈ t.handOvers, x.cb.operationCategory = .bulk ∧ ¬ (x.outstanding : Int) < x.depth) ∧
      t.outstandingCount .bulk = 33 := by
  have hrun : ((run step (State.init 60000000000)
      ([.block Block.openFile, .ret 0 {}, .block .handleIOEvent, .callback 1 0 (some (.pointer 7)),
        .ret 0 {}, .block (.registerHandle 0)] ++
        (List.replicate 33 [Event.block (.preadFile 1), .ret 0 {}]).flatten)).any fun t =>
      (∃ x ∈ t.handOvers, x.cb.operationCategory = .bulk ∧ ¬ (x.outstanding : Int) < x.depth) ∧
      t.outstandingCount .bulk = 33) = true := by
    decide +kernel
  obtain ⟨t, ht, hfacts⟩ := (Option.any_eq_true _ _).mp hrun
  exact ⟨t, ht, of_decide_eq_true hfacts⟩

end NFSKit
