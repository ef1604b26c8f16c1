import NFSKit.EventLoop.Proofs.RequestProofs
import NFSKit.Foundations.AssocList

/-!
# Reads into a caller's buffer

libnfs writes through the buffer and the handle of a `preadIntoBuffer` until its callback has run or
its context is destroyed. As long as no timeout scan expires such a read, its caller goes on waiting
until then, so the task group keeps the buffer and the `NFSFileHandle` keeps the handle.
-/

namespace NFSKit

open Machine AssocList

variable {s s' : State} {k k' : Config} {a : Action}

/-- Whether `cb` is a read into a caller's buffer. -/
def CallbackData.IsRead (cb : CallbackData) : Prop := cb.entry = .preadIntoBuffer

/-- The reads libnfs holds, the buffers that were released and the handles that are being closed. -/
structure ReadsWait (s : State) : Prop where
  pending : ∀ op ∈ s.pendingOperations, ¬ op.cbData.IsRead
  frames : ∀ site cb ran, Frame.handOver site cb ran ∈ s.stack → cb.IsRead →
    site = .handleOperation
  ctx : ∀ r ∈ s.outstanding, r.cb.IsRead → r.ctx = .nfs
  waiting : ∀ cb, cb.IsRead → 0 < s.requests cb → s.outcomes cb.caller = []
  released : ∀ b ∈ s.releasedBuffers, ∀ cb ∈ s.created, cb.destBuffer = some b →
    s.outcomes cb.caller ≠ []
  keys : ∀ p ∈ s.registrations, p.1 < s.nextHandleID
  registry : ∀ p ∈ s.handleRegistry, s.registrations.lookup p.1 = some p.2
  closed : ∀ fh, Frame.close fh ∈ s.stack → ∀ cb ∈ s.created, cb.IsRead → cb.handle = some fh →
    s.outcomes cb.caller ≠ []

/-- What libnfs holds is requested. -/
theorem requests_pos_of_holds {cb : CallbackData} (h : s.Holds cb) : 0 < s.requests cb := by
  obtain ⟨r, hr, rfl⟩ | ⟨f, hf, hcall⟩ := h
  · have : 0 < s.outstanding.countP (fun q => q.cb = r.cb) :=
      List.countP_pos_iff.mpr ⟨r, hr, by simp⟩
    unfold Core.requests
    omega
  · have : 0 < (s.stack.filterMap Frame.inCall).count cb :=
      List.count_pos_iff.mpr (List.mem_filterMap.mpr ⟨f, hf, hcall⟩)
    unfold Core.requests
    omega

/-- What is requested and not queued, libnfs holds. -/
theorem holds_of_requests_pos {cb : CallbackData} (h : 0 < s.requests cb)
    (hpending : ∀ op ∈ s.pendingOperations, op.cbData ≠ cb) : s.Holds cb := by
  have hzero : s.pendingOperations.countP (fun op => op.cbData = cb) = 0 :=
    List.countP_eq_zero.mpr fun op hop => by simpa using hpending op hop
  unfold Core.requests at h
  rw [hzero] at h
  by_cases hout : 0 < s.outstanding.countP (fun r => r.cb = cb)
  · obtain ⟨r, hr, heq⟩ := List.countP_pos_iff.mp hout
    exact .inl ⟨r, hr, by simpa using heq⟩
  · have hcall : 0 < (s.stack.filterMap Frame.inCall).count cb := by omega
    obtain ⟨f, hf, hf'⟩ := List.mem_filterMap.mp (List.count_pos_iff.mp hcall)
    exact .inr ⟨f, hf, hf'⟩

namespace ReadsWait

/-- A read that is registered by an action is handed to libnfs by `preadIntoBuffer`. -/
theorem start_of_made (h : Act k a k') {cb : CallbackData} (hmade : a.made = some cb)
    (hread : cb.IsRead) : a = .start .handleOperation cb ∧ k.state.stack = [] ∧
      ∀ b, cb.destBuffer = some b → b ∉ k.state.releasedBuffers := by
  cases h with
  | start hstack _ _ _ _ hwell hissued =>
    cases hmade
    obtain ⟨b, hb⟩ := Option.isSome_iff_exists.mp (hwell.dest.mpr hread)
    obtain ⟨hsite, -⟩ := hissued.dest b hb
    exact ⟨by rw [hsite], hstack, fun b hb => (hissued.dest b hb).2.1⟩
  | overflow _ _ _ _ hentry =>
    cases hmade
    obtain ⟨type, hentry⟩ := hentry
    rw [CallbackData.IsRead, hentry] at hread
    cases hread
  | enqueue _ _ _ _ hentry =>
    cases hmade
    rw [CallbackData.IsRead, hentry] at hread
    cases hread
  | _ => cases hmade

/-- One action keeps the reads waiting, if it is no expiry of a read that libnfs holds. -/
theorem act {u : State} {e : Event} (hspares : ScanSparesReads u e) (hk : Sound k)
    (hr : ReadsWait k.state) (ha : Allowed u e k a) (h : Act k a k') : ReadsWait k'.state := by
  have hw := hk.wellFormed
  have he := h.effects
  have hpending : ∀ op ∈ k'.state.pendingOperations, ¬ op.cbData.IsRead := by
    intro op hop
    rcases he.pending op hop with hop | ⟨type, cb, rfl, rfl⟩
    · exact hr.pending op hop
    · cases h with
      | enqueue _ _ _ _ hentry => simp [CallbackData.IsRead, hentry]
  have hframes : ∀ site cb ran, Frame.handOver site cb ran ∈ k'.state.stack → cb.IsRead →
      site = .handleOperation := by
    intro site cb ran hf hread
    rcases h.handOver_mem hf with ⟨ran', hf'⟩ | rfl | ⟨i, op, -, hop, rfl⟩
    · exact hr.frames site cb ran' hf' hread
    · have hstart := (start_of_made h rfl hread).1
      injection hstart
    · exact absurd hread (hr.pending op hop)
  have hctx : ∀ r ∈ k'.state.outstanding, r.cb.IsRead → r.ctx = .nfs := by
    intro r hmem hread
    rcases he.outstanding r hmem with hmem | ⟨site, cb, ran, rfl, rfl⟩
    · exact hr.ctx r hmem hread
    · cases h with
      | accept hstack =>
        rw [hr.frames site cb ran (hstack ▸ List.mem_cons_self ..) hread]
        rfl
  refine ⟨hpending, hframes, hctx, ?_, ?_, ?_, ?_, ?_⟩
  · -- waiting
    intro cb hread hpos
    have hbefore : k.state.outcomes cb.caller = [] := by
      by_cases hmade : a.made = some cb
      · exact (hk.resumption.fresh cb.caller (h.made_fresh hmade).2.ge).1
      · exact hr.waiting cb hread (Nat.lt_of_lt_of_le hpos (h.requests_le hmade))
    cases h.untouched hk hpos with
    | same heq => rw [heq, hbefore]
    | expired =>
      obtain ⟨rfl, hmem, hexpired, htimeout, -, hout⟩ := ha
      refine absurd ?_ (hspares cb (by simp [scanExpires, htimeout, hmem, hexpired]) hread)
      obtain ⟨r, hr, heq⟩ | ⟨f, hf, hcall⟩ := holds_of_requests_pos hpos fun op hop heq =>
        hpending op hop (heq ▸ hread)
      · refine .inl ⟨r, ?_, heq⟩
        cases h with
        | @expire s c hstack =>
          rw [(State.expire_fields s cb).2.2.1] at hr
          exact hout ▸ hr
      · cases h with
        | @expire s c hstack =>
          rw [(State.expire_fields s cb).1, hstack] at hf
          cases hf
    | tornDown hout hstack hnone =>
      obtain ⟨r, hmem, rfl⟩ | ⟨f, hf, -⟩ := holds_of_requests_pos hpos fun op hop => by
        rw [hnone] at hop
        cases hop
      · have hnfs := hctx r hmem hread
        rw [hout, List.mem_filter, hnfs] at hmem
        simp at hmem
      · rw [hstack] at hf
        cases hf
  · -- released
    intro b hb cb hcb hdest
    rw [he.created, List.mem_append, Option.mem_toList] at hcb
    rcases hcb with hmade | hcb
    · -- a new read does not use a released buffer
      have hread : cb.IsRead := (h.made_fresh hmade).1.dest.mp (by simp [hdest])
      obtain ⟨rfl, -, hfree⟩ := start_of_made h hmade hread
      rw [he.releasedBuffers] at hb
      exact absurd hb (hfree b hdest)
    · refine he.outcomes _ ?_
      rw [he.releasedBuffers, List.mem_append, Option.mem_toList] at hb
      rcases hb with hb | hb
      · cases h with
        | releaseBuffer hall =>
          cases hb
          have hdone := List.all_eq_true.mp hall cb hcb
          simpa [hdest] using hdone
        | _ => cases hb
      · exact hr.released b hb cb hcb hdest
  · -- keys
    intro p hp
    rcases he.handles with ⟨opener, fh, rfl⟩ | ⟨hregistrations, hnext, -⟩
    · cases h with
      | @registerHandle s =>
        rcases List.mem_cons.mp hp with rfl | hp
        · exact Nat.lt_succ_self _
        · exact Nat.lt_succ_of_lt (hr.keys p hp)
    · rw [hregistrations] at hp
      rw [hnext]
      exact hr.keys p hp
  · -- registry
    intro p hp
    rcases he.handles with ⟨opener, fh, rfl⟩ | ⟨hregistrations, -, hregistry⟩
    · cases h with
      | @registerHandle s =>
        rcases List.mem_cons.mp hp with rfl | hp
        · exact List.lookup_cons_self
        · have hlookup := hr.registry p hp
          have hlt : p.1 < s.nextHandleID := hr.keys _ (mem_of_lookup hlookup)
          have hne : (p.1 == s.nextHandleID) = false := by simpa using Nat.ne_of_lt hlt
          show List.lookup p.1 ((s.nextHandleID, fh) :: s.registrations) = _
          rw [List.lookup_cons, hne]
          exact hlookup
    · rw [hregistrations]
      exact hr.registry p (hregistry p hp)
  · -- closed
    intro fh hf cb hcb hread hhandle
    have hold : Frame.close fh ∈ k.state.stack → k'.state.outcomes cb.caller ≠ [] := by
      intro hf
      rw [he.created, List.mem_append, Option.mem_toList] at hcb
      rcases hcb with hmade | hcb
      · -- no read is made inside a call
        obtain ⟨-, hstack, -⟩ := start_of_made h hmade hread
        rw [hstack] at hf
        cases hf
      · exact he.outcomes _ (hr.closed fh hf cb hcb hread hhandle)
    rcases he.frames _ hf with hf | ⟨g, hg, _, _, _, -, heq⟩ | hpush
    · exact hold hf
    · cases g with
      | handOver => cases heq
      | _ => exact hold (heq ▸ hg)
    · cases h with
      | @enterClose s n fh' hstack hctx hlookup hdone =>
        have hpush : Frame.close fh = .close fh' := hpush
        cases hpush
        have hreg : s.registrations.lookup n = some fh := hr.registry _ (mem_of_lookup hlookup)
        have hcb' := List.all_eq_true.mp hdone cb hcb
        simpa [hhandle, hreg] using hcb'
      | enter hstack hservice =>
        have hpush : Frame.close fh = _ := hpush
        obtain rfl | ⟨n, rfl⟩ := hservice <;> cases hpush
      | callback | callbackDead | enterDestroy | reject | rejectPending | rejectRaw | rejectHandle
      | rejectExports =>
        obtain ⟨_, h⟩ := hpush
        cases h
      | _ => cases hpush

end ReadsWait

/-! ## Runs -/

theorem readsWait_init (timeout : Int) : ReadsWait (State.init timeout) where
  pending := by simp [State.init]
  frames := by simp [State.init]
  ctx := by simp [State.init]
  waiting := by simp [State.init, Core.requests]
  released := by simp [State.init]
  keys := by simp [State.init]
  registry := by simp [State.init]
  closed := by simp [State.init]

/-- As long as no timeout scan expires a read into a caller's buffer that libnfs holds, libnfs does not
hold the request of such a read any more when its caller has been resumed; no read that it holds
targets a buffer that was released; and while `NFSFileHandle.deinit` closes a handle, it holds no read
on that handle. -/
theorem read_buffer_outlives_request {timeout : Int} {t : State}
    (h : Reaches step ScanSparesReads (State.init timeout) t) :
    (∀ cb, cb.entry = .preadIntoBuffer → t.outcomes cb.caller ≠ [] → ¬ t.Holds cb) ∧
      (∀ cb, cb.entry = .preadIntoBuffer → t.Holds cb → ∀ b, cb.destBuffer = some b →
        b ∉ t.releasedBuffers) ∧
      ∀ fh, Frame.close fh ∈ t.stack → ∀ cb, cb.entry = .preadIntoBuffer → t.Holds cb →
        cb.handle ≠ some fh := by
  obtain ⟨hk, hr⟩ := run_invariant_init h (fun k => ReadsWait k.state) (readsWait_init timeout)
    fun u e k a k' hspares hk hr ha hact => hr.act hspares hk ha hact
  have hwaiting : ∀ cb, cb.entry = .preadIntoBuffer → t.Holds cb →
      t.outcomes cb.caller = [] ∧ cb ∈ t.created := fun cb hread hholds =>
    ⟨hr.waiting cb hread (requests_pos_of_holds hholds),
      requested_created hk.wellFormed (requests_pos_of_holds hholds)⟩
  refine ⟨fun cb hread hout hholds => hout (hwaiting cb hread hholds).1,
    fun cb hread hholds b hdest hb => ?_, fun fh hf cb hread hholds hhandle => ?_⟩
  · obtain ⟨hout, hcreated⟩ := hwaiting cb hread hholds
    exact hr.released b hb cb hcreated hdest hout
  · obtain ⟨hout, hcreated⟩ := hwaiting cb hread hholds
    exact hr.closed fh hf cb hcreated hread hhandle hout

/-- A read that libnfs answers, after which the buffer is released. -/
theorem read_buffer_outlives_request_reply :
    ∃ t, run step (State.init 60000000000)
      [.block Block.openFile, .ret 0 {}, .block .handleIOEvent, .callback 1 0 (some (.pointer 7)),
        .ret 0 {}, .block (.registerHandle 0), .block (.preadIntoBuffer 1 0), .ret 0 {},
        .tick 1000, .block .scanForTimeouts, .block .handleIOEvent, .callback 2 4096 none,
        .ret 0 {}, .releaseBuffer 0] = some t ∧
      ∃ cb ∈ t.created, cb.entry = .preadIntoBuffer ∧ t.outcomes cb.caller ≠ [] ∧ ¬ t.Holds cb := by
  have hrun : ((run step (State.init 60000000000)
      [.block Block.openFile, .ret 0 {}, .block .handleIOEvent, .callback 1 0 (some (.pointer 7)),
        .ret 0 {}, .block (.registerHandle 0), .block (.preadIntoBuffer 1 0), .ret 0 {},
        .tick 1000, .block .scanForTimeouts, .block .handleIOEvent, .callback 2 4096 none,
        .ret 0 {}, .releaseBuffer 0]).any fun t =>
      t.created.any fun cb => cb.entry = .preadIntoBuffer ∧ t.outcomes cb.caller ≠ []) = true := by
    decide +kernel
  have hspares : meets step (fun s e => decide (ScanSparesReads s e)) (State.init 60000000000)
      [.block Block.openFile, .ret 0 {}, .block .handleIOEvent, .callback 1 0 (some (.pointer 7)),
        .ret 0 {}, .block (.registerHandle 0), .block (.preadIntoBuffer 1 0), .ret 0 {},
        .tick 1000, .block .scanForTimeouts, .block .handleIOEvent, .callback 2 4096 none,
        .ret 0 {}, .releaseBuffer 0] = true := by
    decide +kernel
  obtain ⟨t, ht, hx⟩ := (Option.any_eq_true _ _).mp hrun
  obtain ⟨cb, hcb, hx⟩ := List.any_eq_true.mp hx
  obtain ⟨hread, hout⟩ := of_decide_eq_true hx
  have hsafe := read_buffer_outlives_request (reaches_of_run (fun _ _ => of_decide_eq_true) ht hspares)
  exact ⟨t, ht, cb, hcb, hread, hout, hsafe.1 cb hread hout⟩

/-- The timeout scan resumes the caller of a read whose request libnfs still holds; the task group
releases the buffer, and a late reply would still be written into it. -/
theorem read_buffer_released_early :
    ∃ t, run step (State.init 60000000000)
      [.block Block.openFile, .ret 0 {}, .block .handleIOEvent, .callback 1 0 (some (.pointer 7)),
        .ret 0 {}, .block (.registerHandle 0), .block (.preadIntoBuffer 1 0), .ret 0 {},
        .tick 60000000001, .block .scanForTimeouts, .releaseBuffer 0,
        .block (.closeFileFireAndForget 1)] = some t ∧
      ∃ cb ∈ t.created, cb.entry = .preadIntoBuffer ∧ t.outcomes cb.caller ≠ [] ∧ t.Holds cb ∧
        cb.destBuffer = some 0 ∧ 0 ∈ t.releasedBuffers ∧
        cb.handle = some 7 ∧ Frame.close 7 ∈ t.stack := by
  have hrun : ((run step (State.init 60000000000)
      [.block Block.openFile, .ret 0 {}, .block .handleIOEvent, .callback 1 0 (some (.pointer 7)),
        .ret 0 {}, .block (.registerHandle 0), .block (.preadIntoBuffer 1 0), .ret 0 {},
        .tick 60000000001, .block .scanForTimeouts, .releaseBuffer 0,
        .block (.closeFileFireAndForget 1)]).any fun t =>
      t.created.any fun cb => cb.entry = .preadIntoBuffer ∧ t.outcomes cb.caller ≠ [] ∧ t.Holds cb ∧
        cb.destBuffer = some 0 ∧ 0 ∈ t.releasedBuffers ∧
        cb.handle = some 7 ∧ Frame.close 7 ∈ t.stack) = true := by
    decide +kernel
  obtain ⟨t, ht, hx⟩ := (Option.any_eq_true _ _).mp hrun
  obtain ⟨cb, hcb, hx⟩ := List.any_eq_true.mp hx
  exact ⟨t, ht, cb, hcb, of_decide_eq_true hx⟩

end NFSKit
