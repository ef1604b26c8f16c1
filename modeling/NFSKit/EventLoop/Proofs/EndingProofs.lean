import NFSKit.EventLoop.Proofs.WellFormedProofs

/-!
# The end of a loop

Once a teardown has finished, or the last reference is gone and no block is running, there is no
context.
-/

namespace NFSKit

open Machine

/-- Whether the frame is the call of `rpc_destroy_context` that `performShutdown` waits for. -/
def Frame.awaitsShutdown : Frame → Bool
  | .rpcDestroy _ .performShutdown => true
  | _ => false

/-- Whether the frame is a call of `nfs_destroy_context`. -/
def Frame.isDestroy : Frame → Bool
  | .destroy _ _ => true
  | _ => false

namespace Ending

variable {s : State} {m m' : Mode}

/-- The registry, the counters and the callers play no part. -/
theorem congr {s' : State} (hd : Ending ⟨s, m⟩) (hstack : s'.stack = s.stack)
    (hctx : s'.context = s.context) (hteardowns : s'.teardowns = s.teardowns)
    (halive : s'.alive = s.alive) : Ending ⟨s', m⟩ where
  destroyed := by
    simp only [hstack, hctx]
    exact hd.destroyed
  torn := by
    simp only [hteardowns, hctx]
    exact hd.torn
  dead := by
    simp only [hstack, hctx, halive]
    exact hd.dead

/-- Outside a teardown the mode plays no part. -/
theorem remode (hd : Ending ⟨s, m⟩) (hm : m ≠ .tearingDown .performShutdown) : Ending ⟨s, m'⟩ where
  destroyed := hd.destroyed
  torn := hd.torn
  dead := fun h => by
    rcases hd.dead h with hc | hm' | hl
    · exact .inl hc
    · exact absurd hm' hm
    · exact .inr (.inr hl)

theorem push {f : Frame} (hd : Ending ⟨s, m⟩) (hm : m ≠ .tearingDown .performShutdown)
    (hf : f.isDestroy = false) : Ending ⟨{ s with stack := f :: s.stack }, m'⟩ where
  destroyed := fun kind conts h => by
    rcases List.mem_cons.mp h with rfl | h
    · cases hf
    · exact hd.destroyed kind conts h
  torn := hd.torn
  dead := fun h => by
    rcases hd.dead h with hc | hm' | ⟨n, hn⟩
    · exact .inl hc
    · exact absurd hm' hm
    · refine .inr (.inr ⟨n, ?_⟩)
      show (f :: s.stack).getLast? = _
      rw [List.getLast?_cons, show s.stack.getLast? = _ from hn]
      rfl

theorem leave {f : Frame} {rest : List Frame} (hd : Ending ⟨s, m⟩) (hstack : s.stack = f :: rest)
    (hm : m ≠ .tearingDown .performShutdown) (hf : f.awaitsShutdown = false) :
    Ending ⟨s.leaveTo rest, m'⟩ where
  destroyed := fun kind conts h =>
    hd.destroyed kind conts (show _ ∈ s.stack from hstack ▸ List.mem_cons_of_mem _ h)
  torn := hd.torn
  dead := fun h => by
    rcases hd.dead h with hc | hm' | ⟨n, hn⟩
    · exact .inl hc
    · exact absurd hm' hm
    · refine .inr (.inr ⟨n, ?_⟩)
      have hlast : (f :: rest).getLast? = some (.rpcDestroy n .performShutdown) := hstack ▸ hn
      cases rest with
      | nil =>
        obtain rfl : f = _ := by simpa using hlast
        cases hf
      | cons g rest =>
        show (g :: rest).getLast? = _
        simpa [List.getLast?_cons] using hlast

/-- Noting a callback leaves the calls in place. -/
theorem note {f : Frame} {rest : List Frame} {caller : Nat} (hd : Ending ⟨s, m⟩)
    (hstack : s.stack = f :: rest) :
    Ending ⟨{ s with stack := f.noteCallback caller :: rest }, m⟩ where
  destroyed := fun kind conts h => by
    refine hd.destroyed kind conts (show _ ∈ s.stack from ?_)
    rw [hstack]
    rcases List.mem_cons.mp h with h | h
    · cases f with
      | handOver => cases h
      | _ => exact List.mem_cons.mpr (.inl h)
    · exact List.mem_cons_of_mem _ h
  torn := hd.torn
  dead := fun h => by
    rcases hd.dead h with hc | hm' | ⟨n, hn⟩
    · exact .inl hc
    · exact .inr (.inl hm')
    · refine .inr (.inr ⟨n, ?_⟩)
      have hlast : (f :: rest).getLast? = some (.rpcDestroy n .performShutdown) := hstack ▸ hn
      cases rest with
      | nil =>
        obtain rfl : f = _ := by simpa using hlast
        rfl
      | cons g rest => simpa [List.getLast?_cons] using hlast

/-- A loop without a context is at its end, whatever has run. -/
theorem of_noContext (hctx : s.context = none) : Ending ⟨s, m⟩ where
  destroyed := fun _ _ _ => hctx
  torn := fun _ => hctx
  dead := fun _ => .inl hctx

theorem withBuffers (hd : Ending ⟨s, m⟩) (b : Nat → HeapBuffer) : Ending ⟨s.withBuffers b, m⟩ :=
  hd.congr rfl rfl rfl rfl

theorem resume (hd : Ending ⟨s, m⟩) (cb : CallbackData) (r : Outcome) :
    Ending ⟨s.resume cb r, m⟩ := by
  rw [State.resume_eq]
  exact hd.congr rfl rfl rfl rfl

theorem recordCompletion (hd : Ending ⟨s, m⟩) (c : OperationCategory) (ok : Bool) :
    Ending ⟨s.recordCompletion c ok, m⟩ := by
  rw [State.recordCompletion_eq]
  exact hd.congr rfl rfl rfl rfl

theorem removeActive (hd : Ending ⟨s, m⟩) (id : Nat) : Ending ⟨s.removeActive id, m⟩ :=
  hd.congr rfl rfl rfl rfl

theorem refuse {f : Frame} {rest : List Frame} {id : Nat} {cb : CallbackData} (hd : Ending ⟨s, .idle⟩)
    (hstack : s.stack = f :: rest) (hf : f.awaitsShutdown = false) :
    Ending ⟨s.refuse rest id cb, m'⟩ :=
  (hd.leave hstack (by simp) hf).congr rfl rfl rfl rfl

theorem addInFlight (hd : Ending ⟨s, m⟩) (c : OperationCategory) (d : Int) :
    Ending ⟨s.addInFlight c d, m⟩ :=
  hd.congr rfl rfl rfl rfl

theorem resumeContinuation (hd : Ending ⟨s, m⟩) (caller : Nat) (r : Outcome) :
    Ending ⟨s.resumeContinuation caller r, m⟩ :=
  hd.congr rfl rfl rfl rfl

theorem enqueueRequest (hd : Ending ⟨s, m⟩) (ctx : Ctx) (cb : CallbackData) (ran : List Nat) :
    Ending ⟨s.enqueueRequest ctx cb ran, m⟩ := by
  rw [State.enqueueRequest_eq]
  exact hd.congr rfl rfl rfl rfl

/-- A callback that enters its completion hook. -/
theorem enterHook {s₁ s₂ : State} {f : Frame} {rest : List Frame} {cb : CallbackData} {status : Int}
    {data : Option Value} (hd : Ending ⟨s, .idle⟩) (hstack : s.stack = f :: rest)
    (htake : s.takeRequest f rest cb.continuationID = some (cb, s₁))
    (hnote : s₁.noteDelivery cb status data = some s₂) :
    Ending ⟨s₂.enterHook cb status data, m'⟩ := by
  obtain ⟨out, fhs, dirs, b, r, -, heq⟩ := State.callback_eq htake hnote
  have hpush : Ending ⟨{ s with
      stack := .completionHook cb r :: f.noteCallback cb.caller :: rest }, m'⟩ :=
    (hd.note hstack).push (by simp) rfl
  rw [heq]
  exact hpush.congr rfl rfl rfl rfl

/-- One action keeps the record of the end. -/
theorem act {k k' : Config} {a : Action} (hw : WellFormed k.state) (hd : Ending k)
    (h : Act k a k') : Ending k' := by
  cases h with
  | silent hcore halive =>
    exact hd.congr (by rw [hcore]) (by rw [hcore]) (by rw [hcore]) halive
  | releaseBuffer | immediate | overflow | enqueue | closing | dropHandle | registerHandle
  | readdirAll | dropDir => exact hd.congr rfl rfl rfl rfl
  | deinit => exact ⟨hd.destroyed, hd.torn, fun _ => .inr (.inl rfl)⟩
  | startTeardown hstack hm =>
    refine ⟨hd.destroyed, hd.torn, fun h => ?_⟩
    rcases hd.dead h with hc | hm' | ⟨n, hn⟩
    · exact .inl hc
    · rcases hm with rfl | rfl
      · cases hm'
      · exact .inr (.inl hm')
    · exact .inr (.inr ⟨n, hn⟩)
  | start | enterClose => exact (hd.push (by simp) rfl).congr rfl rfl rfl rfl
  | enter hstack hf =>
    obtain rfl | ⟨n, rfl⟩ := hf <;> exact hd.push (by simp) rfl
  | @leave s f rest m hstack hf =>
    refine hd.leave hstack (by simp) ?_
    cases f <;> first | rfl | cases hf
  | expire =>
    exact ((hd.removeActive _).recordCompletion _ _).resume _ _
  | callback halive hstack htake hnote =>
    exact ((hd.enterHook hstack htake hnote).removeActive _).recordCompletion _ _
  | callbackDead halive hstack htake hnote => exact hd.enterHook hstack htake hnote
  | skip | drained => exact hd.remode (by simp)
  | execute => exact (hd.push (by simp) rfl).congr rfl rfl rfl rfl
  | finishHook =>
    unfold State.finishHook
    split
    · rename_i hstack
      exact (hd.leave hstack (by simp) rfl).resume _ _
    · exact hd.remode (by simp)
  | @accept s site cb ran rest hstack =>
    have h : Ending ⟨s.leaveTo rest, site.next⟩ := hd.leave hstack (by simp) rfl
    split
    · exact (h.enqueueRequest _ _ _).addInFlight _ _
    · exact h.enqueueRequest _ _ _
  | reject hstack => exact (hd.refuse hstack rfl).resume _ _
  | rejectPending hstack => exact ((hd.refuse hstack rfl).addInFlight _ _).resume _ _
  | rejectRaw hstack => exact (hd.refuse hstack rfl).resumeContinuation _ _
  | rejectHandle hstack => exact ((hd.refuse hstack rfl).withBuffers _).resumeContinuation _ _
  | @rejectExports s n k cb ran rest hstack =>
    have h : Ending ⟨s.leaveTo rest, .idle⟩ := hd.leave hstack (by simp) rfl
    have hpush : Ending ⟨{ s with stack := .rpcDestroy k (.getexports cb) :: rest }, .idle⟩ :=
      h.push (by simp) rfl
    exact hpush.congr rfl rfl rfl rfl
  | @enterRpcDestroy s n next hstack hnext =>
    cases next with
    | getexports cb => cases hnext
    | done => exact hd.push (by simp [AfterCleanup.mode]) rfl
    | performShutdown =>
      refine ⟨fun kind conts h => ?_, hd.torn, fun _ => .inr (.inr ⟨n, ?_⟩)⟩
      · rw [hstack, List.mem_singleton] at h
        cases h
      · rw [hstack]
        rfl
  | @leaveRpcDestroy s n next rest hstack hnext =>
    cases next with
    | getexports cb => cases hnext
    | done => exact (hd.leave hstack (by simp) rfl).congr rfl rfl rfl rfl
    | performShutdown =>
      refine ⟨fun kind conts h => ?_, hd.torn, fun _ => .inr (.inl rfl)⟩
      exact hd.destroyed kind conts (show _ ∈ s.stack from hstack ▸ List.mem_cons_of_mem _ h)
  | exportsFailed hstack => exact (hd.leave hstack (by simp) rfl).congr rfl rfl rfl rfl
  | enterDestroy => exact .of_noContext rfl
  | @leaveDestroy s kind conts rest hstack =>
    have hctx : s.context = none := hd.destroyed kind conts (hstack ▸ List.mem_cons_self ..)
    exact .of_noContext ((State.endTeardown_context _ _ _).trans hctx)
  | @teardownNow s kind hctx =>
    have hclear : (s.clearRegistries kind).context = none := by cases kind <;> exact hctx
    exact .of_noContext ((State.endTeardown_context _ _ _).trans hclear)
  | alreadyDown hctx => exact .of_noContext hctx

end Ending

theorem ending_init (timeout : Int) : Ending (State.init timeout).config where
  destroyed := by simp [State.init, State.config]
  torn := by simp [State.init, State.config]
  dead := by simp [State.init, State.config]

/-- What holds of a loop that has been torn down, in every reachable state. -/
theorem ending_of_reachable {timeout : Int} {t : State}
    (h : Reachable step (State.init timeout) t) : Ending t.config :=
  (run_invariant h Ending (wellFormed_init timeout) (ending_init timeout)
    fun _ _ _ _ _ _ hw hI _ hact => hI.act hw hact).2

end NFSKit
