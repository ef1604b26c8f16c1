import NFSKit.EventLoop.Holdings
import NFSKit.EventLoop.Proofs.TeardownProofs

/-!
# The ledger of the export contexts
-/

namespace NFSKit

open Machine

variable {s t : State} {e : Event}

theorem leavingRpc_eq (s : State) : s.leavingRpc = (s.rpcCalls.find? Prod.snd).map Prod.fst := rfl

theorem leavingRpc_of_nil (h : s.rpcCalls = []) : s.leavingRpc = none := by
  rw [leavingRpc_eq, h]
  rfl

theorem leavingRpc_of_single {c : Nat × Bool} (h : s.rpcCalls = [c]) :
    s.leavingRpc = if c.2 then some c.1 else none := by
  rw [leavingRpc_eq, h, List.find?_singleton]
  by_cases hc : c.2
  · rw [if_pos hc, if_pos hc]
    rfl
  · rw [if_neg hc, if_neg hc]
    rfl

/-- Only one call on an export context is in progress at a time. -/
theorem rpcCalls_eq_of_mem (hnested : NestedAbove s.stack) {c : Nat × Bool} (hc : c ∈ s.rpcCalls) :
    s.rpcCalls = [c] := by
  have hlength : s.rpcCalls.length ≤ 1 := by
    unfold State.rpcCalls
    rw [List.length_filterMap_eq_countP]
    refine le_trans (List.countP_mono_left ?_) hnested.countP_le
    intro f _ hcall
    cases f with
    | handOver site cb ran =>
      cases site with
      | getexports n => rfl
      | _ => cases hcall
    | rpcService | rpcDestroy => rfl
    | _ => cases hcall
  cases hcalls : s.rpcCalls with
  | nil =>
    rw [hcalls] at hc
    cases hc
  | cons d rest =>
    rw [hcalls, List.length_cons] at hlength
    obtain rfl : rest = [] := List.eq_nil_of_length_eq_zero (by omega)
    rw [hcalls, List.mem_singleton] at hc
    rw [hc]

/-- A step moves the export contexts on. -/
theorem exportSlot_steps (hx : ExportContexts s) (hnested : NestedAbove s.stack) (h : step s e = some t)
    (destroyed : List Nat) :
    Slot.Steps (exportSlot ⟨s, destroyed⟩) (exportSlot ⟨t, noteDestroyed s e t destroyed⟩) := by
  have hsame (hnext : t.nextRpc = s.nextRpc) (hctx : t.exports.rpcExportsCtx = s.exports.rpcExportsCtx)
      (hleaving : t.leavingRpc = s.leavingRpc) :
      Slot.Steps (exportSlot ⟨s, destroyed⟩) (exportSlot ⟨t, noteDestroyed s e t destroyed⟩) := by
    have hnote : noteDestroyed s e t destroyed = destroyed := by
      unfold noteDestroyed
      rw [hleaving]
      split
      · rename_i heq
        rw [if_pos heq]
      · rfl
    unfold exportSlot
    rw [hnote]
    dsimp only
    rw [hnext, hctx, hleaving]
  cases step_exports hnested h with
  | kept hctx hnext hcalls =>
    refine hsame hnext hctx ?_
    rw [leavingRpc_eq, leavingRpc_eq, hcalls]
  | entered n hctx hctx' hnext hcalls hcalls' =>
    refine hsame hnext (hctx'.trans hctx.symm) ?_
    rw [leavingRpc_of_nil hcalls, leavingRpc_of_single hcalls']
    rfl
  | opened hctx hctx' hnext hcalls hcalls' =>
    have hleaving' : t.leavingRpc = none := leavingRpc_of_single hcalls'
    have hafter : exportSlot ⟨t, noteDestroyed s e t destroyed⟩ =
        { exportSlot ⟨s, destroyed⟩ with acquired := s.nextRpc + 1, current := some s.nextRpc } := by
      unfold exportSlot noteDestroyed
      rw [leavingRpc_of_nil hcalls, hctx', hnext, hleaving']
    rw [hafter]
    exact .single (.acquire _ hctx)
  | left c hctx hnext hcalls hcalls' hdrop =>
    have hleaving' := leavingRpc_of_nil hcalls'
    have hleaving := leavingRpc_of_single hcalls
    by_cases hc : c.2
    · rw [if_pos hc] at hleaving
      have hafter : exportSlot ⟨t, noteDestroyed s e t destroyed⟩ =
          { exportSlot ⟨s, destroyed⟩ with leaving := none, released := c.1 :: destroyed } := by
        unfold exportSlot noteDestroyed
        rw [hleaving, hctx, hnext, hleaving']
        rfl
      rw [hafter]
      exact .single (.release _ hleaving)
    · rw [if_neg hc] at hleaving
      exact hsame hnext hctx (hleaving'.trans hleaving.symm)
  | closed n hctx hctx' hnext hcalls hcalls' =>
    have hleaving : s.leavingRpc = none := by
      rcases hcalls with hcalls | ⟨c, hcalls, -⟩
      · exact leavingRpc_of_nil hcalls
      · by_cases hc : c.2
        · -- while a context is being destroyed there is none in `rpcExportsCtx`
          have hmem : (c.1, true) ∈ s.rpcCalls := by
            rw [hcalls, ← hc]
            exact List.mem_singleton_self c
          have hnone := (hx.destroying c.1 hmem).1
          rw [hctx] at hnone
          cases hnone
        · rw [leavingRpc_of_single hcalls, if_neg hc]
    have hleaving' : t.leavingRpc = some n := leavingRpc_of_single hcalls'
    have hafter : exportSlot ⟨t, noteDestroyed s e t destroyed⟩ =
        { exportSlot ⟨s, destroyed⟩ with current := none, leaving := some n } := by
      unfold exportSlot noteDestroyed
      rw [hleaving, hctx', hnext, hleaving']
    rw [hafter]
    exact .single (.giveUp _ hctx hleaving)

/-- The export contexts are held one at a time. -/
theorem exportSlot_of_reachable {timeout : Int} {w : Monitored State (List Nat)}
    (h : Reachable (monitor step noteDestroyed) ⟨State.init timeout, []⟩ w) : Slot.Steps {} (exportSlot w) := by
  refine h.monitored_invariant (P := fun _ _ => True) (I := fun v => Slot.Steps {} (exportSlot v))
    Relation.ReflTransGen.refl fun v e t hv hsteps _ hstep => ?_
  have hsafe := contextsSafe_of_reachable hv
  exact hsteps.trans (exportSlot_steps hsafe.exports (sound_of_reachable hv).wellFormed.nested hstep v.notes)

/-- Every context that is made for an export query is in one place at any time: in use, being destroyed, or
destroyed; none is destroyed twice, they are destroyed in the order in which they were made, and no call is
in progress on a destroyed one. -/
theorem export_contexts_accounted {timeout : Int} {w : Monitored State (List Nat)}
    (h : Reachable (monitor step noteDestroyed) ⟨State.init timeout, []⟩ w) :
    w.notes.reverse ++ w.state.leavingRpc.toList ++ w.state.exports.rpcExportsCtx.toList =
        List.range w.state.nextRpc ∧
      ∀ f ∈ w.state.stack, ∀ n, f.ctx = some (.rpc n) → n ∉ w.notes := by
  have haccounted := (exportSlot_of_reachable h).accounted
  refine ⟨haccounted, ?_⟩
  intro f hf n hctx
  have hsafe := contextsSafe_of_reachable (Reaches.state (P := fun _ _ => True) h)
  obtain ⟨destroying, hcall⟩ := Frame.ctx_rpc hctx
  have hmem := mem_rpcCalls hf hcall
  cases destroying with
  | false => exact haccounted.current_not_released (hsafe.exports.current n hmem)
  | true =>
    have hleaving : w.state.leavingRpc = some n :=
      leavingRpc_of_single (rpcCalls_eq_of_mem hsafe.sound.wellFormed.nested hmem)
    exact haccounted.leaving_not_released hleaving

/-- Two queries on a mounted loop: the first one is answered, and its context destroyed; the second one is
under way. -/
theorem export_contexts_accounted_queries :
    ∃ w, run (monitor step noteDestroyed) ⟨State.init 60000000000, []⟩
        (mountEvents ++ [.block (.getexports true), .ret 0 .connected, .block .handleRpcExportsEvent,
          .callback 2 0 none, .ret 0 .connected, .ret 0 {}, .block (.getexports true)]) = some w ∧
      w.state.nextRpc = 2 ∧ w.notes = [0] ∧
      w.notes.reverse ++ w.state.leavingRpc.toList ++ w.state.exports.rpcExportsCtx.toList =
        List.range w.state.nextRpc ∧
      ∀ f ∈ w.state.stack, ∀ n, f.ctx = some (.rpc n) → n ∉ w.notes := by
  have hrun : ((run (monitor step noteDestroyed) ⟨State.init 60000000000, []⟩
      (mountEvents ++ [.block (.getexports true), .ret 0 .connected, .block .handleRpcExportsEvent,
        .callback 2 0 none, .ret 0 .connected, .ret 0 {}, .block (.getexports true)])).any fun w =>
      w.state.nextRpc = 2 ∧ w.notes = [0]) = true := by
    decide +kernel
  obtain ⟨w, hw, hfacts⟩ := (Option.any_eq_true _ _).mp hrun
  obtain ⟨hmade, hdestroyed⟩ := of_decide_eq_true hfacts
  exact ⟨w, hw, hmade, hdestroyed, export_contexts_accounted (reachable_of_run hw)⟩

end NFSKit
