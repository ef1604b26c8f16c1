import NFSKit.Foundations.Machine

/-!
# Ranked machines

Some of the events of a machine are moves. If a rank goes down with every move and no other event raises
it, then a run has no more moves than the rank of its first state.
-/

namespace NFSKit.Machine

variable {σ ε : Type}

/-- In the states that satisfy `I`, the rank goes down with the moves, and the other events that are
`allowed` do not raise it. -/
structure Ranked (step : σ → ε → Option σ) (I : σ → Prop) (allowed moves : ε → Bool) (rank : σ → Nat) :
    Prop where
  keeps : ∀ s e t, I s → allowed e → step s e = some t → I t
  move : ∀ s e t, I s → allowed e → moves e → step s e = some t → rank t < rank s
  other : ∀ s e t, I s → allowed e → moves e = false → step s e = some t → rank t ≤ rank s

namespace Ranked

variable {step : σ → ε → Option σ} {I : σ → Prop} {allowed moves : ε → Bool} {rank : σ → Nat} {s t : σ}

/-- Each move of a run costs one of the rank. -/
theorem countP_add_le (h : Ranked step I allowed moves rank) {es : List ε} (hs : I s)
    (hes : ∀ e ∈ es, allowed e) (hrun : run step s es = some t) :
    es.countP moves + rank t ≤ rank s ∧ I t := by
  induction es generalizing s with
  | nil =>
    obtain rfl : s = t := by simpa [run] using hrun
    exact ⟨by simp, hs⟩
  | cons e es ih =>
    simp only [run, Option.bind_eq_some_iff] at hrun
    obtain ⟨u, hu, hrun⟩ := hrun
    have he : allowed e := hes e (List.mem_cons_self ..)
    obtain ⟨hcount, ht⟩ := ih (h.keeps s e u hs he hu) (fun x hx => hes x (List.mem_cons_of_mem _ hx)) hrun
    refine ⟨?_, ht⟩
    by_cases hmove : moves e = true
    · have := h.move s e u hs he hmove hu
      rw [List.countP_cons_of_pos hmove]
      omega
    · have := h.other s e u hs he (by simpa using hmove) hu
      rw [List.countP_cons_of_neg hmove]
      omega

end Ranked

end NFSKit.Machine
