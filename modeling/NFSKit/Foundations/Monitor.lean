import NFSKit.Foundations.Machine

/-!
# Monitored machines

What a state does not tell of the steps that led to it, a monitor writes down: its notes after a step depend
on the step and on the notes before. It watches and never interferes, so the runs of the machine are those of
the monitored one (`Reaches.state`, `Reaches.monitored`).
-/

namespace NFSKit.Machine

variable {σ ε ν : Type}

/-- A state, and what has been written down so far. -/
structure Monitored (σ ν : Type) where
  state : σ
  notes : ν

/-- The machine together with its monitor. -/
def monitor (step : σ → ε → Option σ) (note : σ → ε → σ → ν → ν) (w : Monitored σ ν) (e : ε) :
    Option (Monitored σ ν) :=
  (step w.state e).map fun t => ⟨t, note w.state e t w.notes⟩

variable {step : σ → ε → Option σ} {note : σ → ε → σ → ν → ν} {P : σ → ε → Prop} {s t : σ} {e : ε}
  {w w' : Monitored σ ν}

theorem monitor_eq_some (h : monitor step note w e = some w') :
    step w.state e = some w'.state ∧ w'.notes = note w.state e w'.state w.notes := by
  obtain ⟨t, ht, rfl⟩ := Option.map_eq_some_iff.mp h
  exact ⟨ht, rfl⟩

/-- A monitored run is a run. -/
theorem Reaches.state (h : Reaches (monitor step note) (fun w e => P w.state e) w w') :
    Reaches step P w.state w'.state := by
  induction h with
  | refl => exact .refl
  | tail _ hP hs ih => exact ih.tail hP (monitor_eq_some hs).1

/-- A run can be monitored. -/
theorem Reaches.monitored (note : σ → ε → σ → ν → ν) (h : Reaches step P s t) (n : ν) :
    ∃ m, Reaches (monitor step note) (fun w e => P w.state e) ⟨s, n⟩ ⟨t, m⟩ := by
  induction h with
  | refl => exact ⟨n, .refl⟩
  | @tail t u e _ hP hs ih =>
    obtain ⟨m, hm⟩ := ih
    refine ⟨note t e u m, hm.tail hP ?_⟩
    unfold monitor
    rw [hs]
    rfl

/-- The run lemma: what a step keeps, given what is known of the states of the machine. -/
theorem Reaches.monitored_invariant {I : Monitored σ ν → Prop}
    (h : Reaches (monitor step note) (fun w e => P w.state e) w w') (h0 : I w)
    (hI : ∀ a e b, Reaches step P w.state a.state → I a → P a.state e → step a.state e = some b →
      I ⟨b, note a.state e b a.notes⟩) : I w' := by
  induction h with
  | refl => exact h0
  | @tail a b e hrun hP hs ih =>
    obtain ⟨hstep, hnotes⟩ := monitor_eq_some hs
    have hkept := hI a e b.state hrun.state ih hP hstep
    rwa [← hnotes] at hkept

end NFSKit.Machine
