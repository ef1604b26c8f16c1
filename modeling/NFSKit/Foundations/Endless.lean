import NFSKit.Foundations.Machine
import Mathlib.Order.Nat

/-!
# Endless runs

What a machine does eventually is a statement about runs that never end. Such a run is a sequence of states
and the sequence of the events between them. `eventually_of_descent` is the rule by which something is shown
to happen: a rank goes down again and again until it does.
-/

namespace NFSKit.Machine

variable {σ ε : Type} {step : σ → ε → Option σ} {s t u : σ}

/-- A run that never ends. -/
structure Endless (step : σ → ε → Option σ) (s : σ) where
  state : Nat → σ
  event : Nat → ε
  start : state 0 = s
  next : ∀ k, step (state k) (event k) = some (state (k + 1))

/-- What is reached from every point by going on to a lower rank is reached. -/
theorem eventually_of_descent {Q : Nat → Prop} (rank : Nat → Nat) {m : Nat}
    (h : ∀ k, m ≤ k → Q k ∨ ∃ l, k ≤ l ∧ (Q l ∨ rank l < rank k)) : ∃ k, m ≤ k ∧ Q k := by
  have hrank (r k : Nat) (hk : m ≤ k) (hr : rank k ≤ r) : ∃ l, m ≤ l ∧ Q l := by
    induction r generalizing k with
    | zero =>
      rcases h k hk with hq | ⟨l, hkl, hq | hlt⟩
      · exact ⟨k, hk, hq⟩
      · exact ⟨l, hk.trans hkl, hq⟩
      · omega
    | succ r ih =>
      rcases h k hk with hq | ⟨l, hkl, hq | hlt⟩
      · exact ⟨k, hk, hq⟩
      · exact ⟨l, hk.trans hkl, hq⟩
      · exact ih l (hk.trans hkl) (by omega)
  exact hrank (rank m) m (le_refl m) (le_refl _)

namespace Endless

/-- Every state of a run is reached by steps that meet what all its steps meet. -/
theorem reaches (ρ : Endless step s) {P : σ → ε → Prop} (hP : ∀ k, P (ρ.state k) (ρ.event k)) (k : Nat) :
    Reaches step P s (ρ.state k) := by
  induction k with
  | zero =>
    rw [ρ.start]
    exact .refl
  | succ k ih => exact ih.tail (hP k) (ρ.next k)

theorem reachable (ρ : Endless step s) (k : Nat) : Reachable step s (ρ.state k) :=
  ρ.reaches (fun _ => trivial) k

theorem later (ρ : Endless step s) {k l : Nat} (h : k ≤ l) : Reachable step (ρ.state k) (ρ.state l) := by
  induction l, h using Nat.le_induction with
  | base => exact .refl
  | succ l _ ih => exact ih.tail trivial (ρ.next l)

/-- What holds at some point and is preserved by the steps from there on holds from there on. -/
theorem stays (ρ : Endless step s) {I : σ → Prop} {m k : Nat} (h0 : I (ρ.state m))
    (hI : ∀ l, m ≤ l → I (ρ.state l) → I (ρ.state (l + 1))) (hk : m ≤ k) : I (ρ.state k) := by
  induction k, hk using Nat.le_induction with
  | base => exact h0
  | succ l hl ih => exact hI l hl ih

/-! ## Runs that come to rest -/

variable {es : List ε} {e : ε}

/-- The state before each event of a run. -/
theorem run_take (hr : run step s es = some t) (k : Nat) : ∃ u, run step s (es.take k) = some u := by
  have hsplit := run_append step s (es.take k) (es.drop k)
  rw [List.take_append_drop, hr] at hsplit
  obtain ⟨u, hu, -⟩ := Option.bind_eq_some_iff.mp hsplit.symm
  exact ⟨u, hu⟩

theorem rest_next (hr : run step s es = some t) (he : step t e = some t) (k : Nat) :
    step ((run step s (es.take k)).getD t) (es[k]?.getD e) =
      some ((run step s (es.take (k + 1))).getD t) := by
  obtain ⟨u, hu⟩ := run_take hr k
  rw [hu]
  by_cases hk : k < es.length
  · have htake : es.take (k + 1) = es.take k ++ [es[k]] := (List.take_append_getElem hk).symm
    obtain ⟨v, hv⟩ := run_take hr (k + 1)
    rw [hv]
    rw [htake, run_append, hu] at hv
    simpa [run, hk] using hv
  · have hall : es.take k = es := List.take_of_length_le (by omega)
    have hall' : es.take (k + 1) = es := List.take_of_length_le (by omega)
    rw [hall, hr] at hu
    obtain rfl := Option.some.inj hu
    rw [hall', hr, List.getElem?_eq_none (by omega)]
    exact he

/-- A finite run, followed by an event that changes nothing for ever. -/
def rest (hr : run step s es = some t) (he : step t e = some t) : Endless step s where
  state k := (run step s (es.take k)).getD t
  event k := es[k]?.getD e
  start := rfl
  next := rest_next hr he

theorem rest_state (hr : run step s es = some t) (he : step t e = some t) {k : Nat} (hk : es.length ≤ k) :
    (rest hr he).state k = t := by
  show (run step s (es.take k)).getD t = t
  rw [List.take_of_length_le hk, hr]
  rfl

theorem rest_event (hr : run step s es = some t) (he : step t e = some t) {k : Nat} (hk : es.length ≤ k) :
    (rest hr he).event k = e := by
  show es[k]?.getD e = e
  rw [List.getElem?_eq_none hk]
  rfl

/-- The condition that an evaluated run meets. -/
theorem meets_take {B : σ → ε → Bool} (hm : meets step B s es = true) {k : Nat} (hk : k < es.length) :
    ∀ u, run step s (es.take k) = some u → B u es[k] = true := by
  induction es generalizing s k with
  | nil => exact absurd hk (Nat.not_lt_zero k)
  | cons e es ih =>
    simp only [meets, Bool.and_eq_true] at hm
    intro u hu
    cases k with
    | zero =>
      obtain rfl : s = u := by simpa [run] using hu
      exact hm.1
    | succ k =>
      simp only [List.take_succ_cons, run, Option.bind_eq_some_iff] at hu
      obtain ⟨v, hv, hu⟩ := hu
      have hrest := hm.2
      rw [hv, Option.all_some] at hrest
      exact ih hrest (Nat.lt_of_succ_lt_succ hk) u hu

/-- A run that comes to rest meets a condition if its finite part does and the last event does. -/
theorem rest_meets {P : σ → ε → Prop} {B : σ → ε → Bool} (hB : ∀ a x, B a x = true → P a x)
    (hr : run step s es = some t) (he : step t e = some t) (hm : meets step B s es = true) (hlast : P t e)
    (k : Nat) : P ((rest hr he).state k) ((rest hr he).event k) := by
  by_cases hk : k < es.length
  · obtain ⟨u, hu⟩ := run_take hr k
    have hmeets := meets_take hm hk u hu
    have hstate : (rest hr he).state k = u := congrArg (Option.getD · t) hu
    have hevent : (rest hr he).event k = es[k] := by
      show es[k]?.getD e = es[k]
      rw [List.getElem?_eq_getElem hk]
      rfl
    rw [hstate, hevent]
    exact hB _ _ hmeets
  · rw [rest_state hr he (by omega), rest_event hr he (by omega)]
    exact hlast

end Endless

end NFSKit.Machine
