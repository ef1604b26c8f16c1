import Mathlib.Order.Basic

/-!
# Partial step machines

A machine is a partial step function `step : σ → ε → Option σ`: in state `s` the event `e` is either
not enabled (`none`) or leads to exactly one next state. All nondeterminism lies in the choice of the
events, so a run is determined by its list of events and can be evaluated.

`Reaches step P s t` is the relational view: `t` is reached from `s` by finitely many steps, each of
which meets the condition `P` on the state before the step and the event. Results about every run of
a machine are stated with it, and proved by `Reaches.invariant`.

Where a step does many things, it can be taken apart: `Path act Q a b` is a sequence of labelled
actions from `a` to `b`, and `Reaches.invariant_of_path` carries what every action preserves over
whole runs.
-/

namespace NFSKit.Machine

variable {σ ε : Type}

/-- The state after the events `es`, or `none` if one of them is not enabled when its turn comes. -/
def run (step : σ → ε → Option σ) (s : σ) : List ε → Option σ
  | [] => some s
  | e :: es => (step s e).bind fun t => run step t es

/-- Whether every step of the run over `es` meets the condition `P`. -/
def meets (step : σ → ε → Option σ) (P : σ → ε → Bool) (s : σ) : List ε → Bool
  | [] => true
  | e :: es => P s e && ((step s e).all fun t => meets step P t es)

/-- `t` is reached from `s` by steps that all meet the condition `P`. -/
inductive Reaches (step : σ → ε → Option σ) (P : σ → ε → Prop) (s : σ) : σ → Prop where
  /-- The empty run. -/
  | refl : Reaches step P s s
  /-- One more step. -/
  | tail {t u : σ} {e : ε} (h : Reaches step P s t) (hP : P t e) (hs : step t e = some u) :
      Reaches step P s u

/-- `t` is reached from `s` by any run. -/
abbrev Reachable (step : σ → ε → Option σ) (s t : σ) : Prop := Reaches step (fun _ _ => True) s t

section

variable {step : σ → ε → Option σ} {P Q : σ → ε → Prop} {s t u : σ}

theorem run_append (step : σ → ε → Option σ) (s : σ) (es fs : List ε) :
    run step s (es ++ fs) = (run step s es).bind fun t => run step t fs := by
  induction es generalizing s with
  | nil => rfl
  | cons e es ih => simp only [List.cons_append, run, Option.bind_assoc, ih]

/-- The run lemma: what holds at the start and is preserved by every step that meets `P` holds in
every state reached. -/
theorem Reaches.invariant {I : σ → Prop} (h : Reaches step P s t) (h0 : I s)
    (hI : ∀ a e b, I a → P a e → step a e = some b → I b) : I t := by
  induction h with
  | refl => exact h0
  | tail _ hP hs ih => exact hI _ _ _ ih hP hs

/-- A run that meets a condition meets every weaker one. -/
theorem Reaches.mono (h : Reaches step P s t) (hPQ : ∀ a e, P a e → Q a e) :
    Reaches step Q s t := by
  induction h with
  | refl => exact .refl
  | tail _ hP hs ih => exact ih.tail (hPQ _ _ hP) hs

theorem Reaches.trans (h : Reaches step P s t) (h' : Reaches step P t u) : Reaches step P s u := by
  induction h' with
  | refl => exact h
  | tail _ hP hs ih => exact ih.tail hP hs

/-- Every state reached under a condition is reachable. -/
theorem Reaches.reachable (h : Reaches step P s t) : Reachable step s t :=
  h.mono fun _ _ _ => trivial

/-- The steps of a run start in reachable states and are enabled. -/
theorem Reaches.strengthen (h : Reaches step P s t) :
    Reaches step (fun a e => P a e ∧ Reachable step s a ∧ ∃ b, step a e = some b) s t := by
  induction h with
  | refl => exact .refl
  | tail hrun hP hs ih => exact ih.tail ⟨hP, hrun.reachable, _, hs⟩ hs

/-- An evaluated run whose steps meet `P` is a run in the relational view. -/
theorem reaches_of_run {B : σ → ε → Bool} (hB : ∀ a e, B a e = true → P a e) :
    ∀ {es : List ε} {s : σ}, run step s es = some t → meets step B s es = true →
      Reaches step P s t := by
  intro es
  induction es with
  | nil =>
    intro s hr _
    obtain rfl : s = t := by simpa [run] using hr
    exact .refl
  | cons e es ih =>
    intro s hr hm
    simp only [run, Option.bind_eq_some_iff] at hr
    obtain ⟨v, hv, hr⟩ := hr
    simp only [meets, hv, Option.all_some, Bool.and_eq_true] at hm
    exact (Reaches.refl.tail (hB s e hm.1) hv).trans (ih hr hm.2)

/-- An evaluated run reaches its final state. -/
theorem reachable_of_run {es : List ε} {s : σ} (hr : run step s es = some t) :
    Reachable step s t := by
  induction es generalizing s with
  | nil =>
    obtain rfl : s = t := by simpa [run] using hr
    exact .refl
  | cons e es ih =>
    simp only [run, Option.bind_eq_some_iff] at hr
    obtain ⟨v, hv, hr⟩ := hr
    exact (Reaches.refl.tail trivial hv).trans (ih hr)

end

/-! ## Steps made of actions -/

section

variable {κ α : Type}

/-- `b` is reached from `a` by finitely many actions; `Q` holds of each action and the
configuration it is taken in. -/
inductive Path (act : κ → α → κ → Prop) (Q : κ → α → Prop) (a : κ) : κ → Prop where
  /-- No action. -/
  | refl : Path act Q a a
  /-- One more action. -/
  | tail {b c : κ} {l : α} (h : Path act Q a b) (ha : act b l c) (hQ : Q b l) : Path act Q a c

variable {act : κ → α → κ → Prop} {Q : κ → α → Prop} {a b c : κ}

theorem Path.single {l : α} (ha : act a l b) (hQ : Q a l) : Path act Q a b := .tail .refl ha hQ

theorem Path.trans (h : Path act Q a b) (h' : Path act Q b c) : Path act Q a c := by
  induction h' with
  | refl => exact h
  | tail _ ha hQ ih => exact ih.tail ha hQ

theorem Path.head {l : α} (ha : act a l b) (hQ : Q a l) (h : Path act Q b c) : Path act Q a c :=
  (Path.single ha hQ).trans h

theorem Path.mono {Q' : κ → α → Prop} (h : Path act Q a b) (hQ : ∀ k l, Q k l → Q' k l) :
    Path act Q' a b := by
  induction h with
  | refl => exact .refl
  | tail _ ha hq ih => exact ih.tail ha (hQ _ _ hq)

/-- What every action preserves holds at the end of the path. -/
theorem Path.invariant {I : κ → Prop} (h : Path act Q a b) (h0 : I a)
    (hI : ∀ k l k', I k → Q k l → act k l k' → I k') : I b := by
  induction h with
  | refl => exact h0
  | tail _ ha hQ ih => exact hI _ _ _ ih hQ ha

/-- The run lemma for steps made of actions: if each step is a path of actions between the
configurations of its two states, then what every such action preserves holds in every state
reached. -/
theorem Reaches.invariant_of_path {σ ε : Type} {step : σ → ε → Option σ} {P : σ → ε → Prop}
    {s t : σ} (h : Reaches step P s t) (config : σ → κ) (Q : σ → ε → κ → α → Prop) (I : κ → Prop)
    (h0 : I (config s))
    (hstep : ∀ u e v, I (config u) → step u e = some v → Path act (Q u e) (config u) (config v))
    (hI : ∀ u e k l k', P u e → I k → Q u e k l → act k l k' → I k') : I (config t) :=
  h.invariant (I := fun u => I (config u)) h0 fun u e v hu hP hs =>
    (hstep u e v hu hs).invariant hu fun k l k' hk hQ ha => hI u e k l k' hP hk hQ ha

end

end NFSKit.Machine
