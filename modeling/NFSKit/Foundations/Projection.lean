import NFSKit.Foundations.Machine

/-!
# Projections of a machine

A projection looks at a part of the state of a machine, and some of the events concern that part: a label
says what they mean there. If every step moves the part as its label says, and leaves it alone when it has
none, then the part is determined by the labels, whatever else happens in the run.
-/

namespace NFSKit.Machine

variable {σ ε β α : Type}

/-- `t` is reached from `s` by steps that all meet the condition `P`, and the list holds their labels in
order. -/
inductive Traces (step : σ → ε → Option σ) (label : σ → ε → Option β) (P : σ → ε → Prop) (s : σ) :
    List β → σ → Prop where
  /-- The empty run. -/
  | refl : Traces step label P s [] s
  /-- One more step. -/
  | tail {labels : List β} {t u : σ} {e : ε} (h : Traces step label P s labels t) (hP : P t e)
      (hs : step t e = some u) : Traces step label P s (labels ++ (label t e).toList) u

variable {step : σ → ε → Option σ} {label : σ → ε → Option β} {P : σ → ε → Prop} {s t : σ}
  {labels : List β}

theorem Traces.reaches (h : Traces step label P s labels t) : Reaches step P s t := by
  induction h with
  | refl => exact .refl
  | tail _ hP hs ih => exact ih.tail hP hs

/-- The labels of an evaluated run. -/
def labelsOf (step : σ → ε → Option σ) (label : σ → ε → Option β) (s : σ) : List ε → List β
  | [] => []
  | e :: es => (label s e).toList ++ (step s e).elim [] fun t => labelsOf step label t es

/-- A run that goes on with evaluated steps that meet `P`. -/
theorem Traces.append_run {B : σ → ε → Bool} (hB : ∀ a e, B a e = true → P a e) {es : List ε} {u : σ}
    (h : Traces step label P s labels u) (hr : run step u es = some t) (hm : meets step B u es = true) :
    Traces step label P s (labels ++ labelsOf step label u es) t := by
  induction es generalizing u labels with
  | nil =>
    obtain rfl : u = t := by simpa [run] using hr
    rwa [labelsOf, List.append_nil]
  | cons e es ih =>
    simp only [run, Option.bind_eq_some_iff] at hr
    obtain ⟨v, hv, hr⟩ := hr
    simp only [meets, hv, Option.all_some, Bool.and_eq_true] at hm
    have hnext := ih (h.tail (hB u e hm.1) hv) hr hm.2
    rw [labelsOf, hv, Option.elim_some, ← List.append_assoc]
    exact hnext

/-- An evaluated run whose steps meet `P`. -/
theorem traces_of_run {B : σ → ε → Bool} (hB : ∀ a e, B a e = true → P a e) {es : List ε}
    (hr : run step s es = some t) (hm : meets step B s es = true) :
    Traces step label P s (labelsOf step label s es) t :=
  Traces.refl.append_run hB hr hm

/-- The part of the state after a run is determined by the labels. -/
theorem Traces.view_eq {view : σ → α} {next : α → β → α} (h : Traces step label P s labels t)
    (hview : ∀ a e b, Reaches step P s a → P a e → step a e = some b →
      view b = (label a e).toList.foldl next (view a)) :
    view t = labels.foldl next (view s) := by
  induction h with
  | refl => rfl
  | tail hrun hP hs ih => rw [hview _ _ _ hrun.reaches hP hs, List.foldl_append, ih]

end NFSKit.Machine
