import Mathlib.Algebra.BigOperators.Group.List.Basic
import Mathlib.Algebra.Order.BigOperators.GroupWithZero.List
import Mathlib.Algebra.Order.Field.Basic
import Mathlib.Algebra.Order.Group.MinMax
import Mathlib.Tactic.FieldSimp
import Mathlib.Tactic.Positivity
import Mathlib.Tactic.Ring

/-!
# Contractions

Two runs of one machine with the same inputs: if every input brings any two states closer by a factor of its
own, the product of the factors bounds what is left of the gap between them.
-/

namespace NFSKit.Contraction

section

variable {σ α R : Type} [CommSemiring R] [PartialOrder R] [IsOrderedRing R]

/-- The gap after the inputs of `l`, for states in which `I` holds. -/
theorem gap_foldl_le {f : σ → α → σ} {I : σ → Prop} {gap : σ → σ → R} {c : α → R}
    (hI : ∀ s a, I s → I (f s a)) (hc : ∀ a, 0 ≤ c a)
    (hgap : ∀ s t a, I s → I t → gap (f s a) (f t a) ≤ c a * gap s t) {s t : σ} (hs : I s) (ht : I t)
    (l : List α) : gap (l.foldl f s) (l.foldl f t) ≤ (l.map c).prod * gap s t := by
  induction l generalizing s t with
  | nil => simp
  | cons a l ih =>
    have hprod : 0 ≤ (l.map c).prod := by
      refine List.prod_nonneg fun x hx => ?_
      obtain ⟨b, -, rfl⟩ := List.mem_map.mp hx
      exact hc b
    calc gap (l.foldl f (f s a)) (l.foldl f (f t a))
        ≤ (l.map c).prod * gap (f s a) (f t a) := ih (hI s a hs) (hI t a ht)
      _ ≤ (l.map c).prod * (c a * gap s t) := mul_le_mul_of_nonneg_left (hgap s t a hs ht) hprod
      _ = ((a :: l).map c).prod * gap s t := by rw [List.map_cons, List.prod_cons]; ring

end

section

variable {K : Type} [Field K] [LinearOrder K] [IsStrictOrderedRing K] {x y : K}

/-- Additive increase by the inverse: from 1 on it moves no two numbers apart. -/
theorem abs_add_inv_sub_le (hx : 1 ≤ x) (hy : 1 ≤ y) : |x + 1 / x - (y + 1 / y)| ≤ |x - y| := by
  have hx' : 0 < x := zero_lt_one.trans_le hx
  have hy' : 0 < y := zero_lt_one.trans_le hy
  have hprod : 1 ≤ x * y := one_le_mul_of_one_le_of_one_le hx hy
  have hsplit : x + 1 / x - (y + 1 / y) = (x - y) * (1 - 1 / (x * y)) := by
    field_simp
    ring
  have hle : 1 / (x * y) ≤ 1 := (div_le_one (zero_lt_one.trans_le hprod)).mpr hprod
  have hpos : 0 ≤ 1 / (x * y) := by positivity
  have hfactor : |1 - 1 / (x * y)| ≤ 1 := by
    rw [abs_of_nonneg (sub_nonneg.mpr hle)]
    exact sub_le_self 1 hpos
  rw [hsplit, abs_mul]
  exact mul_le_of_le_one_right (abs_nonneg _) hfactor

/-- A bound from above moves no two numbers apart. -/
theorem abs_min_sub_min_le (x y c : K) : |min x c - min y c| ≤ |x - y| := by
  have h := abs_min_sub_min_le_max x c y c
  rwa [sub_self, abs_zero, max_eq_left (abs_nonneg _)] at h

end

end NFSKit.Contraction
