import Mathlib.Data.List.Count
import Mathlib.Data.List.Perm.Basic

/-!
# Counting the elements that leave a list

The number of elements with a property, before and after one element is removed by value or by index.
-/

namespace NFSKit.Counting

variable {α : Type}

/-- Removing a member lowers the count by one if the member counts. -/
theorem countP_eq_countP_erase_add [BEq α] [LawfulBEq α] (p : α → Bool) {l : List α} {a : α}
    (h : a ∈ l) : l.countP p = (l.erase a).countP p + (if p a then 1 else 0) := by
  rw [(List.perm_cons_erase h).countP_eq p, List.countP_cons]

/-- Removing the entry at an index lowers the count by one if the entry counts. -/
theorem countP_eq_countP_eraseIdx_add (p : α → Bool) {l : List α} {i : Nat} {a : α}
    (h : l[i]? = some a) : l.countP p = (l.eraseIdx i).countP p + (if p a then 1 else 0) := by
  obtain ⟨hi, rfl⟩ := List.getElem?_eq_some_iff.mp h
  rw [← (List.getElem_cons_eraseIdx_perm hi).countP_eq p, List.countP_cons]

/-- A list from which entries are filtered out counts no more. -/
theorem countP_filter_le (p q : α → Bool) (l : List α) : (l.filter q).countP p ≤ l.countP p :=
  List.filter_sublist.countP_le

/-- A list counts less if everything that counts counted before, and something has stopped counting. -/
theorem countP_lt_countP {p q : α → Bool} {l : List α} (himp : ∀ a ∈ l, p a → q a) {a : α} (ha : a ∈ l)
    (hq : q a) (hp : p a = false) : l.countP p < l.countP q := by
  induction l with
  | nil => cases ha
  | cons b l ih =>
    have htail : ∀ a ∈ l, p a → q a := fun a ha => himp a (List.mem_cons_of_mem _ ha)
    have hle : l.countP p ≤ l.countP q := List.countP_mono_left htail
    rw [List.countP_cons, List.countP_cons]
    rcases List.mem_cons.mp ha with rfl | ha
    · simp only [hq, hp, if_true, Bool.false_eq_true, if_false]
      omega
    · have hlt := ih htail ha
      have hb := himp b (List.mem_cons_self ..)
      by_cases hpb : p b
      · simp only [hpb, hb hpb, if_true]
        omega
      · simp only [hpb, Bool.false_eq_true, if_false]
        omega

end NFSKit.Counting
