import Mathlib.Data.List.Nodup

/-!
# Registries as lists of pairs

`List.lookup` in a list of keys and values: when a key is found, and that each value of a list without
double keys and values has exactly one key. `insert` sets the value of a key, as the assignment to a
dictionary does.
-/

namespace NFSKit.AssocList

variable {κ ν : Type} [DecidableEq κ] {l m : List (κ × ν)} {k : κ} {v : ν}

theorem mem_of_lookup (h : l.lookup k = some v) : (k, v) ∈ l := by
  obtain ⟨l₁, l₂, rfl, -⟩ := List.lookup_eq_some_iff.mp h
  simp

/-- A key that has been filtered out is not found. -/
theorem lookup_filter_ne (l : List (κ × ν)) (k : κ) : (l.filter (·.1 ≠ k)).lookup k = none := by
  rw [List.lookup_eq_none_iff]
  intro p hp
  have hne : p.1 ≠ k := by simpa using (List.mem_filter.mp hp).2
  exact bne_iff_ne.mpr hne.symm

/-- A key that is not found is not found in a sublist either. -/
theorem lookup_eq_none_of_subset (hsub : ∀ p ∈ l, p ∈ m) (h : m.lookup k = none) :
    l.lookup k = none := by
  rw [List.lookup_eq_none_iff] at h ⊢
  exact fun p hp => h p (hsub p hp)

/-- An entry of a list whose keys are all different is found under its key. -/
theorem lookup_of_mem (hnodup : (m.map Prod.fst).Nodup) (hsub : ∀ p ∈ l, p ∈ m)
    (h : (k, v) ∈ l) : l.lookup k = some v := by
  cases hl : l.lookup k with
  | none =>
    rw [List.lookup_eq_none_iff] at hl
    have hne := hl _ h
    simp at hne
  | some v' =>
    have hmem := hsub _ (mem_of_lookup hl)
    have heq := List.inj_on_of_nodup_map hnodup hmem (hsub _ h) rfl
    exact congrArg (some ·.2) heq

/-- Where neither keys nor values are double, a value is found under exactly one key. -/
theorem existsUnique_lookup (hkeys : (m.map Prod.fst).Nodup) (hvalues : (m.map Prod.snd).Nodup)
    (hsub : ∀ p ∈ l, p ∈ m) (h : (k, v) ∈ l) : ∃! k, l.lookup k = some v := by
  refine ⟨k, lookup_of_mem hkeys hsub h, ?_⟩
  intro k' hk'
  have hmem := hsub _ (mem_of_lookup hk')
  exact congrArg Prod.fst (List.inj_on_of_nodup_map hvalues hmem (hsub _ h) rfl)

/-- The value of the key is set, in place of an old one. -/
def insert (k : κ) (v : ν) (l : List (κ × ν)) : List (κ × ν) := (k, v) :: l.filter (·.1 ≠ k)

theorem keys_insert (k : κ) (v : ν) (l : List (κ × ν)) :
    (insert k v l).map Prod.fst = k :: (l.map Prod.fst).filter (· ≠ k) := by
  simp [insert, List.filter_map, Function.comp_def]

end NFSKit.AssocList
