import Mathlib.Data.List.Nodup
import Mathlib.Data.List.Range
import Mathlib.Logic.Relation

/-!
# A resource that is held one at a time

Numbered in the order in which they are acquired, the resources go one after the other through the place
where the current one is kept, are given up and released. That each of them is somewhere, and nowhere
twice, is one equation (`Slot.Accounted`).
-/

namespace NFSKit

structure Slot where
  acquired : Nat := 0
  current : Option Nat := none
  /-- The one whose release has begun. -/
  leaving : Option Nat := none
  /-- The released ones, latest first. -/
  released : List Nat := []
deriving DecidableEq, Repr

namespace Slot

inductive Step : Slot → Slot → Prop where
  | acquire (v : Slot) (hfree : v.current = none) :
      Step v { v with acquired := v.acquired + 1, current := some v.acquired }
  | giveUp (v : Slot) {n : Nat} (hcurrent : v.current = some n) (hleaving : v.leaving = none) :
      Step v { v with current := none, leaving := some n }
  | release (v : Slot) {n : Nat} (hleaving : v.leaving = some n) :
      Step v { v with leaving := none, released := n :: v.released }

/-- Any number of steps. -/
abbrev Steps : Slot → Slot → Prop := Relation.ReflTransGen Step

/-- The resources that have been acquired are, in their order, those released, the one being released and
the current one. -/
def Accounted (v : Slot) : Prop :=
  v.released.reverse ++ v.leaving.toList ++ v.current.toList = List.range v.acquired

variable {u v : Slot} {n : Nat}

theorem Step.accounted (h : Step u v) (hu : u.Accounted) : v.Accounted := by
  unfold Accounted at hu ⊢
  cases h with
  | acquire hfree =>
    rw [hfree, Option.toList_none, List.append_nil] at hu
    rw [Option.toList_some, hu, List.range_succ]
  | giveUp hcurrent hleaving =>
    rw [hcurrent, hleaving] at hu
    simpa using hu
  | release hleaving =>
    rw [hleaving] at hu
    simpa using hu

theorem Steps.accounted (h : Steps {} v) : v.Accounted := by
  induction h with
  | refl => rfl
  | tail _ hstep ih => exact hstep.accounted ih

/-- Given up and released in one. -/
theorem Steps.discard (hcurrent : v.current = some n) (hleaving : v.leaving = none) :
    Steps v { v with current := none, leaving := none, released := n :: v.released } :=
  .tail (.single (.giveUp v hcurrent hleaving)) (.release { v with current := none, leaving := some n } rfl)

namespace Accounted

/-- No resource is in two places. -/
theorem nodup (h : v.Accounted) : (v.released.reverse ++ v.leaving.toList ++ v.current.toList).Nodup :=
  h ▸ List.nodup_range

theorem current_not_released (h : v.Accounted) (hcurrent : v.current = some n) : n ∉ v.released := by
  intro hmem
  refine List.disjoint_of_nodup_append h.nodup (List.mem_append_left _ (List.mem_reverse.mpr hmem)) ?_
  simp [hcurrent]

theorem leaving_not_released (h : v.Accounted) (hleaving : v.leaving = some n) : n ∉ v.released := by
  intro hmem
  refine List.disjoint_of_nodup_append h.nodup.of_append_left (List.mem_reverse.mpr hmem) ?_
  simp [hleaving]

end Accounted

end Slot

end NFSKit
