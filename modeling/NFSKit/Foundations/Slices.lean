import Mathlib.Algebra.BigOperators.Group.List.Basic
import Mathlib.Algebra.Order.Ring.Int

/-!
# Slices at a fixed stride

Pieces of at most `stride` elements lie in a memory, piece `i` at `i * stride`; the rest of the memory
is unwritten. The memory begins with the pieces one after the other if and only if every piece before
the last nonempty one is full.
-/

namespace NFSKit.Slices

variable {α : Type} {memory : Nat → Option α} {stride n i j k l : Nat} {piece : Nat → List α}

/-- The first `n` pieces lie in their slices. -/
def Holds (memory : Nat → Option α) (stride : Nat) (piece : Nat → List α) (n : Nat) : Prop :=
  ∀ i < n, ∀ j < stride, memory (i * stride + j) = (piece i)[j]?

/-- How long the first `n` pieces are together. -/
def total (piece : Nat → List α) (n : Nat) : Nat := ((List.range n).map fun i => (piece i).length).sum

theorem total_succ (piece : Nat → List α) (n : Nat) :
    total piece (n + 1) = total piece n + (piece n).length := by
  simp [total, List.range_succ]

theorem total_mono (h : i ≤ n) : total piece i ≤ total piece n := by
  induction h with
  | refl => exact Nat.le_refl _
  | step _ ih =>
    rw [total_succ]
    omega

theorem total_le (hlen : ∀ i, (piece i).length ≤ stride) (n : Nat) : total piece n ≤ n * stride := by
  induction n with
  | zero => simp [total]
  | succ n ih =>
    have hn := hlen n
    rw [total_succ, Nat.succ_mul]
    omega

theorem total_of_full (h : ∀ i < n, (piece i).length = stride) : total piece n = n * stride := by
  induction n with
  | zero => simp [total]
  | succ n ih =>
    rw [total_succ, Nat.succ_mul, h n (by omega), ih fun i hi => h i (by omega)]

/-- A place in the memory lies in one slice only. -/
theorem slice_unique (hj : j < stride) (hl : l < stride) (h : i * stride + j = k * stride + l) : i = k := by
  rcases Nat.lt_trichotomy i k with hlt | heq | hlt
  · have hle : (i + 1) * stride ≤ k * stride := Nat.mul_le_mul_right stride hlt
    rw [Nat.succ_mul] at hle
    omega
  · exact heq
  · have hle : (k + 1) * stride ≤ i * stride := Nat.mul_le_mul_right stride hlt
    rw [Nat.succ_mul] at hle
    omega

theorem map_getElem?_range (l : List α) : (List.range l.length).map (l[·]?) = l.map some := by
  refine List.ext_getElem (by simp) fun i hi hi' => ?_
  simp at hi'
  simp [hi']

/-- Full pieces, the last of which may be short, lie in the memory without a gap. -/
theorem map_range_of_full (h : Holds memory stride piece n)
    (hlen : ∀ i, (piece i).length ≤ stride)
    (hfull : ∀ i j, i < j → j < n → piece j ≠ [] → (piece i).length = stride) :
    (List.range (total piece n)).map memory = ((List.range n).flatMap piece).map some := by
  induction n with
  | zero => simp [total]
  | succ n ih =>
    have hfull' : ∀ i j, i < j → j < n → piece j ≠ [] → (piece i).length = stride :=
      fun i j hij hj => hfull i j hij (by omega)
    have hfirst := ih (fun i hi => h i (by omega)) hfull'
    rw [total_succ, List.range_succ, List.flatMap_append, List.map_append, ← hfirst]
    by_cases hlast : piece n = []
    · simp [hlast]
    · have htotal : total piece n = n * stride :=
        total_of_full fun i hi => hfull i n hi (by omega) hlast
      have hslice : ∀ j ∈ List.range (piece n).length, memory (n * stride + j) = (piece n)[j]? := by
        intro j hj
        exact h n (by omega) j (Nat.lt_of_lt_of_le (List.mem_range.mp hj) (hlen n))
      rw [List.range_add, List.map_append, List.map_map, htotal, List.flatMap_singleton,
        ← map_getElem?_range (piece n)]
      exact congrArg _ (List.map_congr_left hslice)

/-- A short piece leaves a gap before the end, if a nonempty piece follows. -/
theorem full_of_map_range (h : Holds memory stride piece n)
    (hlen : ∀ i, (piece i).length ≤ stride)
    (heq : (List.range (total piece n)).map memory = ((List.range n).flatMap piece).map some)
    (hij : i < j) (hj : j < n) (hne : piece j ≠ []) : (piece i).length = stride := by
  induction i using Nat.strongRecOn with
  | ind i ih =>
    have hbefore : total piece i = i * stride := total_of_full fun m hm => ih m hm (by omega)
    by_contra hshort
    have hlt : (piece i).length < stride := Nat.lt_of_le_of_ne (hlen i) hshort
    have hpos : 0 < (piece j).length := List.length_pos_iff.mpr hne
    have hi : total piece i + (piece i).length ≤ total piece j := by
      rw [← total_succ]
      exact total_mono hij
    have hj' : total piece j + (piece j).length ≤ total piece n := by
      rw [← total_succ]
      exact total_mono hj
    have hgap : memory (i * stride + (piece i).length) = none := by
      rw [h i (by omega) _ hlt]
      simp
    have hmem : none ∈ (List.range (total piece n)).map memory :=
      List.mem_map.mpr ⟨_, List.mem_range.mpr (by omega), hgap⟩
    rw [heq] at hmem
    simp at hmem

/-- The memory begins with the pieces if and only if every piece that a nonempty one follows is full. -/
theorem map_range_eq_iff (h : Holds memory stride piece n) (hlen : ∀ i, (piece i).length ≤ stride) :
    (List.range (total piece n)).map memory = ((List.range n).flatMap piece).map some ↔
      ∀ i j, i < j → j < n → piece j ≠ [] → (piece i).length = stride := by
  constructor
  · intro heq i j hij hj hne
    exact full_of_map_range h hlen heq hij hj hne
  · exact map_range_of_full h hlen

end NFSKit.Slices
