import Mathlib.Algebra.BigOperators.Group.List.Basic
import Mathlib.Algebra.Order.Ring.Int

/-!
# Cutting a size into chunks

`count size chunk` chunks cover `size` units: chunk `i` starts at `i * chunk` and is `chunk` units long,
the last one possibly shorter. The chunks are not empty, do not overlap, and cover everything.
-/

namespace NFSKit.Chunks

/-- How many chunks there are. -/
def count (size chunk : Nat) : Nat := (size + chunk - 1) / chunk

/-- How long chunk `i` is. -/
def length (size chunk i : Nat) : Nat := min chunk (size - i * chunk)

/-- Where chunk `i` starts; everything after the last chunk starts at its end. -/
def start (size chunk i : Nat) : Nat := min (i * chunk) size

variable {size chunk i j k : Nat}

theorem start_lt (hc : 0 < chunk) (hi : i < count size chunk) : i * chunk < size := by
  have hle : (i + 1) * chunk ≤ size + chunk - 1 := (Nat.le_div_iff_mul_le hc).mp hi
  rw [Nat.add_mul, Nat.one_mul] at hle
  omega

theorem lt_count (hc : 0 < chunk) (h : i * chunk < size) : i < count size chunk := by
  refine (Nat.le_div_iff_mul_le hc).mpr ?_
  rw [Nat.succ_mul]
  omega

theorem start_lt_iff (hc : 0 < chunk) : start size chunk i < size ↔ i < count size chunk := by
  unfold start
  constructor
  · intro h
    exact lt_count hc (by omega)
  · intro h
    have := start_lt hc h
    omega

theorem start_succ : start size chunk (i + 1) = min (start size chunk i + chunk) size := by
  unfold start
  rw [Nat.succ_mul]
  omega

/-- A chunk reaches up to the next one. -/
theorem length_eq : length size chunk i = start size chunk (i + 1) - start size chunk i := by
  unfold length start
  rw [Nat.succ_mul]
  omega

theorem start_mono : start size chunk i ≤ start size chunk (i + 1) := by
  unfold start
  rw [Nat.succ_mul]
  omega

theorem start_le : start size chunk i ≤ size := Nat.min_le_right _ _

theorem length_pos (hc : 0 < chunk) (hi : i < count size chunk) : 0 < length size chunk i := by
  have := start_lt hc hi
  unfold length
  omega

theorem end_le (hc : 0 < chunk) (hi : i < count size chunk) :
    i * chunk + length size chunk i ≤ size := by
  have := start_lt hc hi
  unfold length
  omega

/-- A chunk ends before the next ones start. -/
theorem end_le_start (hij : i < j) : i * chunk + length size chunk i ≤ j * chunk := by
  have hle : (i + 1) * chunk ≤ j * chunk := Nat.mul_le_mul_right chunk hij
  rw [Nat.add_mul, Nat.one_mul] at hle
  unfold length
  omega

/-- Every unit lies in a chunk. -/
theorem covered (hc : 0 < chunk) (hk : k < size) :
    k / chunk < count size chunk ∧ k / chunk * chunk ≤ k ∧
      k < k / chunk * chunk + length size chunk (k / chunk) := by
  have hlow : k / chunk * chunk ≤ k := Nat.div_mul_le_self k chunk
  have hhigh : k < k / chunk * chunk + chunk := Nat.lt_div_mul_add hc
  refine ⟨lt_count hc (by omega), hlow, ?_⟩
  unfold length
  omega

/-- Every unit lies in one chunk only. -/
theorem eq_of_covered (hi : i * chunk ≤ k) (hi' : k < i * chunk + length size chunk i)
    (hj : j * chunk ≤ k) (hj' : k < j * chunk + length size chunk j) : i = j := by
  rcases Nat.lt_trichotomy i j with hlt | heq | hlt
  · have : i * chunk + length size chunk i ≤ j * chunk := end_le_start hlt
    omega
  · exact heq
  · have : j * chunk + length size chunk j ≤ i * chunk := end_le_start hlt
    omega

/-- The first `n` chunks together. -/
theorem sum_length_range (n : Nat) :
    ((List.range n).map (length size chunk)).sum = start size chunk n := by
  induction n with
  | zero => simp [start]
  | succ n ih =>
    have := @start_mono size chunk n
    rw [List.range_succ, List.map_append, List.sum_append, ih]
    simp only [List.map_cons, List.map_nil, List.sum_cons, List.sum_nil, length_eq]
    omega

/-- All chunks together make the size. -/
theorem sum_length (hc : 0 < chunk) :
    ((List.range (count size chunk)).map (length size chunk)).sum = size := by
  have hlast : ¬start size chunk (count size chunk) < size :=
    fun h => Nat.lt_irrefl _ ((start_lt_iff hc).mp h)
  have := @start_le size chunk (count size chunk)
  rw [sum_length_range]
  omega

end NFSKit.Chunks
