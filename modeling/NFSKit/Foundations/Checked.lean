import Mathlib.Algebra.Order.Ring.Int

/-!
# Checked machine arithmetic

Values of fixed-width integer types as the integers they stand for. An operation that would leave the
type has no result: `none` is a trap.
-/

namespace NFSKit.Checked

/-- A fixed-width integer type. -/
inductive IntType where
  | signed (bits : Nat)
  | unsigned (bits : Nat)
deriving DecidableEq, Repr

namespace IntType

def int32 : IntType := .signed 32
def int64 : IntType := .signed 64
def uint64 : IntType := .unsigned 64

/-- The least value of the type. -/
def least : IntType → Int
  | .signed bits => -2 ^ (bits - 1)
  | .unsigned _ => 0

/-- The greatest value of the type. -/
def greatest : IntType → Int
  | .signed bits => 2 ^ (bits - 1) - 1
  | .unsigned bits => 2 ^ bits - 1

/-- Whether the integer is a value of the type. -/
def Fits (t : IntType) (n : Int) : Prop := t.least ≤ n ∧ n ≤ t.greatest

instance (t : IntType) (n : Int) : Decidable (t.Fits n) := inferInstanceAs (Decidable (_ ∧ _))

/-- The conversion to the type. -/
def convert (t : IntType) (n : Int) : Option Int := if t.Fits n then some n else none

def add (t : IntType) (a b : Int) : Option Int := t.convert (a + b)
def sub (t : IntType) (a b : Int) : Option Int := t.convert (a - b)
def mul (t : IntType) (a b : Int) : Option Int := t.convert (a * b)

/-- The quotient, rounded towards zero. -/
def div (t : IntType) (a b : Int) : Option Int := if b = 0 then none else t.convert (a.tdiv b)

variable {t : IntType} {a b n : Int}

theorem convert_eq_some (h : t.Fits n) : t.convert n = some n := if_pos h

theorem eq_of_convert {m : Int} (h : t.convert n = some m) : m = n := by
  unfold convert at h
  split at h
  · exact (Option.some.inj h).symm
  · cases h

@[simp] theorem convert_isSome : (t.convert n).isSome ↔ t.Fits n := by
  unfold convert
  split <;> simp_all

theorem add_eq_some (h : t.Fits (a + b)) : t.add a b = some (a + b) := convert_eq_some h

theorem sub_eq_some (h : t.Fits (a - b)) : t.sub a b = some (a - b) := convert_eq_some h

theorem mul_eq_some (h : t.Fits (a * b)) : t.mul a b = some (a * b) := convert_eq_some h

theorem div_zero : t.div a 0 = none := if_pos rfl

theorem div_eq_some (hb : b ≠ 0) (h : t.Fits (a.tdiv b)) : t.div a b = some (a.tdiv b) := by
  unfold div
  rw [if_neg hb]
  exact convert_eq_some h

theorem fits_int64 : int64.Fits n ↔ -9223372036854775808 ≤ n ∧ n ≤ 9223372036854775807 :=
  Iff.rfl

theorem fits_uint64 : uint64.Fits n ↔ 0 ≤ n ∧ n ≤ 18446744073709551615 := Iff.rfl

theorem fits_int32 : int32.Fits n ↔ -2147483648 ≤ n ∧ n ≤ 2147483647 := Iff.rfl

end IntType

end NFSKit.Checked
