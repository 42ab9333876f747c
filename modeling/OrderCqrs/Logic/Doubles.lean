import Mathlib.Algebra.BigOperators.Group.List.Basic
import Mathlib.Data.Int.Log
import Mathlib.Data.Rat.Floor
import Mathlib.Tactic

/-!
Floating point numbers, read as the rationals they denote.

* `FloatArith`: an addition of floats and a product of an integer and a float, of which nothing is
  assumed; what holds of it holds of exact arithmetic, too.
* `roundDouble`: rounding to the nearest double, to the even one from the middle between two; the
  arithmetic of doubles is the instance that is used where none is named.
* `floatSum`: the sum of a list from left to right; `ExactSum`: it is the exact one.

Infinities are left out: a result beyond the largest double is rounded like a smaller one.
-/

namespace OrderCqrs

/-- An arithmetic of floats. -/
class FloatArith where
  add : ℚ → ℚ → ℚ
  mul : ℤ → ℚ → ℚ

/-! ### Doubles -/

/-- The nearest integer, the even one from the middle between two. -/
def roundEven (x : ℚ) : ℤ :=
  let n := ⌊x⌋
  if x - n < 1 / 2 then n else if 1 / 2 < x - n then n + 1 else n + n % 2

/-- The exponent of the last place of the doubles next to a number. -/
def lastPlace (x : ℚ) : ℤ := max (-1074) (Int.log 2 |x| - 52)

/-- The nearest double. -/
def roundDouble (x : ℚ) : ℚ := roundEven (x / 2 ^ lastPlace x) * 2 ^ lastPlace x

/-- Addition and product of doubles; the integer is made a double first. -/
instance FloatArith.double : FloatArith where
  add x y := roundDouble (x + y)
  mul n x := roundDouble (roundDouble n * x)

/-- A summand that is too small is lost. -/
example : FloatArith.add (10 ^ 16) 1 = 10 ^ 16 := by decide +kernel

example : FloatArith.add (roundDouble (1 / 10)) (roundDouble (2 / 10)) ≠ roundDouble (3 / 10) := by
  decide +kernel

/-! ### Sums -/

section Sums

variable [FloatArith]

/-- The sum of a list, from left to right. -/
def floatSum (xs : List ℚ) : ℚ := xs.foldl FloatArith.add 0

lemma floatSum_concat (xs : List ℚ) (x : ℚ) :
    floatSum (xs ++ [x]) = FloatArith.add (floatSum xs) x := by
  simp [floatSum]

/-- The sum of a list is exact. -/
def ExactSum (xs : List ℚ) : Prop := floatSum xs = xs.sum

instance (xs : List ℚ) : Decidable (ExactSum xs) :=
  inferInstanceAs (Decidable (floatSum xs = xs.sum))

end Sums

end OrderCqrs
