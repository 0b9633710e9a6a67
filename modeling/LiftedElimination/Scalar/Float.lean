import LiftedElimination.Scalar
import LiftedElimination.Decimal.Text

/-!
# Floats as table entries

* `orderKey`    the total order: by value, the two zeros alike, NaN above infinity;
* `ratio`       a quotient of numbers of groundings, zero over zero groundings;
* `power`       repeated multiplication by squaring, with a 32-bit exponent;
* `power_of_lt` exponents below `2 ^ 31` are the counts themselves;
* the instance `Scalar Float`.
-/

namespace LiftedElimination

namespace FloatEntry

/-- the position of a float in the total order -/
def orderKey (x : Float) : Int :=
  let bits := if x == 0 then 0 else x.toBits.toNat
  if bits < Nat.pow 2 63 then bits else -((bits - Nat.pow 2 63 : Nat) : Int) - 1

/-- a quotient of two numbers of groundings -/
def ratio : Cost → Cost → Float
  | _, .finite 0 => 0
  | .finite a, .finite b => Float.ofNat a / Float.ofNat b
  | .infinite, _ => 1 / 0
  | .finite _, .infinite => 0

/-- `acc` times `x` to the power `n`, by squaring -/
def powerFrom (acc x : Float) (n : Nat) : Float :=
  let acc := if n % 2 = 1 then acc * x else acc
  if n / 2 = 0 then acc else powerFrom acc (x * x) (n / 2)
termination_by n
decreasing_by omega

/-- a count as a signed 32-bit number, which wraps around -/
def exponent (n : Nat) : Int := (Int32.ofNat n).toInt

theorem exponent_of_lt {n : Nat} (h : n < Nat.pow 2 31) : exponent n = n :=
  Int32.toInt_ofNat_of_lt h

/-- `x` to a count that has become a 32-bit exponent; a negative one stands for the inverse -/
def power (x : Float) (n : Nat) : Float :=
  let r := powerFrom 1 x (exponent n).natAbs
  if exponent n < 0 then 1 / r else r

/-- fewer than `2 ^ 31` factors are multiplied one and all -/
theorem power_of_lt {n : Nat} (h : n < Nat.pow 2 31) (x : Float) :
    power x n = powerFrom 1 x n := by
  rw [power, exponent_of_lt h, if_neg (Int.not_lt.mpr (Int.natCast_nonneg n)), Int.natAbs_natCast]

/-- `x` to a quotient of numbers of groundings; the first power is `x` itself -/
def powRatio (x : Float) (a b : Cost) : Float :=
  let r := ratio a b
  if r == 1 then x else x.pow r

end FloatEntry

instance : Scalar Float where
  zero := 0
  one := 1
  compare := compareOn FloatEntry.orderKey
  ofNat := Float.ofNat
  pow := FloatEntry.power
  powRatio := FloatEntry.powRatio
  isOne x := x == 1
  isZero x := x == 0
  text := Decimal.plain
  transOrd := inferInstanceAs (Std.TransCmp (compareOn FloatEntry.orderKey))

end LiftedElimination
