import LiftedElimination.Decimal.Binary

/-!
# Decimal digits of a float

* `Digits`        a coefficient and a power of ten;
* `significant`   the nearest decimal with a given number of digits;
* `shortest`      the fewest digits that read back as the same float: of 1, 2, .. 17 digits the
                  first number for which one of the two neighbours of the value on the decimal grid
                  rounds to the float; of two such neighbours the nearer one.
-/

namespace LiftedElimination

namespace Decimal

/-- `coefficient · 10^exponent` -/
structure Digits where
  coefficient : Nat
  exponent : Int
deriving DecidableEq

/-- trailing zeros of the coefficient moved to the exponent, at most `bound` of them -/
def stripZeros : Nat → Digits → Digits
  | 0, d => d
  | bound + 1, d =>
    if d.coefficient ≠ 0 ∧ d.coefficient % 10 = 0 then
      stripZeros bound ⟨d.coefficient / 10, d.exponent + 1⟩
    else d

/-- the same number without trailing zeros in the coefficient -/
def Digits.strip (d : Digits) : Digits := stripZeros (digitCount d.coefficient) d

/-- the nearest decimal with `n` significant digits -/
def significant (n : Nat) (tie : Tie) (r : Ratio) : Digits :=
  let e := r.exponent - n
  ⟨(r.scale e).round tie, e⟩

/-- twice the lower and upper ends of the interval of reals that round to `m · 2^q`, as multiples of
`2^(q-1)`; the lower neighbour of a power of two is half as far away -/
def bounds (m : Nat) (q : Int) : Nat × Nat :=
  if m = Nat.pow 2 52 ∧ -1074 < q then (4 * m - 1, 4 * m + 2) else (4 * m - 2, 4 * m + 2)

/-- the decimal reads back as `m · 2^q`; the ends of the interval do so for an even `m` -/
def readsBack (m : Nat) (q : Int) (d : Digits) : Bool :=
  let r := (Ratio.ofBinary 1 (q - 2)).scale d.exponent
  let x := d.coefficient * r.den
  let low := (bounds m q).1 * r.num
  let high := (bounds m q).2 * r.num
  if m % 2 = 0 then decide (low ≤ x ∧ x ≤ high) else decide (low < x ∧ x < high)

/-- the neighbour of the value with `n` digits that reads back, if there is one -/
def shortestWith (m : Nat) (q : Int) (tie : Tie) (r : Ratio) (n : Nat) : Option Digits :=
  let e := r.exponent - n
  let s := r.scale e
  let lower : Digits := ⟨s.floor, e⟩
  let upper : Digits := ⟨s.floor + 1, e⟩
  match readsBack m q lower, readsBack m q upper with
  | true, true => some ⟨s.round tie, e⟩
  | true, false => some lower
  | false, true => some upper
  | false, false => none

/-- the fewest digits that read back as `m · 2^q`; seventeen always do -/
def shortest (m : Nat) (q : Int) (tie : Tie) : Digits :=
  if m = 0 then ⟨0, 0⟩
  else
    let r := Ratio.ofBinary m q
    (((List.range' 1 17).findSome? (shortestWith m q tie r)).getD (significant 17 tie r)).strip

end Decimal

end LiftedElimination
