import LiftedElimination.Decimal.Shortest

/-!
# Decimal text

* `positional`, `scientific`   the two ways to write digits;
* `plain`      the shortest digits without an exponent: `0.1`, `100`, `-0`, `inf`, `NaN`;
* `compact?`   the shortest digits with a point, or with a signed exponent: `1.0`, `1e+16`;
* `rounded`    ten significant digits in scientific form, ties to the even neighbour;
* `fixed`      a fixed number of places behind the point, ties to the even neighbour.
-/

namespace LiftedElimination

namespace Decimal

def zeros (n : Nat) : String := String.ofList (List.replicate n '0')

/-- the digits of `n`, with zeros in front to make at least `width` -/
def padded (n width : Nat) : String :=
  let s := Nat.repr n
  zeros (width - s.length) ++ s

/-- digits with `places` behind the point -/
def pointed (coefficient places : Nat) : String :=
  let whole := coefficient / Nat.pow 10 places
  if places = 0 then Nat.repr whole
  else Nat.repr whole ++ "." ++ padded (coefficient % Nat.pow 10 places) places

/-- without an exponent -/
def positional (d : Digits) : String :=
  if 0 ≤ d.exponent then
    if d.coefficient = 0 then "0" else Nat.repr d.coefficient ++ zeros d.exponent.toNat
  else pointed d.coefficient (-d.exponent).toNat

/-- one digit in front of the point, and the exponent behind `e`; `plus` stands in front of an
exponent that is not negative -/
def scientific (plus : String) (d : Digits) : String :=
  let s := Nat.repr d.coefficient
  let e := d.exponent + (s.length - 1 : Int)
  let rest := (s.drop 1).toString
  (s.take 1).toString ++ (if rest.isEmpty then "" else "." ++ rest) ++ "e"
    ++ (if e < 0 then "" else plus) ++ Int.repr e

def signed (negative : Bool) (s : String) : String := if negative then "-" ++ s else s

/-- the shortest digits that read back, never with an exponent; of two the upper one -/
def plain (x : Float) : String :=
  let b := Binary.ofFloat x
  match b.magnitude with
  | .nan => "NaN"
  | .infinite => signed b.negative "inf"
  | .finite m q => signed b.negative (positional (shortest m q .up))

/-- the shortest digits that read back, with a point up to 16 digits in front of it and four zeros
behind it, and with a signed exponent otherwise; of two the even one; nothing for other values -/
def compact? (x : Float) : Option String :=
  let b := Binary.ofFloat x
  match b.magnitude with
  | .nan | .infinite => none
  | .finite m q =>
    let d := shortest m q .even
    let front := d.exponent + (digitCount d.coefficient : Int)
    some (signed b.negative
      (if -5 < front ∧ front ≤ 16 then
        if 0 ≤ d.exponent then positional d ++ ".0" else positional d
      else scientific "+" d))

/-- ten significant digits in scientific form, without trailing zeros -/
def rounded (x : Float) : String :=
  let b := Binary.ofFloat x
  match b.magnitude with
  | .nan => "nan"
  | .infinite => signed b.negative "inf"
  | .finite m q =>
    signed b.negative
      (if m = 0 then "0e0" else scientific "" (significant 10 .even (Ratio.ofBinary m q)).strip)

/-- `places` digits behind the point -/
def fixed (places : Nat) (x : Float) : String :=
  let b := Binary.ofFloat x
  match b.magnitude with
  | .nan => "NaN"
  | .infinite => signed b.negative "inf"
  | .finite m q =>
    signed b.negative
      (pointed (((Ratio.ofBinary m q).scale (-(places : Int))).round .even) places)

end Decimal

end LiftedElimination
