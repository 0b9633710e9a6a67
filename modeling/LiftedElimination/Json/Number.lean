import LiftedElimination.Json.Value
import LiftedElimination.Decimal.Text
import LiftedElimination.Decimal.Read

/-!
# Numbers in JSON

* `nat?`          a number written as digits alone, up to a limit;
* `float?`        a number as a float: the leading digits that fit into 64 bits, scaled once by a
                  power of ten, refused if that is infinite;
* `ofFloat`       the shortest text that reads back, `null` if the value is not finite.

The scaling rounds once for the digits and once for the power of ten, so a long number may come out
one unit in the last place away from the nearest float.
-/

namespace LiftedElimination

namespace Json

open Decimal (digitValue natOf)

/-- the number of a text that consists of digits, if it is at most `limit` -/
def nat? (limit : Nat) (j : Json) : Option Nat :=
  match j with
  | number t => (Decimal.nat? t.toList).filter (· ≤ limit)
  | _ => none

/-! ## scaled digits -/

/-- the digits that were kept, and the power of ten that belongs to them -/
structure Scaled where
  significand : Nat
  exponent : Int

/-- the largest significand -/
def maxSignificand : Nat := Nat.pow 2 64 - 1

/-- digits in front of the point; once they pass 64 bits each further one only counts -/
def wholeDigits : List Char → Scaled → Scaled
  | [], s => s
  | c :: cs, s =>
    let n := s.significand * 10 + digitValue c
    if n ≤ maxSignificand then wholeDigits cs { s with significand := n }
    else { s with exponent := cs.length + 1 }

/-- digits behind the point; once they pass 64 bits the rest is dropped -/
def fractionDigits : List Char → Scaled → Scaled
  | [], s => s
  | c :: cs, s =>
    let n := s.significand * 10 + digitValue c
    if n ≤ maxSignificand then fractionDigits cs ⟨n, s.exponent - 1⟩ else s

/-- the largest exponent, of 31 bits -/
def maxExponent : Nat := Nat.pow 2 31 - 1

/-- a power of ten, exact up to the 22nd and nearest beyond -/
def powerOfTen (n : Nat) : Float := Float.ofScientific 1 false n

/-- `x · 10^e`, by quotients with at most the 308th power of ten; nothing if it is infinite -/
def scaleDown (x : Float) (e : Nat) : Float :=
  if x == 0 then x
  else if e ≤ 308 then x / powerOfTen e
  else scaleDown (x / powerOfTen 308) (e - 308)
termination_by e

def scale? (x : Float) (e : Int) : Option Float :=
  if e < 0 then some (scaleDown x e.natAbs)
  else if e ≤ 308 then
    let y := x * powerOfTen e.natAbs
    if y.isInf then none else some y
  else if x == 0 then some x
  else none

/-- the digits with a written exponent -/
def withExponent? (s : Scaled) (cs : List Char) : Option Float :=
  let x := Float.ofNat s.significand
  match cs with
  | [] => scale? x s.exponent
  | _ :: cs =>
    let (negative, digits) :=
      match cs with
      | '-' :: cs => (true, cs)
      | '+' :: cs => (false, cs)
      | cs => (false, cs)
    let n := natOf digits 0
    if maxExponent < n then
      if s.significand ≠ 0 ∧ !negative then none else some 0
    else scale? x (if negative then s.exponent - n else s.exponent + n)

/-- a number without its sign -/
def magnitude? (cs : List Char) : Option Float :=
  let whole := cs.takeWhile Char.isDigit
  let s := wholeDigits whole ⟨0, 0⟩
  match cs.dropWhile Char.isDigit with
  | '.' :: rest =>
    withExponent? (fractionDigits (rest.takeWhile Char.isDigit) s) (rest.dropWhile Char.isDigit)
  | rest => withExponent? s rest

def float? (j : Json) : Option Float :=
  match j with
  | number t =>
    match t.toList with
    | '-' :: cs => (magnitude? cs).map fun x => -x
    | cs => magnitude? cs
  | _ => none

def ofFloat (x : Float) : Json :=
  match Decimal.compact? x with
  | some t => number t
  | none => null

end Json

end LiftedElimination
