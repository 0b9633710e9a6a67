/-!
# Reading decimals

`Decimal.read?` reads a decimal literal as the nearest float: an optional sign, digits with an
optional point, an optional exponent; or `inf`, `infinity`, `nan` in letters of either case.
-/

namespace LiftedElimination

namespace Decimal

def digitValue (c : Char) : Nat := c.toNat - 48

/-- the number of the digits `cs` behind `acc` -/
def natOf (cs : List Char) (acc : Nat) : Nat := cs.foldl (fun n c => n * 10 + digitValue c) acc

/-- the number of a text that consists of digits -/
def nat? (cs : List Char) : Option Nat :=
  if cs.isEmpty ∨ !cs.all Char.isDigit then none else some (natOf cs 0)

/-- `m · 10^e` as the nearest float; far outside of the range of floats the exponent is not used -/
def nearest (m : Nat) (e : Int) : Float :=
  if m = 0 then 0
  else if 400 < e then 1 / 0
  else if e < -(400 + (Nat.log2 m : Int)) then 0
  else Float.ofScientific m (e < 0) e.natAbs

/-- an optional sign -/
def sign : List Char → Bool × List Char
  | '-' :: cs => (true, cs)
  | '+' :: cs => (false, cs)
  | cs => (false, cs)

/-- an exponent and nothing else -/
def exponent? : List Char → Option Int
  | [] => some 0
  | c :: cs =>
    if c = 'e' ∨ c = 'E' then
      let (negative, digits) := sign cs
      if digits.isEmpty ∨ !digits.all Char.isDigit then none
      else
        let n := natOf digits 0
        some (if negative then -(n : Int) else n)
    else none

/-- a literal without its sign -/
def unsigned? (cs : List Char) : Option Float :=
  let word := String.ofList (cs.map Char.toLower)
  if word = "inf" ∨ word = "infinity" then some (1 / 0)
  else if word = "nan" then some (0 / 0)
  else
    let whole := cs.takeWhile Char.isDigit
    let rest := cs.dropWhile Char.isDigit
    let (fraction, rest) :=
      match rest with
      | '.' :: rest => (rest.takeWhile Char.isDigit, rest.dropWhile Char.isDigit)
      | rest => ([], rest)
    if whole.isEmpty ∧ fraction.isEmpty then none
    else
      (exponent? rest).map fun e =>
        nearest (natOf fraction (natOf whole 0)) (e - fraction.length)

def read? (s : String) : Option Float :=
  let (negative, cs) := sign s.toList
  (unsigned? cs).map fun x => if negative then -x else x

end Decimal

end LiftedElimination
