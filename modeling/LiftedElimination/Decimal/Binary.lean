/-!
# Binary numbers, exactly

A finite float is `m · 2^q` with a sign; `Binary.ofFloat` reads it off the bits.  `Ratio` is a
non-negative quotient, and `Ratio.scale` moves it by powers of ten, so that all rounding to decimals
is done in natural numbers.
-/

namespace LiftedElimination

namespace Decimal

/-- the size of a float -/
inductive Magnitude where
  | finite (m : Nat) (q : Int)
  | infinite
  | nan
deriving DecidableEq

/-- a float as a sign and an exact size -/
structure Binary where
  negative : Bool
  magnitude : Magnitude
deriving DecidableEq

/-- the number of the 64 bits: sign, 11 bits of exponent, 52 bits of fraction -/
def Binary.ofBits (bits : Nat) : Binary :=
  let e : Nat := bits / Nat.pow 2 52 % Nat.pow 2 11
  let f : Nat := bits % Nat.pow 2 52
  ⟨decide (Nat.pow 2 63 ≤ bits),
    if e = 2047 then if f = 0 then .infinite else .nan
    else if e = 0 then .finite f (-1074)
    else .finite (f + Nat.pow 2 52) ((e : Int) - 1075)⟩

def Binary.ofFloat (x : Float) : Binary := ofBits x.toBits.toNat

/-- a quotient of natural numbers -/
structure Ratio where
  num : Nat
  den : Nat

/-- `m · 2^q` -/
def Ratio.ofBinary (m : Nat) (q : Int) : Ratio := ⟨m * Nat.pow 2 q.toNat, Nat.pow 2 (-q).toNat⟩

/-- the quotient over `10^e` -/
def Ratio.scale (r : Ratio) (e : Int) : Ratio :=
  ⟨r.num * Nat.pow 10 (-e).toNat, r.den * Nat.pow 10 e.toNat⟩

def Ratio.floor (r : Ratio) : Nat := r.num / r.den

/-- the number of decimal digits of `n`, at least one -/
def digitCount (n : Nat) : Nat := (Nat.toDigits 10 n).length

/-- the number of zeros behind the point of a quotient below one, at most `bound` of them -/
def leadingZeros : Nat → Ratio → Nat
  | 0, _ => 0
  | bound + 1, r =>
    if r.num * 10 < r.den then leadingZeros bound ⟨r.num * 10, r.den⟩ + 1 else 0

/-- the `k` with `10^(k-1) ≤ r < 10^k` -/
def Ratio.exponent (r : Ratio) : Int :=
  if r.den ≤ r.num then digitCount r.floor else -(leadingZeros 400 r : Int)

/-- the choice between two neighbours at the same distance -/
inductive Tie where
  | even
  | up
deriving DecidableEq

/-- the nearest natural number -/
def Ratio.round (r : Ratio) (tie : Tie) : Nat :=
  let n := r.num / r.den
  match compare (2 * (r.num % r.den)) r.den with
  | .lt => n
  | .gt => n + 1
  | .eq =>
    match tie with
    | .up => n + 1
    | .even => if n % 2 = 0 then n else n + 1

end Decimal

end LiftedElimination
