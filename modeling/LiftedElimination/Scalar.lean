import LiftedElimination.Cost

/-!
# Table entries

`Scalar K` lists what the algebra of parfactors asks of the numbers in a table: sums, products,
quotients, powers, a total order that makes lists of tables canonical, and a text.

* `pow x n`            `x` times itself, `n` times over (floats take 32-bit exponents);
* `powRatio x a b`     `x` to the quotient of two numbers of groundings;
* `isOne`, `isZero`    the tests of the algebra, which need not agree with the order.
-/

namespace LiftedElimination

/-- the operations on table entries -/
class Scalar (K : Type) extends Zero K, One K, Add K, Mul K, Div K, Ord K where
  ofNat : Nat → K
  pow : K → Nat → K
  powRatio : K → Cost → Cost → K
  isOne : K → Bool
  isZero : K → Bool
  text : K → String
  transOrd : Std.TransOrd K

attribute [instance] Scalar.transOrd

namespace Scalar

variable {K : Type} [Scalar K]

def sum (l : List K) : K := l.foldl (· + ·) 0

end Scalar

end LiftedElimination
