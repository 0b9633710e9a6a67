/-!
# Costs with saturation

A cost estimates the number of entries of the largest table that an operation builds.  Costs past
`Cost.limit`, the largest number of 128 bits, are all `infinite`.

* `Cost.sat n`           the cost `n`, or `infinite` past the limit;
* `mul`, `add`, `pow`    the operations, each saturating;
* `histogramCount n b`   the number of histograms of `n` individuals over `b` values;
* `fullExpansion`        the cost of expanding a counting formula on everybody.
-/

namespace LiftedElimination

/-- an estimated number of table entries -/
inductive Cost where
  | finite (n : Nat)
  | infinite
deriving DecidableEq, Inhabited

namespace Cost

/-- the largest finite cost -/
def limit : Nat := Nat.pow 2 128 - 1

def sat (n : Nat) : Cost := if n ≤ limit then finite n else infinite

theorem sat_of_le {n : Nat} (h : n ≤ limit) : sat n = finite n := if_pos h

theorem sat_of_lt {n : Nat} (h : limit < n) : sat n = infinite := if_neg (Nat.not_le.mpr h)

def zero : Cost := finite 0

def one : Cost := finite 1

def finite? : Cost → Option Nat
  | finite n => some n
  | infinite => none

def isInfinite : Cost → Bool
  | finite _ => false
  | infinite => true

def text : Cost → String
  | finite n => Nat.repr n
  | infinite => "∞"

/-! ## order -/

/-- finite costs by size, then the infinite one -/
def order : Cost → Cost → Ordering
  | finite m, finite n => compare m n
  | finite _, infinite => .lt
  | infinite, finite _ => .gt
  | infinite, infinite => .eq

instance : Ord Cost := ⟨order⟩

instance : Std.TransOrd Cost where
  eq_swap {a b} := match a, b with
    | finite m, finite n => (Std.OrientedCmp.eq_swap : compare m n = (compare n m).swap)
    | finite _, infinite => rfl
    | infinite, finite _ => rfl
    | infinite, infinite => rfl
  isLE_trans {a b c} := match a, b, c with
    | finite k, finite m, finite n =>
      (Std.TransCmp.isLE_trans : (compare k m).isLE → (compare m n).isLE → (compare k n).isLE)
    | finite _, _, infinite => fun _ _ => rfl
    | finite _, infinite, finite _ => fun _ h => nomatch h
    | infinite, finite _, _ => fun h _ => nomatch h
    | infinite, infinite, finite _ => fun _ h => nomatch h
    | infinite, infinite, infinite => fun _ _ => rfl

instance : Std.LawfulEqOrd Cost where
  compare_self {a} := match a with
    | finite n => (Std.ReflCmp.compare_self : compare n n = .eq)
    | infinite => rfl
  eq_of_compare {a b} h := match a, b, h with
    | finite _, finite _, h => congrArg finite (Std.LawfulEqOrd.eq_of_compare (α := Nat) h)
    | infinite, infinite, _ => rfl

def le (a b : Cost) : Bool := (compare a b).isLE

def lt (a b : Cost) : Bool := compare a b == .lt

def min (a b : Cost) : Cost := if b.lt a then b else a

/-! ## arithmetic -/

/-- zero times anything is zero -/
def mul : Cost → Cost → Cost
  | finite 0, _ => zero
  | _, finite 0 => zero
  | finite m, finite n => sat (m * n)
  | _, _ => infinite

def add : Cost → Cost → Cost
  | finite m, finite n => sat (m + n)
  | _, _ => infinite

/-- division of a finite cost; a quotient by zero is zero -/
def div : Cost → Nat → Cost
  | finite m, n => finite (m / n)
  | infinite, _ => infinite

/-- `acc` times `base`, `n` times over, cut short once the product is infinite -/
def powFrom (base : Nat) : Nat → Cost → Cost
  | 0, acc => acc
  | n + 1, acc =>
    match acc.mul (finite base) with
    | infinite => infinite
    | finite m => powFrom base n (finite m)

def pow (base exponent : Nat) : Cost :=
  if exponent = 0 then one else if base ≤ 1 then finite base else powFrom base exponent one

def prod (l : List Nat) : Cost := l.foldl (fun acc n => acc.mul (finite n)) one

/-! ## counting -/

/-- the running product of `chooseFrom`: `acc` is `total` choose `i`, and `k` factors are left -/
def chooseFrom (total : Nat) : Nat → Nat → Nat → Cost
  | 0, _, acc => finite acc
  | k + 1, i, acc =>
    if acc * (total - i) ≤ limit then chooseFrom total k (i + 1) (acc * (total - i) / (i + 1))
    else infinite

/-- the number of ways to spread `n` individuals over `buckets` values; infinite as soon as a
partial product passes the limit -/
def histogramCount (n buckets : Nat) : Cost :=
  if buckets = 0 then if n = 0 then one else zero
  else
    let k := buckets - 1
    let total := n + k
    chooseFrom total (Nat.min k (total - k)) 0 1

/-- a table of `entries` entries whose formula of `histograms` values is replaced by `individuals`
atoms of `values` values each -/
def fullExpansion (entries histograms values individuals : Nat) : Cost :=
  ((finite entries).div histograms).mul (pow values individuals)

/-- the cost as a number of 64 bits, the largest one standing for everything above -/
def toCounter : Cost → UInt64
  | finite n => if n < UInt64.size then UInt64.ofNat n else UInt64.ofNat (UInt64.size - 1)
  | infinite => UInt64.ofNat (UInt64.size - 1)

end Cost

end LiftedElimination
