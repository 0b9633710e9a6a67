import LiftedElimination.CountingFormula
import LiftedElimination.Grounding

/-!
# Parameterized random variables

* `Prv`      an atom, or a counting formula over one;
* `PrvSet`   a parameterized random variable with constraints on its free variables: the set of
             ground random variables it denotes.
-/

namespace LiftedElimination

/-- a parameterized random variable -/
inductive Prv where
  | atom (a : Atom)
  | count (f : CountingFormula)
deriving DecidableEq

namespace Prv

/-- atoms before counting formulas -/
def order : Prv → Prv → Ordering
  | atom a, atom b => compare a b
  | atom _, count _ => .lt
  | count _, atom _ => .gt
  | count f, count g => compare f g

instance : Ord Prv := ⟨order⟩

instance : Std.TransOrd Prv where
  eq_swap {p q} := match p, q with
    | atom a, atom b => (Std.OrientedCmp.eq_swap : compare a b = (compare b a).swap)
    | atom _, count _ => rfl
    | count _, atom _ => rfl
    | count f, count g => (Std.OrientedCmp.eq_swap : compare f g = (compare g f).swap)
  isLE_trans {p q r} := match p, q, r with
    | atom a, atom b, atom c =>
      (Std.TransCmp.isLE_trans : (compare a b).isLE → (compare b c).isLE → (compare a c).isLE)
    | atom _, _, count _ => fun _ _ => rfl
    | atom _, count _, atom _ => fun _ h => nomatch h
    | count _, atom _, _ => fun h _ => nomatch h
    | count _, count _, atom _ => fun _ h => nomatch h
    | count f, count g, count h =>
      (Std.TransCmp.isLE_trans : (compare f g).isLE → (compare g h).isLE → (compare f h).isLE)

instance : Std.LawfulEqOrd Prv where
  compare_self {p} := match p with
    | atom a => (Std.ReflCmp.compare_self : compare a a = .eq)
    | count f => (Std.ReflCmp.compare_self : compare f f = .eq)
  eq_of_compare {p q} h := match p, q, h with
    | atom _, atom _, h => congrArg atom (Std.LawfulEqOrd.eq_of_compare (α := Atom) h)
    | count _, count _, h => congrArg count (Std.LawfulEqOrd.eq_of_compare (α := CountingFormula) h)

def atom? : Prv → Option Atom
  | atom a => some a
  | count _ => none

def count? : Prv → Option CountingFormula
  | atom _ => none
  | count f => some f

/-- the atom whose ground instances the random variable ranges over -/
def base : Prv → Atom
  | atom a => a
  | count f => f.inner

def rangeSize : Prv → Nat
  | atom a => a.range.size
  | count f => f.rangeSize

def freeVars : Prv → List LogVar
  | atom a => a.variables
  | count f => f.freeVars

theorem nodup_freeVars (q : Prv) : q.freeVars.Nodup := by
  cases q with
  | atom a => exact a.nodup_variables
  | count f => exact nodup_addVars (f.inner.nodup_variables.filter _)

def mentions (p : Prv) (x : LogVar) : Bool := decide (x ∈ p.freeVars)

def apply : Prv → Substitution → Prv
  | atom a, s => atom (a.apply s)
  | count f, s => count (f.apply s)

/-- equal up to the name of the bound variable -/
def sameFormula : Prv → Prv → Bool
  | count f, count g => f == g.withBound f.bound
  | p, q => p == q

def text : Prv → String
  | atom a => a.text
  | count f => f.text

end Prv

/-! ## sets of ground random variables -/

/-- the ground random variables of `prv` under `constraints` -/
structure PrvSet where
  prv : Prv
  constraints : ConstraintSet
deriving DecidableEq

namespace PrvSet

/-- `prv` with those of the constraints whose variables are free in it -/
def of (prv : Prv) (cs : ConstraintSet) : PrvSet := ⟨prv, cs.restrictTo prv.freeVars⟩

/-- the number of ground random variables -/
def groundCount (s : PrvSet) : Cost :=
  match s.prv with
  | .atom a => s.constraints.countGroundings a.variables
  | .count f => ConstraintSet.countGroundings (s.constraints.union f.constraints) f.inner.variables

def text (s : PrvSet) : String := s.prv.text ++ " : " ++ s.constraints.text

end PrvSet

end LiftedElimination
