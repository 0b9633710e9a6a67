import LiftedElimination.Parfactor.Basic

/-!
# Splits

A split on `X/t` divides the groundings of a potential into those that give `X` and `t` the same
value and the rest.

* `Split`              the two parts;
* `canSplit`           when a split divides the groundings of given variables and constraints;
* `Parfactor.split`    the two parts of a parfactor.
-/

namespace LiftedElimination

/-- the instance under a binding, and the rest under the opposite inequality -/
structure Split (P : Type) where
  fragment : P
  residual : P

/-- `X/t` is a split of groundings of `vars` under `cs`: `X` is one of them, `t` is a value for it
that is not excluded yet, and the instance is not empty -/
def canSplit (vars : List LogVar) (cs : ConstraintSet) (b : Binding) : Bool :=
  !b.isTrivial && decide (b.source ∈ vars)
    && (match b.target with
      | .const c => decide (c ∈ b.source.population)
      | .var y => decide (y ∈ vars) && y.population == b.source.population)
    && !cs.contains (.ofBinding b) && (cs.apply (.single b)).isSome

namespace Parfactor

variable {K : Type}

def isSplittable (p : Parfactor K) (b : Binding) : Bool := canSplit p.logVars p.constraints b

def split (p : Parfactor K) (b : Binding) : Except Error (Split (Parfactor K)) :=
  if p.isSplittable b then
    match p.apply (.single b) with
    | none => .error (.notSplittable b.text)
    | some fragment =>
      .ok ⟨fragment, { p with constraints := p.constraints.insert (.ofBinding b) }⟩
  else .error (.notSplittable b.text)

end Parfactor

end LiftedElimination
