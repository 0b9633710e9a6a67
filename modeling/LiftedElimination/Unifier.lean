import LiftedElimination.Atom

/-!
# Unification of atoms

The arguments of two atoms are unified position by position.  A solved equation becomes a binding,
which is applied to the equations that are left and to the targets of the earlier bindings.
Variables of the second atom are bound first, so the unified atom keeps the names of the first.

* `unify`      solves a list of equations on top of a substitution;
* `Atom.mgu`   a most general unifier of two atoms, if there is one.
-/

namespace LiftedElimination

/-- the binding that solves `s = t`; nothing for two constants -/
def solve : Term → Term → Option Binding
  | s, .var y => some ⟨y, s⟩
  | .var x, .const c => some ⟨x, .const c⟩
  | .const _, .const _ => none

/-- the equations solved in turn; `none` if two distinct constants meet -/
def unify : List (Term × Term) → Substitution → Option Substitution
  | [], theta => some theta
  | (s, t) :: rest, theta =>
    if s = t then unify rest theta
    else
      match solve s t with
      | none => none
      | some b =>
        match theta.extend b with
        | .error _ => none
        | .ok theta =>
          let step := Substitution.single b
          unify (rest.map fun e => (step.apply e.1, step.apply e.2)) theta
termination_by eqs => eqs.length

/-- a most general unifier of two atoms -/
def Atom.mgu (a b : Atom) : Option Substitution :=
  if a.functor = b.functor ∧ a.arity = b.arity then unify (a.terms.zip b.terms) .identity else none

/-- the two atoms have a common instance -/
def Atom.unifiable (a b : Atom) : Bool := (a.mgu b).isSome

end LiftedElimination
