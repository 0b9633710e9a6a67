import LiftedElimination.Atom
import LiftedElimination.Histogram

/-!
# Counting formulas

`#A:C[f(.., A, ..)]` counts, over the individuals that `C` leaves to the bound variable `A`, how
many of the ground instances of the atom take each value.

* `CountingFormula`   the bound variable, the atom, and the constraints on the bound variable;
* `make`              checks that the atom and every constraint mention the bound variable;
* `apply`             substitution, which never replaces the bound variable;
* `isExpandable`, `expand`   one individual taken out of the counted group.
-/

namespace LiftedElimination

/-- the histogram of `inner` over the individuals of `bound` -/
structure CountingFormula where
  bound : LogVar
  inner : Atom
  constraints : ConstraintSet
deriving DecidableEq

namespace CountingFormula

instance : Ord CountingFormula :=
  ⟨compareLex (compareOn CountingFormula.bound)
    (compareLex (compareOn CountingFormula.inner) (compareOn CountingFormula.constraints))⟩

instance : Std.TransOrd CountingFormula :=
  inferInstanceAs (Std.TransCmp (compareLex (compareOn CountingFormula.bound)
    (compareLex (compareOn CountingFormula.inner) (compareOn CountingFormula.constraints))))

instance : Std.LawfulEqOrd CountingFormula where
  compare_self {a} := compareLex_eq_eq.mpr
    ⟨(Std.ReflCmp.compare_self : compare a.bound a.bound = .eq), compareLex_eq_eq.mpr
      ⟨(Std.ReflCmp.compare_self : compare a.inner a.inner = .eq),
        (Std.ReflCmp.compare_self : compare a.constraints a.constraints = .eq)⟩⟩
  eq_of_compare {a b} h := by
    obtain ⟨hb, h⟩ := compareLex_eq_eq.mp h
    obtain ⟨hi, hc⟩ := compareLex_eq_eq.mp h
    cases a; cases b
    obtain rfl := Std.LawfulEqOrd.eq_of_compare (α := LogVar) hb
    obtain rfl := Std.LawfulEqOrd.eq_of_compare (α := Atom) hi
    obtain rfl := Std.LawfulEqOrd.eq_of_compare (α := ConstraintSet) hc
    rfl

def text (f : CountingFormula) : String :=
  "#" ++ f.bound.text ++ ":" ++ f.constraints.text ++ "[" ++ f.inner.text ++ "]"

/-- the formula, if its atom holds the bound variable and every constraint is a satisfiable one on
the bound variable -/
def make (bound : LogVar) (inner : Atom) (constraints : ConstraintSet) :
    Except Error CountingFormula :=
  if .var bound ∈ inner.terms then
    match constraints.toList.find? (fun c => !c.mentions bound || c.isContradiction) with
    | some c => .error (.invalidParfactor
        ("constraint " ++ c.text ++ " is not a constraint on " ++ bound.text))
    | none => .ok ⟨bound, inner, constraints⟩
  else .error (.invalidParfactor
    ("bound variable " ++ bound.text ++ " does not occur in " ++ inner.text))

/-! ## the counted group -/

/-- the individuals of the bound variable that no constant excludes -/
def individuals (f : CountingFormula) : Population := f.bound.domain f.constraints

/-- the terms that the bound variable differs from -/
def exclusions (f : CountingFormula) : List Term :=
  f.constraints.toList.filterMap (·.other? f.bound)

/-- the variables that the bound variable differs from -/
def excludedVars (f : CountingFormula) : List LogVar := f.exclusions.filterMap Term.var?

/-- the number of individuals counted, each excluded variable taking one away -/
def domainSize (f : CountingFormula) : Nat := f.individuals.size - f.excludedVars.length

def histograms (f : CountingFormula) : List Histogram :=
  Histogram.all f.inner.range.size f.domainSize

/-- the number of histograms, as far as 64 bits go -/
def rangeSize (f : CountingFormula) : Nat :=
  match Cost.histogramCount f.domainSize f.inner.range.size with
  | .finite n => min n maxWord
  | .infinite => maxWord

/-- the variables of the atom other than the bound one, then those that only constraints mention -/
def freeVars (f : CountingFormula) : List LogVar :=
  addVars (f.inner.variables.filter (· ≠ f.bound)) f.excludedVars

/-! ## substitution -/

/-- the formula under `s`, which does not touch the bound variable -/
def apply (f : CountingFormula) (s : Substitution) : CountingFormula :=
  let s := s.without (· = f.bound)
  { f with inner := f.inner.apply s, constraints := f.constraints.filterMap (·.apply s) }

/-- the formula with `x` for its bound variable -/
def withBound (f : CountingFormula) (x : LogVar) : CountingFormula :=
  let s := Substitution.single ⟨f.bound, .var x⟩
  ⟨x, f.inner.apply s, f.constraints.filterMap (·.apply s)⟩

/-! ## expansion -/

/-- `t` can be taken out of the group: a constant of it, if no variable is excluded, or another
variable over the same population that is not excluded yet -/
def isExpandable (f : CountingFormula) : Term → Bool
  | .const c => f.excludedVars.isEmpty && decide (c ∈ f.individuals)
  | .var x =>
    x != f.bound && x.population == f.bound.population && !f.constraints.separates f.bound (.var x)

/-- the atom for `t` alone -/
def instantiate (f : CountingFormula) (t : Term) : Atom :=
  f.inner.apply (.single ⟨f.bound, t⟩)

/-- the formula without `t` in its group -/
def excluding (f : CountingFormula) (t : Term) : CountingFormula :=
  { f with constraints := f.constraints.insert (.ordered f.bound t) }

/-- the atom for `t`, and the formula for the others if anybody is left -/
def expand (f : CountingFormula) (t : Term) : Except Error (Atom × Option CountingFormula) :=
  if f.isExpandable t then
    let rest := f.excluding t
    .ok (f.instantiate t, if 0 < rest.domainSize then some rest else none)
  else .error (.notExpandable f.text t.text)

end CountingFormula

end LiftedElimination
