import LiftedElimination.Operator
import LiftedElimination.Parfactor.Split
import LiftedElimination.Parfactor.Product
import LiftedElimination.Parfactor.NormalForm

/-!
# Aggregation parfactors

`⟨C, p(.., A, ..), c(..), F, ⊗, context⟩` says that every ground child `c(..)` is the aggregate `⊗`
of its parents `p(.., a, ..)` over the individuals `a` of the extra variable `A`.  The table `F`
weighs each parent together with the context.

* `Aggregation`      the parfactor;
* `make`             finds the extra variable and checks parent, child, context and table;
* `split`, `normalize`   as for parfactors, except that the extra variable is never bound;
* `toParfactors`     the same potential as parfactors with a counting formula.
-/

namespace LiftedElimination

/-- a child that aggregates its parents over the extra variable -/
structure Aggregation (K : Type) where
  constraints : ConstraintSet
  parent : Atom
  child : Atom
  context : List Atom
  factor : Factor K
  operator : Operator
  extra : LogVar

namespace Aggregation

variable {K : Type}

/-- parent, child, then context -/
def atoms (a : Aggregation K) : List Atom := a.parent :: a.child :: a.context

def prvs (a : Aggregation K) : List Prv := a.atoms.map Prv.atom

/-- the logical variables other than the extra one -/
def logVars (a : Aggregation K) : List LogVar :=
  (addVars (addVars [] (a.atoms.flatMap Atom.variables)) a.constraints.variables).filter
    (· ≠ a.extra)

def constraintsOnExtra (a : Aggregation K) : ConstraintSet := a.constraints.onVariable a.extra

def constraintsNotOnExtra (a : Aggregation K) : ConstraintSet := a.constraints.notOnVariable a.extra

/-- the sets of ground random variables, one for every occurrence -/
def prvSets (a : Aggregation K) : List PrvSet := a.prvs.map fun q => .of q a.constraints

/-- the instance under `s`, which does not touch the extra variable; `none` if it is empty because a
constraint is violated -/
def apply (a : Aggregation K) (s : Substitution) : Option (Aggregation K) :=
  let s := s.without (· = a.extra)
  (a.constraints.apply s).map fun cs =>
    { a with
      constraints := cs, parent := a.parent.apply s, child := a.child.apply s,
      context := a.context.map (·.apply s) }

def isSplittable (a : Aggregation K) (b : Binding) : Bool := canSplit a.logVars a.constraints b

def split (a : Aggregation K) (b : Binding) : Except Error (Split (Aggregation K)) :=
  if a.isSplittable b then
    match a.apply (.single b) with
    | none => .error (.notSplittable b.text)
    | some fragment =>
      .ok ⟨fragment, { a with constraints := a.constraints.insert (.ofBinding b) }⟩
  else .error (.notSplittable b.text)

/-- variables with one individual left become constants; `none` if there is no grounding -/
def normalize (a : Aggregation K) : Except Error (Option (Aggregation K)) :=
  groundSingletons logVars constraints apply a

/-! ## validation -/

/-- the variable of the parent that the child does not mention, if it is the only one -/
def extra? (parent child : Atom) : Option LogVar :=
  match parent.variables.filter (· ∉ child.variables) with
  | [x] => some x
  | _ => none

/-- the number of entries of a table for the parent and the context, as far as 64 bits go -/
def expectedSize (parent : Atom) (context : List Atom) : Nat :=
  context.foldl (fun acc p => min (acc * p.range.size) maxWord) parent.range.size

variable [Scalar K]

/-- the parfactor, after its variables, ranges and table have been checked; without a table all
entries are one -/
def make (cs : ConstraintSet) (parent child : Atom) (context : List Atom) (operator : Operator)
    (factor : Option (Factor K)) : Except Error (Aggregation K) := do
  match extra? parent child with
  | none => .error (.invalidAggregation
      (parent.text ++ " must have exactly one variable not in " ++ child.text))
  | some extra =>
    if let some x := child.variables.find? (· ∉ parent.variables) then
      .error (.invalidAggregation
        ("child variable " ++ x.text ++ " does not occur in " ++ parent.text))
    if parent.range ≠ child.range then
      .error (.invalidAggregation
        (parent.text ++ " and " ++ child.text ++ " have different ranges"))
    if let some p := context.find? (fun p => extra ∈ p.variables) then
      .error (.invalidAggregation
        ("context " ++ p.text ++ " mentions the extra variable " ++ extra.text))
    let expected := expectedSize parent context
    let factor ← match factor with
      | none => Factor.ones expected
      | some t => .ok t
    factor.checkSize expected
    return ⟨cs, parent, child, context, factor, operator, extra⟩

/-- the product with an identical copy; the aggregation itself holds or not, so only the weights
change -/
def squared (a : Aggregation K) : Aggregation K := { a with factor := a.factor.squared }

/-- the entries that say whether the child has the aggregate of the histogram -/
def indicators (op : Operator) (histograms : List Histogram) (buckets : Nat) : List K :=
  histograms.flatMap fun h =>
    let v := op.overHistogram h
    (List.range buckets).map fun c => if c = v then 1 else 0

/-- the weights as a parfactor, left out if they are all one, and the aggregation as a parfactor of
a counting formula and the child -/
def toParfactors (a : Aggregation K) : Except Error (List (Parfactor K)) := do
  let weighed ←
    if a.factor.isAllOnes then .ok []
    else do
      let prvs := Prv.atom a.parent :: a.context.map Prv.atom
      let p ← Parfactor.make a.constraints prvs (some a.factor)
      pure [p]
  let f ← CountingFormula.make a.extra a.parent a.constraintsOnExtra
  let entries := indicators a.operator f.histograms a.child.range.size
  let aggregate ← Parfactor.make a.constraintsNotOnExtra [.count f, .atom a.child]
    (some ⟨entries.toArray⟩)
  return weighed ++ [aggregate]

/-! ## order and text -/

instance : Ord (Aggregation K) :=
  ⟨compareLex (compareOn Aggregation.constraints) (compareLex (compareOn Aggregation.parent)
    (compareLex (compareOn Aggregation.child) (compareLex (compareOn Aggregation.context)
      (compareLex (compareOn Aggregation.factor) (compareLex (compareOn Aggregation.operator)
        (compareOn Aggregation.extra))))))⟩

instance : Std.TransOrd (Aggregation K) :=
  inferInstanceAs (Std.TransCmp
    (compareLex (compareOn Aggregation.constraints) (compareLex (compareOn Aggregation.parent)
      (compareLex (compareOn Aggregation.child) (compareLex (compareOn Aggregation.context)
        (compareLex (compareOn Aggregation.factor) (compareLex (compareOn Aggregation.operator)
          (compareOn Aggregation.extra))))))))

def text (a : Aggregation K) : String :=
  "<" ++ a.constraints.text ++ ", " ++ a.parent.text ++ ", " ++ a.child.text ++ ", "
    ++ a.operator.text
    ++ (if a.context.isEmpty then ""
      else ", [" ++ ", ".intercalate (a.context.map Atom.text) ++ "]") ++ ">"

end Aggregation

end LiftedElimination
