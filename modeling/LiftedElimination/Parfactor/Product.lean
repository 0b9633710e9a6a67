import LiftedElimination.Parfactor.Basic

/-!
# Products

Two parfactors with the same constraints and the same logical variables have the same groundings,
so their product is taken entry by entry over the union of their random variables.

* `isMultipliable`, `multiply`   the product;
* `squared`                      the product of a parfactor with its copy;
* `align?`                       a renaming of one parfactor that makes it fit another one.
-/

namespace LiftedElimination

namespace Parfactor

variable {K : Type} [Scalar K]

def isMultipliable (p q : Parfactor K) : Bool :=
  p.constraints == q.constraints && sameVars p.logVars q.logVars

/-- the random variables of both, those of `qs` only if they are not there yet -/
def unionPrvs (ps qs : List Prv) : List Prv :=
  qs.foldl (fun acc q => if q ∈ acc then acc else acc ++ [q]) ps

/-- the product over the union of the random variables -/
def multiply (p q : Parfactor K) : Except Error (Parfactor K) := do
  if !p.isMultipliable q then .error (.notMultipliable (p.text ++ " and " ++ q.text))
  let prvs := unionPrvs p.prvs q.prvs
  let places := q.prvs.map prvs.idxOf
  let n := p.prvs.length
  let (pSizes, qSizes) := (p.sizes, q.sizes)
  rebuild p.constraints prvs fun digits => do
    let x ← p.factor.entry pSizes (digits.take n)
    let y ← q.factor.entry qSizes (places.map fun k => digits.getD k 0)
    return x * y

/-- the product with an identical copy -/
def squared (p : Parfactor K) : Parfactor K := { p with factor := p.factor.squared }

/-- `p` renamed so that it is multipliable with `target`, by matching one of its random variables
with an identical one of `target` -/
def align? (target p : Parfactor K) : Option (Parfactor K) :=
  if target.isMultipliable p then some p
  else
    p.prvs.findSome? fun q =>
      target.prvs.findSome? fun r =>
        match (Extent.of r target.constraints).renaming? (.of q p.constraints) with
        | none => none
        | some rho => (p.apply rho).filter target.isMultipliable

end Parfactor

end LiftedElimination
