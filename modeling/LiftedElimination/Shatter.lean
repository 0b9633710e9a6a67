import LiftedElimination.Distribution
import LiftedElimination.Parfactor.Counting

/-!
# Shattering

Components are refined until the extents of any two occurrences of random variables are equal or
disjoint, and each extent lies inside or outside of every kept set.  One refinement is done at a
time: a split, an expansion of a counting formula, or the conversion of an aggregation parfactor.

* `nextAction`     the first refinement that a list of components needs, if any;
* `perform`        the normalised pieces that it leaves;
* `refineRound`    one refinement of the list;
* `Marginal.shatter`       refinements until none is needed;
* `Marginal.isShattered`   none is needed.

`refinementBound` bounds the number of refinements: a split divides the groundings of a component,
and every refinement adds an inequality, removes a variable or takes somebody out of a counted
group.
-/

namespace LiftedElimination

variable {K : Type} [Scalar K]

/-- the refinement of one component -/
inductive Action where
  | split (b : Binding)
  | expand (f : CountingFormula) (t : Term)
  | convert

/-- an occurrence of a random variable: the component, the place in it, and the extent -/
structure Occurrence where
  component : Nat
  place : Nat
  extent : Extent

def Occurrence.ofComponent (i : Nat) (c : Component K) : List Occurrence :=
  c.prvs.zipIdx.map fun q => ⟨i, q.2, .of q.1 c.constraints⟩

def occurrences (cs : List (Component K)) : List Occurrence :=
  cs.zipIdx.flatMap fun c => Occurrence.ofComponent c.2 c.1

/-! ## the next refinement -/

/-- a refinement of the random variable at place `i` of a component as an action on it -/
def Component.actionOf (c : Component K) (i : Nat) (r : Extent.Refinement) : Except Error Action :=
  match c, r with
  | .aggregation a, .split b =>
    .ok (if b.source = a.extra ∨ b.target = .var a.extra then .convert else .split b)
  | .aggregation _, .expand _ => .ok .convert
  | .standard _, .split b => .ok (.split b)
  | .standard p, .expand t =>
    match p.prvs[i]? with
    | some (.count f) =>
      if p.isExpandable f t then .ok (.expand f t)
      else if f.isExpandable t then
        match p.prerequisite? f t with
        | some b => .ok (.split b)
        | none => .error (.notExpandable f.text t.text)
      else .error (.notExpandable f.text t.text)
    | _ => .error (.notExpandable p.text t.text)

/-- the action of a refinement of the occurrence `o` -/
def Occurrence.action (cs : List (Component K)) (o : Occurrence) (r : Extent.Refinement) :
    Except Error (Nat × Action) :=
  match cs[o.component]? with
  | none => .error .tableBounds
  | some c => (c.actionOf o.place r).map fun a => (o.component, a)

/-- the first component whose constraints need a split, with the split -/
def firstViolation? (cs : List (Component K)) : Option (Nat × Action) :=
  cs.zipIdx.findSome? fun c =>
    (c.1.standard?.bind Parfactor.violation?).map fun b => (c.2, .split b)

/-- the refinement that separates two occurrences, of the first one if it needs any -/
def separating? (o₁ o₂ : Occurrence) : Option (Occurrence × Extent.Refinement) :=
  match o₁.extent.compare o₂.extent with
  | .overlapping (some r) _ => some (o₁, r)
  | .overlapping none (some r) => some (o₂, r)
  | _ => none

/-- the first pair of occurrences, the later one leading, that needs a refinement -/
def firstOverlap? : List Occurrence → List Occurrence → Option (Occurrence × Extent.Refinement)
  | _, [] => none
  | earlier, o :: os =>
    match earlier.findSome? (separating? · o) with
    | some r => some r
    | none => firstOverlap? (earlier ++ [o]) os

/-- the first occurrence that lies only partly inside a kept set -/
def firstKept? (kept : List Extent) (os : List Occurrence) :
    Option (Occurrence × Extent.Refinement) :=
  os.findSome? fun o => kept.findSome? fun q =>
    match o.extent.compare q with
    | .overlapping (some r) _ => some (o, r)
    | _ => none

/-- the first refinement that the components need, with the place of the component -/
def nextAction (cs : List (Component K)) (kept : List PrvSet) :
    Except Error (Option (Nat × Action)) :=
  match firstViolation? cs with
  | some a => .ok (some a)
  | none =>
    let os := occurrences cs
    match firstOverlap? [] os with
    | some (o, r) => (o.action cs r).map some
    | none =>
      match firstKept? (kept.map Extent.ofSet) os with
      | some (o, r) => (o.action cs r).map some
      | none => .ok none

/-! ## refinement -/

/-- the pieces of a component under an action -/
def Component.pieces (c : Component K) : Action → Except Error (List (Component K))
  | .split b => (c.split b).map fun s => [s.fragment, s.residual]
  | .expand f t =>
    match c with
    | .standard p => (p.expand f t).map fun q => [.standard q]
    | .aggregation _ => .error (.notExpandable f.text t.text)
  | .convert =>
    match c with
    | .standard p => .error (.invalidAggregation (p.text ++ " is not an aggregation parfactor"))
    | .aggregation a => a.toParfactors.map (·.map .standard)

/-- the normalised pieces, without the empty ones -/
def Component.perform (c : Component K) (a : Action) : Except Error (List (Component K)) := do
  let pieces ← c.pieces a
  let normal ← collect Component.normalize pieces
  return normal.filterMap id

/-- one refinement of the list, if it needs any -/
def refineRound (kept : List PrvSet) (cs : List (Component K)) :
    Except Error (Option (List (Component K))) := do
  match ← nextAction cs kept with
  | none => return none
  | some (i, a) =>
    match cs[i]? with
    | none => return none
    | some c =>
      let pieces ← c.perform a
      return some (pieces.foldl Distribution.pushFolded (cs.eraseIdx i))

/-! ## a bound on the refinements -/

/-- what one variable adds to the ways to divide groundings -/
def ConstraintSet.room (cs : ConstraintSet) (x : LogVar) : Nat := 2 * ((x.domain cs).size + 1)

/-- how far the groundings of `vars` can still be divided: by the individuals of each variable, and
by the pairs that no constraint keeps apart -/
def ConstraintSet.divisions (cs : ConstraintSet) (vars : List LogVar) : Nat :=
  let pairs := vars.flatMap fun x => vars.map fun y => (x, y)
  let loose := pairs.filter fun p => p.1 != p.2 && !cs.separates p.1 (.var p.2)
  vars.foldl (fun n x => n * cs.room x) 1 * Nat.pow 2 loose.length

/-- twice what can still be taken out of a counted group, and one for the random variable itself -/
def Prv.removals (vars : List LogVar) : Prv → Nat
  | .atom _ => 1
  | .count f =>
    let candidates := vars.filter fun x => !f.constraints.separates f.bound (.var x)
    2 * (f.individuals.size + candidates.length) + 1

/-- a bound on the refinements that start from one component; an aggregation parfactor makes room
for the formula and the extra variable of its conversion -/
def Component.refinementBound : Component K → Nat
  | .standard p =>
    p.constraints.divisions p.logVars
      * p.prvs.foldl (fun n q => n + q.removals p.logVars) 1
  | .aggregation a =>
    let partners := a.logVars.filter fun x => !a.constraints.separates a.extra (.var x)
    a.constraints.divisions a.logVars
      * (a.constraints.room a.extra * Nat.pow 4 partners.length * (2 + a.context.length)
        + (2 * ((a.extra.domain a.constraints).size + partners.length) + 4))

def refinementBound (cs : List (Component K)) : Nat :=
  cs.foldl (fun n c => n + c.refinementBound) 0

namespace Marginal

/-- the normal forms of the components, without the empty ones -/
def normalized (m : Marginal K) : Except Error (List (Component K)) := do
  let normal ← collect Component.normalize m.distribution.toList
  return (normal.filterMap id).foldl Distribution.pushFolded []

/-- the components refined until no further refinement is needed; the kept sets stay -/
def shatter (m : Marginal K) : Except Error (Marginal K) := do
  let cs ← m.normalized
  let cs ← settle (refineRound m.kept) (refinementBound cs) cs
  return m.withDistribution (.ofList cs)

def isShattered (m : Marginal K) : Except Error Bool :=
  (nextAction m.distribution.toList m.kept).map Option.isNone

end Marginal

end LiftedElimination
