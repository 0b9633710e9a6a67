import LiftedElimination.Prv
import LiftedElimination.Unifier

/-!
# Extents

The extent of an occurrence of a parameterized random variable is the set of ground atoms that it
denotes: the instances of its atom under the constraints on the variables of the atom.  A counting
formula has the extent of its inner atom, with the bound variable marked.

* `Extent.of`            the extent of an occurrence under the constraints of its parfactor;
* `Extent.apartFrom`     the extent with its variables renamed away from those of another one;
* `Extent.compare`       disjoint, or how each side must be refined to lie inside the other;
* `Extent.renaming?`     the renaming of variables between two identical extents.
-/

namespace LiftedElimination

/-- the instances of `atom` under `constraints`; `counted` is the bound variable of a formula -/
structure Extent where
  atom : Atom
  constraints : ConstraintSet
  counted : Option LogVar
deriving DecidableEq

namespace Extent

/-- the extent of `p` where the constraints `cs` hold -/
def of (p : Prv) (cs : ConstraintSet) : Extent :=
  match p with
  | .atom a => ⟨a, cs.restrictTo a.variables, none⟩
  | .count f =>
    ⟨f.inner, ConstraintSet.restrictTo (cs.union f.constraints) f.inner.variables, some f.bound⟩

def ofSet (s : PrvSet) : Extent := of s.prv s.constraints

def names (e : Extent) : List String := e.atom.variables.map LogVar.name

/-! ## renaming apart -/

/-- `name` with one more prime, and then with further ones as long as the name is `taken`, at most
`n` of them -/
def primed (taken : List String) : Nat → String → String
  | 0, name => name ++ "'"
  | n + 1, name => if name ++ "'" ∈ taken then primed taken n (name ++ "'") else name ++ "'"

/-- `name` with primes behind it, at least one, and no more than it takes to avoid `taken` -/
def freshName (taken : List String) (name : String) : String := primed taken taken.length name

/-- fresh variables for those of `vars` whose names are among `others` -/
def freshVars (others : List String) : List String → List LogVar → List (LogVar × LogVar)
  | _, [] => []
  | taken, x :: xs =>
    if x.name ∈ others then
      let name := freshName taken x.name
      (x, x.renamed name) :: freshVars others (taken ++ [name]) xs
    else freshVars others taken xs

/-- the substitution of the listed variables, the first of two images for a variable kept -/
def replacing (pairs : List (LogVar × LogVar)) : Substitution :=
  pairs.foldl (fun s p => s.bindNew ⟨p.1, .var p.2⟩) .identity

/-- the image of a variable that is replaced by a variable, or the variable itself -/
def rename (s : Substitution) (x : LogVar) : LogVar := (s.apply (.var x)).var?.getD x

/-- `e` with fresh names for the variables whose names occur in `other`, and the way back -/
def apartFrom (e other : Extent) : Extent × Substitution :=
  let fresh := freshVars other.names (other.names ++ e.names) e.atom.variables
  let forward := replacing fresh
  (⟨e.atom.apply forward, e.constraints.filterMap (·.apply forward),
      e.counted.map (rename forward)⟩,
    replacing (fresh.map fun p => (p.2, p.1)))

/-! ## overlap -/

/-- two extents over one set of names with a common instance -/
structure Overlap where
  right : Extent
  back : Substitution
  theta : Substitution

/-- constants stay inside the populations, and variables only meet variables of the same one -/
def respectsPopulations (theta : Substitution) : Bool :=
  theta.bindings.all fun b =>
    match b.target with
    | .const c => decide (c ∈ b.source.population)
    | .var y => y.population == b.source.population

/-- the unifier of two extents, if some common instance satisfies the constraints of both -/
def overlap? (a b : Extent) : Option Overlap :=
  if a.atom.functor = b.atom.functor then
    let (right, back) := b.apartFrom a
    match a.atom.mgu right.atom with
    | none => none
    | some theta =>
      if respectsPopulations theta then
        match ConstraintSet.apply (a.constraints.union right.constraints) theta with
        | none => none
        | some merged =>
          if merged.satisfiable (a.atom.apply theta).variables then some ⟨right, back, theta⟩
          else none
      else none
  else none

/-! ## refinement -/

/-- how the parfactor of an occurrence must change -/
inductive Refinement where
  | split (b : Binding)
  | expand (t : Term)
deriving DecidableEq

def Refinement.apply (s : Substitution) : Refinement → Refinement
  | .split b => .split ⟨rename s b.source, s.apply b.target⟩
  | .expand t => .expand (s.apply t)

/-- the refinement of `own` that separates `x` from `t`, an expansion where one of them is
counted -/
def refineOn (own : Extent) (x : LogVar) (t : Term) : Refinement :=
  if own.counted = some x then .expand t
  else if own.counted.map Term.var = some t then .expand (.var x)
  else .split ⟨x, t⟩

/-- the constraint holds for every instance of the extent -/
def entails (own : Extent) (k : Constraint) : Bool :=
  own.constraints.contains k ||
    match k.second with
    | .const c => decide (c ∉ k.first.population)
    | .var _ => false

/-- the first variable that the unifier turns into a constant -/
def constantImage? (theta : Substitution) (vars : List LogVar) : Option (LogVar × Constant) :=
  vars.findSome? fun x => (theta.apply (.var x)).const?.map fun c => (x, c)

/-- the first variable that shares its image with an earlier one, the earlier one in front -/
def sharedImage? (theta : Substitution) : List LogVar → List LogVar → Option (LogVar × LogVar)
  | _, [] => none
  | earlier, y :: ys =>
    match earlier.find? (fun x => theta.apply (.var x) = theta.apply (.var y)) with
    | some x => some (x, y)
    | none => sharedImage? theta (earlier ++ [y]) ys

/-- a term of the unified atom in the variables `vars` of one side -/
def toOwn (theta : Substitution) (vars : List LogVar) : Term → Option Term
  | .const c => some (.const c)
  | .var z => (vars.find? (fun x => theta.apply (.var x) = .var z)).map Term.var

/-- a constraint of the other side in the variables `vars` of this side -/
def toOwnConstraint (theta : Substitution) (vars : List LogVar) (c : Constraint) :
    Option Constraint :=
  match toOwn theta vars (theta.apply (.var c.first)), toOwn theta vars (theta.apply c.second) with
  | some s, some t => Constraint.between s t
  | _, _ => none

/-- the first refinement that `own` needs to lie inside `other`: a variable that the other side has
as a constant only, two variables that it has as equal only, or one of its inequalities -/
def refinement? (own other : Extent) (theta : Substitution) : Option Refinement :=
  let vars := own.atom.variables
  match constantImage? theta vars with
  | some (x, c) => some (own.refineOn x (.const c))
  | none =>
    match sharedImage? theta [] vars with
    | some (x, y) => some (own.refineOn x (.var y))
    | none =>
      let missing := other.constraints.toList.findSome? fun c =>
        (toOwnConstraint theta vars c).filter (fun k => !own.entails k)
      missing.map fun k => own.refineOn k.first k.second

/-- how two extents lie to each other; a side without a refinement lies inside the other -/
inductive Relation where
  | disjoint
  | overlapping (left right : Option Refinement)
deriving DecidableEq

namespace Relation

def isDisjoint : Relation → Bool
  | disjoint => true
  | overlapping _ _ => false

def isIdentical : Relation → Bool
  | overlapping none none => true
  | _ => false

end Relation

def compare (a b : Extent) : Relation :=
  match a.overlap? b with
  | none => .disjoint
  | some o =>
    .overlapping (a.refinement? o.right o.theta)
      ((o.right.refinement? a o.theta).map (Refinement.apply o.back))

/-- every instance of `a` is one of `b` -/
def isWithin (a b : Extent) : Bool :=
  match a.compare b with
  | .overlapping none _ => true
  | _ => false

/-! ## renaming -/

/-- the bindings that carry the variables `ys` of `o.right`, under their names of before, to the
variables of `a` with the same images; `none` if a variable has no partner, or only one of the two
is counted -/
def renameFrom (a : Extent) (o : Overlap) : List LogVar → Substitution → Option Substitution
  | [], rho => some rho
  | y :: ys, rho =>
    match a.atom.variables.find? (fun x => o.theta.apply (.var x) = o.theta.apply (.var y)) with
    | none => none
    | some x =>
      if (o.right.counted == some y) != (a.counted == some x) then none
      else if o.right.counted = some y then a.renameFrom o ys rho
      else
        match (o.back.apply (.var y)).var? with
        | none => none
        | some z =>
          if z = x then a.renameFrom o ys rho
          else
            match rho.bind ⟨z, .var x⟩ with
            | .error _ => none
            | .ok rho => a.renameFrom o ys rho

/-- the renaming of the free variables of `b` to those of `a`, if the extents are identical -/
def renaming? (a b : Extent) : Option Substitution :=
  if (a.compare b).isIdentical then
    match a.overlap? b with
    | none => none
    | some o => a.renameFrom o o.right.atom.variables .identity
  else none

end Extent

end LiftedElimination
