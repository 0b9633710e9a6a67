import LiftedElimination.Parfactor.Basic

/-!
# Normal form

* `normalize`     variables with one individual left become constants, counting formulas over at
                  most one individual are dropped or grounded, repeated random variables are merged
                  on the diagonal; `none` if no grounding satisfies the constraints;
* `violation?`    a split towards the normal form of the constraints: the variables of every
                  `X ≠ Y` exclude the same constants.
-/

namespace LiftedElimination

namespace ConstraintSet

/-- the first of `vars` with a single individual left, bound to it -/
def singleton? (cs : ConstraintSet) (vars : List LogVar) : Option Binding :=
  vars.findSome? fun x =>
    match (x.domain cs).individuals with
    | [c] => some ⟨x, .const c⟩
    | _ => none

end ConstraintSet

/-- one round of grounding: a potential without groundings is gone, and a variable with a single
individual left becomes that constant -/
def groundRound {P : Type} (vars : P → List LogVar) (cs : P → ConstraintSet)
    (apply : P → Substitution → Option P) : Option P → Option (Option P)
  | none => none
  | some p =>
    if (cs p).satisfiable (vars p) then
      ((cs p).singleton? (vars p)).map fun b => apply p (.single b)
    else some none

/-- all variables with a single individual grounded; `none` if there is no grounding -/
def groundSingletons {P : Type} (vars : P → List LogVar) (cs : P → ConstraintSet)
    (apply : P → Substitution → Option P) (p : P) : Except Error (Option P) :=
  settle (fun p => .ok (groundRound vars cs apply p)) ((vars p).length + 1) (some p)

namespace Parfactor

variable {K : Type}

/-- the random variable at place `i` fixed to its value `v` and removed -/
def dropPrv (p : Parfactor K) (i v : Nat) : Except Error (Parfactor K) :=
  let sizes := p.sizes
  rebuild p.constraints (p.prvs.eraseIdx i) fun digits =>
    p.factor.entry sizes (digits.insertIdx i v)

/-- the atom of a counting formula over exactly one individual -/
def soleAtom? (f : CountingFormula) : Option Atom :=
  if f.excludedVars.isEmpty then (f.individuals.get? 0).map fun c => f.instantiate (.const c)
  else none

/-- the first counting formula over nobody, to be dropped, or over one individual, to be replaced
by the atom -/
def trivialFormula? (p : Parfactor K) : Option (Nat × Option Atom) :=
  p.prvs.zipIdx.findSome? fun q =>
    match q.1 with
    | .atom _ => none
    | .count f =>
      match f.domainSize with
      | 0 => some (q.2, none)
      | 1 => (soleAtom? f).map fun a => (q.2, some a)
      | _ => none

def simplifyRound (p : Parfactor K) : Except Error (Option (Parfactor K)) :=
  match p.trivialFormula? with
  | none => .ok none
  | some (i, none) => (p.dropPrv i 0).map some
  | some (i, some a) => .ok (some (p.replacePrv i (.atom a)))

/-- counting formulas over nobody dropped, those over one individual grounded -/
def simplifyCounting (p : Parfactor K) : Except Error (Parfactor K) :=
  settle simplifyRound p.prvs.length p

/-- the places of the first random variable that repeats an earlier one, the earlier in front -/
def repeated? : List Prv → List Prv → Option (Nat × Nat)
  | _, [] => none
  | earlier, q :: qs =>
    match earlier.idxOf? q with
    | some i => some (i, earlier.length)
    | none => repeated? (earlier ++ [q]) qs

def mergeRound (p : Parfactor K) : Except Error (Option (Parfactor K)) :=
  match repeated? [] p.prvs with
  | none => .ok none
  | some (i, j) =>
    let sizes := p.sizes
    (rebuild p.constraints (p.prvs.eraseIdx j) fun digits =>
      p.factor.entry sizes (digits.insertIdx j (digits.getD i 0))).map some

/-- repeated random variables merged on the diagonal of the table -/
def mergeRepeated (p : Parfactor K) : Except Error (Parfactor K) :=
  settle mergeRound p.prvs.length p

def normalize (p : Parfactor K) : Except Error (Option (Parfactor K)) := do
  match ← groundSingletons logVars constraints apply p with
  | none => return none
  | some p =>
    let p ← p.simplifyCounting
    let p ← p.mergeRepeated
    return some p

/-- a split that lets both variables of some `X ≠ Y` exclude the same constants -/
def violation? (p : Parfactor K) : Option Binding :=
  p.constraints.toList.findSome? fun c =>
    match c.second with
    | .const _ => none
    | .var y =>
      let x := c.first
      if x.population = y.population then
        let dx := x.domain p.constraints
        let dy := y.domain p.constraints
        match dx.outsider? dy with
        | some k => some ⟨x, .const k⟩
        | none => (dy.outsider? dx).map fun k => ⟨y, .const k⟩
      else none

end Parfactor

end LiftedElimination
