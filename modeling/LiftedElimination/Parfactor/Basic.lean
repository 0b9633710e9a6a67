import LiftedElimination.Extent
import LiftedElimination.Factor

/-!
# Parfactors

A parfactor `⟨C, V, F⟩` stands for one ground factor for every grounding of its logical variables
that satisfies the constraints `C`: the entry of the table `F` selected by the values of the ground
instances of the random variables `V`.

* `Parfactor`     the constraints, the parameterized random variables and the table;
* `make`          checks the table's size, the constraints and the bound variables;
* `logVars`       the free variables of `V`, then those that only constraints mention;
* `apply`         substitution, `none` if it violates a constraint;
* `rebuild`       a new table, entry by entry, for other random variables.
-/

namespace LiftedElimination

/-- a potential for every grounding of its logical variables -/
structure Parfactor (K : Type) where
  constraints : ConstraintSet
  prvs : List Prv
  factor : Factor K

namespace Parfactor

variable {K : Type}

/-- the free variables of the random variables, each once -/
def varsOf (prvs : List Prv) : List LogVar := addVars [] (prvs.flatMap Prv.freeVars)

theorem mem_varsOf {prvs : List Prv} {x : LogVar} :
    x ∈ varsOf prvs ↔ ∃ p ∈ prvs, x ∈ p.freeVars := by
  rw [varsOf, mem_addVars, List.mem_flatMap]
  simp

def prvVars (p : Parfactor K) : List LogVar := varsOf p.prvs

/-- the free variables of the random variables, then those of the constraints alone -/
def logVars (p : Parfactor K) : List LogVar := addVars p.prvVars p.constraints.variables

theorem nodup_logVars (p : Parfactor K) : p.logVars.Nodup :=
  nodup_addVars (nodup_addVars List.nodup_nil)

def sizes (p : Parfactor K) : List Nat := p.prvs.map Prv.rangeSize

/-- no random variables are left -/
def isConstant (p : Parfactor K) : Bool := p.prvs.isEmpty

def position? (p : Parfactor K) (q : Prv) : Option Nat := p.prvs.idxOf? q

def occurrences (p : Parfactor K) (q : Prv) : Nat := p.prvs.count q

def contains (p : Parfactor K) (q : Prv) : Bool := decide (q ∈ p.prvs)

def groundings (p : Parfactor K) : List Substitution := p.constraints.groundings p.logVars

def groundingCount (p : Parfactor K) : Cost := p.constraints.countGroundings p.logVars

/-- the sets of ground random variables, one for every occurrence -/
def prvSets (p : Parfactor K) : List PrvSet := p.prvs.map fun q => .of q p.constraints

/-- the instance under `s`; `none` if it is empty because a constraint is violated -/
def apply (p : Parfactor K) (s : Substitution) : Option (Parfactor K) :=
  (p.constraints.apply s).map fun cs => ⟨cs, p.prvs.map (·.apply s), p.factor⟩

/-- another random variable at place `i`, over the same table -/
def replacePrv (p : Parfactor K) (i : Nat) (q : Prv) : Parfactor K :=
  { p with prvs := p.prvs.set i q }

/-- the parfactor over `prvs` with the entry `f a` for the values `a` -/
def rebuild (cs : ConstraintSet) (prvs : List Prv) (f : List Nat → Except Error K) :
    Except Error (Parfactor K) := do
  let factor ← Factor.ofFn (prvs.map Prv.rangeSize) f
  return ⟨cs, prvs, factor⟩

/-! ## order and text -/

variable [Scalar K]

instance : Ord (Parfactor K) :=
  ⟨compareLex (compareOn Parfactor.constraints)
    (compareLex (compareOn Parfactor.prvs) (compareOn Parfactor.factor))⟩

instance : Std.TransOrd (Parfactor K) :=
  inferInstanceAs (Std.TransCmp (compareLex (compareOn Parfactor.constraints)
    (compareLex (compareOn Parfactor.prvs) (compareOn Parfactor.factor))))

def text (p : Parfactor K) : String :=
  "<" ++ p.constraints.text ++ ", [" ++ ", ".intercalate (p.prvs.map Prv.text) ++ "], ["
    ++ ", ".intercalate (p.factor.toList.map Scalar.text) ++ "]>"

/-! ## validation -/

/-- the number of entries that a table for `prvs` has, refused if it has more than 64 bits -/
def expectedSize (prvs : List Prv) : Except Error Nat :=
  match Index.volumeFrom? (prvs.map Prv.rangeSize) 1 with
  | .error _ => .error (.invalidParfactor "factor size overflows")
  | .ok n => .ok n

/-- `x` is free in some random variable, or a constraint mentions it -/
def occursFree (cs : ConstraintSet) (prvs : List Prv) (x : LogVar) : Bool :=
  prvs.any (·.mentions x) || cs.toList.any (·.mentions x)

/-- the parfactor, after its table, constraints and bound variables have been checked; without a
table all entries are one -/
def make (cs : ConstraintSet) (prvs : List Prv) (factor : Option (Factor K)) :
    Except Error (Parfactor K) := do
  let expected ← expectedSize prvs
  let factor ← match factor with
    | none => Factor.ones expected
    | some t => .ok t
  factor.checkSize expected
  if let some c := cs.toList.find? Constraint.isContradiction then
    .error (.invalidParfactor ("constraint " ++ c.text ++ " is never satisfied"))
  if let some f := (prvs.filterMap Prv.count?).find? (fun f => occursFree cs prvs f.bound) then
    .error (.invalidParfactor
      ("bound variable " ++ f.bound.text ++ " of " ++ f.text ++ " also occurs free"))
  return ⟨cs, prvs, factor⟩

end Parfactor

end LiftedElimination
