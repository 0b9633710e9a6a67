import LiftedElimination.Substitution

/-!
# Inequality constraints

* `Constraint`      `X ≠ t`, with `t` a constant or another logical variable;
* `ordered`, `between`   the canonical way to write an inequality: variable first, of two
                    variables the smaller first;
* `ConstraintSet`   a sorted set of constraints;
* `ConstraintSet.apply`   the constraints under a substitution, `none` if one is violated;
* `LogVar.domain`   the individuals of a variable that no constraint `X ≠ c` excludes.
-/

namespace LiftedElimination

/-- the inequality `first ≠ second` -/
structure Constraint where
  first : LogVar
  second : Term
deriving DecidableEq, Inhabited

def Constraint.variables (c : Constraint) : List LogVar := c.first :: c.second.var?.toList

namespace Constraint

instance : Ord Constraint :=
  ⟨compareLex (compareOn Constraint.first) (compareOn Constraint.second)⟩

instance : Std.TransOrd Constraint :=
  inferInstanceAs
    (Std.TransCmp (compareLex (compareOn Constraint.first) (compareOn Constraint.second)))

instance : Std.LawfulEqOrd Constraint where
  compare_self {a} := compareLex_eq_eq.mpr
    ⟨(Std.ReflCmp.compare_self : compare a.first a.first = .eq),
      (Std.ReflCmp.compare_self : compare a.second a.second = .eq)⟩
  eq_of_compare {a b} h := by
    obtain ⟨hf, hs⟩ := compareLex_eq_eq.mp h
    cases a; cases b
    obtain rfl := Std.LawfulEqOrd.eq_of_compare (α := LogVar) hf
    obtain rfl := Std.LawfulEqOrd.eq_of_compare (α := Term) hs
    rfl

/-- `x ≠ t`, written with the smaller variable first -/
def ordered (x : LogVar) : Term → Constraint
  | .var y => if compare y x = .lt then ⟨y, .var x⟩ else ⟨x, .var y⟩
  | .const c => ⟨x, .const c⟩

/-- `s ≠ t` with a variable first; nothing for two constants -/
def between : Term → Term → Option Constraint
  | .var x, t => some (ordered x t)
  | .const c, .var x => some (ordered x (.const c))
  | .const _, .const _ => none

/-- `X/t` read as `X ≠ t` -/
def ofBinding (b : Binding) : Constraint := ordered b.source b.target

def contains (c : Constraint) (t : Term) : Bool := t == .var c.first || t == c.second

def mentions (c : Constraint) (x : LogVar) : Bool := c.first == x || c.second == .var x

/-- the constant `d` of `x ≠ d` -/
def excluded? (c : Constraint) (x : LogVar) : Option Constant :=
  if c.first = x then c.second.const? else none

/-- what `x` differs from by this constraint -/
def other? (c : Constraint) (x : LogVar) : Option Term :=
  if c.first = x then some c.second
  else if c.second = .var x then some (.var c.first) else none

/-- the variable that `x` differs from by this constraint -/
def otherVar? (c : Constraint) (x : LogVar) : Option LogVar := (c.other? x).bind Term.var?

/-- `X ≠ X` never holds -/
def isContradiction (c : Constraint) : Bool := c.second == .var c.first

/-- both sides replaced; nothing if they become constants -/
def apply (c : Constraint) (s : Substitution) : Option Constraint :=
  between (s.apply (.var c.first)) (s.apply c.second)

/-- both sides become the same term -/
def isViolatedBy (c : Constraint) (s : Substitution) : Bool :=
  s.apply (.var c.first) == s.apply c.second

def text (c : Constraint) : String := c.first.text ++ "≠" ++ c.second.text

end Constraint

/-! ## sets of constraints -/

abbrev ConstraintSet := SortedSet Constraint

def ConstraintSet.variables (cs : ConstraintSet) : List LogVar := cs.toList.flatMap Constraint.variables

namespace ConstraintSet

/-- every constraint under `s`, without those that become trivially true; `none` if one is
violated -/
def apply (cs : ConstraintSet) (s : Substitution) : Option ConstraintSet :=
  if cs.toList.any (·.isViolatedBy s) then none else some (cs.filterMap (·.apply s))

/-- the constraints all of whose variables are listed -/
def restrictTo (cs : ConstraintSet) (vars : List LogVar) : ConstraintSet :=
  cs.filter (fun c => c.variables.all (· ∈ vars))

/-- the constraints that mention `x` -/
def onVariable (cs : ConstraintSet) (x : LogVar) : ConstraintSet := cs.filter (·.mentions x)

/-- the constraints that do not mention `x` -/
def notOnVariable (cs : ConstraintSet) (x : LogVar) : ConstraintSet :=
  cs.filter (fun c => !c.mentions x)

/-- the constraint that separates two variables, or a variable from a constant, is there -/
def separates (cs : ConstraintSet) (x : LogVar) (t : Term) : Bool :=
  cs.contains (Constraint.ordered x t)

def text (cs : ConstraintSet) : String :=
  "\x7b" ++ ", ".intercalate (cs.toList.map Constraint.text) ++ "\x7d"

theorem mem_restrictTo {cs : ConstraintSet} {vars : List LogVar} {c : Constraint} :
    c ∈ cs.restrictTo vars ↔ c ∈ cs ∧ ∀ x ∈ c.variables, x ∈ vars := by
  rw [restrictTo, SortedSet.mem_filter, List.all_eq_true]
  simp only [decide_eq_true_eq]

theorem mem_of_apply {cs ds : ConstraintSet} {s : Substitution} (h : cs.apply s = some ds)
    {d : Constraint} : d ∈ ds ↔ ∃ c ∈ cs, c.apply s = some d := by
  unfold apply at h
  split at h
  · cases h
  · cases h
    exact SortedSet.mem_filterMap

theorem apply_eq_none {cs : ConstraintSet} {s : Substitution} :
    cs.apply s = none ↔ ∃ c ∈ cs, c.isViolatedBy s = true := by
  unfold apply
  split
  · rename_i h
    exact iff_of_true rfl (List.any_eq_true.mp h)
  · rename_i h
    refine iff_of_false nofun fun hc => h (List.any_eq_true.mpr hc)

end ConstraintSet

/-! ## domains -/

namespace LogVar

/-- the individuals of `x` that no constraint `x ≠ c` of `cs` excludes; inequalities between
variables exclude nobody -/
def domain (x : LogVar) (cs : ConstraintSet) : Population :=
  let excluded := cs.toList.filterMap (·.excluded? x)
  .ofList (x.population.individuals.filter (· ∉ excluded))

theorem mem_domain {x : LogVar} {cs : ConstraintSet} {c : Constant} :
    c ∈ x.domain cs ↔ c ∈ x.population ∧ ∀ k ∈ cs, k.excluded? x ≠ some c := by
  unfold domain
  rw [Population.mem_ofList, List.mem_filter]
  simp only [decide_eq_true_eq, List.mem_filterMap, not_exists, not_and]
  rfl

end LogVar

end LiftedElimination
