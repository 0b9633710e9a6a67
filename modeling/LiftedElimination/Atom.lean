import LiftedElimination.Constraint

/-!
# Atoms

* `Range`   the ordered values of a random variable;
* `Atom`    `f(t1, .., tn)` over a range, standing for the random variables of all its ground
            instances.
-/

namespace LiftedElimination

/-- the ordered values a random variable can take -/
structure Range where
  values : List String
deriving DecidableEq, Inhabited

namespace Range

instance : Ord Range := ⟨compareOn Range.values⟩

instance : Std.TransOrd Range := inferInstanceAs (Std.TransCmp (compareOn Range.values))

instance : Std.LawfulEqOrd Range where
  compare_self {a} := (Std.ReflCmp.compare_self : compare a.values a.values = .eq)
  eq_of_compare {a b} h := by
    cases a; cases b
    exact congrArg _ (Std.LawfulEqOrd.eq_of_compare (α := List String) h)

def boolean : Range := ⟨["false", "true"]⟩

def size (r : Range) : Nat := r.values.length

/-- the place of the first occurrence of `v` -/
def indexOf? (r : Range) (v : String) : Option Nat := r.values.idxOf? v

end Range

/-- a functor applied to terms, with the range of its ground instances -/
structure Atom where
  functor : String
  terms : List Term
  range : Range
deriving DecidableEq, Inhabited

/-- the distinct variables in the order of the arguments -/
def Atom.variables (a : Atom) : List LogVar := addVars [] (a.terms.filterMap Term.var?)

namespace Atom

instance : Ord Atom :=
  ⟨compareLex (compareOn Atom.functor) (compareLex (compareOn Atom.terms) (compareOn Atom.range))⟩

instance : Std.TransOrd Atom :=
  inferInstanceAs (Std.TransCmp (compareLex (compareOn Atom.functor)
    (compareLex (compareOn Atom.terms) (compareOn Atom.range))))

instance : Std.LawfulEqOrd Atom where
  compare_self {a} := compareLex_eq_eq.mpr
    ⟨(Std.ReflCmp.compare_self : compare a.functor a.functor = .eq), compareLex_eq_eq.mpr
      ⟨(Std.ReflCmp.compare_self : compare a.terms a.terms = .eq),
        (Std.ReflCmp.compare_self : compare a.range a.range = .eq)⟩⟩
  eq_of_compare {a b} h := by
    obtain ⟨hf, h⟩ := compareLex_eq_eq.mp h
    obtain ⟨ht, hr⟩ := compareLex_eq_eq.mp h
    cases a; cases b
    obtain rfl := Std.LawfulEqOrd.eq_of_compare (α := String) hf
    obtain rfl := Std.LawfulEqOrd.eq_of_compare (α := List Term) ht
    obtain rfl := Std.LawfulEqOrd.eq_of_compare (α := Range) hr
    rfl

def arity (a : Atom) : Nat := a.terms.length

theorem mem_variables {a : Atom} {x : LogVar} : x ∈ a.variables ↔ .var x ∈ a.terms := by
  rw [Atom.variables, mem_addVars, List.mem_filterMap]
  simp

theorem nodup_variables (a : Atom) : a.variables.Nodup := nodup_addVars List.nodup_nil

def isGround (a : Atom) : Bool := a.terms.all Term.isConst

def apply (a : Atom) (s : Substitution) : Atom := { a with terms := a.terms.map s.apply }

@[simp] theorem apply_range (a : Atom) (s : Substitution) : (a.apply s).range = a.range := rfl

@[simp] theorem apply_functor (a : Atom) (s : Substitution) :
    (a.apply s).functor = a.functor := rfl

def text (a : Atom) : String :=
  if a.terms.isEmpty then a.functor
  else a.functor ++ "(" ++ ", ".intercalate (a.terms.map Term.text) ++ ")"

end Atom

end LiftedElimination
