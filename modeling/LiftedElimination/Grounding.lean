import LiftedElimination.Constraint

/-!
# Groundings

A grounding of a list of variables gives each an individual of its domain such that no two
variables that a constraint separates get the same one.

* `Slot`           a variable to be grounded, with its domain and the variables it differs from;
* `Slot.choices`   the individuals open to it, given those chosen before;
* `groundings`     all groundings, depth first in the order of the variables;
* `firstGrounding`, `satisfiable`   the search that stops at the first one;
* `countGroundings`   their number, by a product where each variable meets its earlier neighbours
                   as a clique inside its own domain, by the search otherwise.

Main statements: `firstFrom_eq_head?` and `countFrom_eq_length` tie the three searches together.
-/

namespace LiftedElimination

/-- variables with the individuals chosen for them, in the order of choice -/
abbrev Choices := List (LogVar × Constant)

namespace Choices

/-- the individual chosen first for `x` -/
def get? (chosen : Choices) (x : LogVar) : Option Constant :=
  (chosen.find? (·.1 = x)).map Prod.snd

/-- the substitution of the choices; of two choices for a variable the first stays -/
def toSubstitution (chosen : Choices) : Substitution :=
  chosen.foldl (fun s p => s.bindNew ⟨p.1, .const p.2⟩) .identity

end Choices

/-- a variable to be grounded, with its domain and the variables that it differs from -/
structure Slot where
  var : LogVar
  domain : List Constant
  rivals : List LogVar

namespace Slot

/-- the individuals that are taken: those of the earlier variables that this one differs from -/
def taken (s : Slot) (chosen : Choices) : List Constant := s.rivals.filterMap chosen.get?

/-- the individuals open to the variable -/
def choices (s : Slot) (chosen : Choices) : List Constant :=
  match s.taken chosen with
  | [] => s.domain
  | taken => s.domain.filter (· ∉ taken)

theorem choices_eq (s : Slot) (chosen : Choices) :
    s.choices chosen = s.domain.filter (· ∉ s.taken chosen) := by
  unfold choices
  split
  · rename_i h
    rw [h]
    exact (List.filter_eq_self.mpr fun c _ => by simp).symm
  · rfl

/-- all ways to complete `chosen` on the variables -/
def completions : List Slot → Choices → List Choices
  | [], chosen => [chosen]
  | s :: ss, chosen =>
    (s.choices chosen).flatMap fun c => completions ss (chosen ++ [(s.var, c)])

/-- the first way to complete `chosen` on the variables -/
def firstFrom : List Slot → Choices → Option Choices
  | [], chosen => some chosen
  | s :: ss, chosen => (s.choices chosen).findSome? fun c => firstFrom ss (chosen ++ [(s.var, c)])

/-- the number of ways to complete `chosen` on the variables -/
def countFrom : List Slot → Choices → Nat
  | [], _ => 1
  | [s], chosen => (s.choices chosen).length
  | s :: ss, chosen =>
    (s.choices chosen).foldl (fun n c => n + countFrom ss (chosen ++ [(s.var, c)])) 0

theorem firstFrom_eq_head? (ss : List Slot) (chosen : Choices) :
    firstFrom ss chosen = (completions ss chosen).head? := by
  induction ss generalizing chosen with
  | nil => rfl
  | cons s ss ih =>
    unfold firstFrom completions
    induction s.choices chosen with
    | nil => rfl
    | cons c l ihl =>
      rw [List.findSome?_cons, List.flatMap_cons, List.head?_append, ← ih]
      split
      · rename_i h
        rw [h]
        rfl
      · rename_i h
        rw [h, Option.none_or, ihl]

theorem countFrom_eq_length (ss : List Slot) (chosen : Choices) :
    countFrom ss chosen = (completions ss chosen).length := by
  fun_induction countFrom ss chosen with
  | case1 => rfl
  | case2 s chosen =>
    unfold completions
    simp [completions, List.length_flatMap, List.map_const']
  | case3 s ss chosen _ ih =>
    unfold completions
    suffices h : ∀ (l : List Constant) (n : Nat),
        l.foldl (fun n c => n + countFrom ss (chosen ++ [(s.var, c)])) n
          = n + (l.flatMap fun c => completions ss (chosen ++ [(s.var, c)])).length by
      rw [h, Nat.zero_add]
    intro l
    induction l with
    | nil => exact fun n => rfl
    | cons c l ihl =>
      intro n
      rw [List.foldl_cons, ihl, ih, List.flatMap_cons, List.length_append, Nat.add_assoc]

end Slot

namespace ConstraintSet

/-- `x` with what the constraints say about it -/
def slot (cs : ConstraintSet) (x : LogVar) : Slot :=
  ⟨x, (x.domain cs).individuals, cs.toList.filterMap (·.otherVar? x)⟩

def slots (cs : ConstraintSet) (vars : List LogVar) : List Slot := vars.map cs.slot

/-! ## the public functions -/

/-- every grounding of `vars`; constraints on other variables are ignored -/
def groundings (cs : ConstraintSet) (vars : List LogVar) : List Substitution :=
  (Slot.completions (cs.slots vars) []).map Choices.toSubstitution

def firstGrounding (cs : ConstraintSet) (vars : List LogVar) : Option Substitution :=
  (Slot.firstFrom (cs.slots vars) []).map Choices.toSubstitution

def satisfiable (cs : ConstraintSet) (vars : List LogVar) : Bool :=
  (Slot.firstFrom (cs.slots vars) []).isSome

theorem firstGrounding_eq_head? (cs : ConstraintSet) (vars : List LogVar) :
    cs.firstGrounding vars = (cs.groundings vars).head? := by
  rw [firstGrounding, Slot.firstFrom_eq_head?, groundings, List.head?_map]

theorem satisfiable_iff (cs : ConstraintSet) (vars : List LogVar) :
    cs.satisfiable vars = true ↔ cs.groundings vars ≠ [] := by
  rw [satisfiable, Slot.firstFrom_eq_head?, groundings]
  cases Slot.completions (cs.slots vars) [] <;> simp

/-! ## counting -/

/-- the neighbours `ys` of `x` differ pairwise and draw from the domain of `x` -/
def isClique (cs : ConstraintSet) (x : LogVar) (ys : List LogVar) : Bool :=
  let own := x.domain cs
  ys.all (fun y => (y.domain cs).isWithin own) &&
    decide (ys.Pairwise (fun y z => cs.separates y (.var z) = true))

/-- the product of what each variable has left after its earlier neighbours; `none` once these are
not a clique -/
def productFrom (cs : ConstraintSet) : List LogVar → List LogVar → Cost → Option Cost
  | [], _, acc => some acc
  | x :: xs, earlier, acc =>
    let neighbours := earlier.filter (fun y => cs.separates x (.var y))
    if cs.isClique x neighbours then
      cs.productFrom xs (earlier ++ [x])
        (acc.mul (.finite ((x.domain cs).size - neighbours.length)))
    else none

/-- the number of groundings of `vars` -/
def countGroundings (cs : ConstraintSet) (vars : List LogVar) : Cost :=
  match cs.productFrom vars [] .one with
  | some n => n
  | none => .finite (min (Slot.countFrom (cs.slots vars) []) Cost.limit)

end ConstraintSet

end LiftedElimination
