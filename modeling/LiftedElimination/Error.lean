import LiftedElimination.Term
import LiftedElimination.Cost

/-!
# What can go wrong

`Error` lists the causes, `Error.message` words them.  The causes from `notCountable` to
`notPresent` mean that an operation was applied where it does not apply.  The last four are faults
of a malformed table or of a bound, and no guard asks for them:

* `tableBounds`   a table was read outside its entries;
* `overflow`      a table index or a table size has more than 64 bits;
* `shape`         an assignment has more digits than the shape of its table;
* `unsettled`     a rewriting loop did not come to rest within its bound.
-/

namespace LiftedElimination

inductive Error where
  | duplicateBinding (x : LogVar)
  | overlappingDomains (x : LogVar)
  | notCountable (x : LogVar)
  | notExpandable (formula individual : String)
  | notSplittable (binding : String)
  | notMultipliable (operands : String)
  | notEliminable (what : String)
  | notPresent (what : String)
  | factorSize (expected actual : Nat)
  | invalidParfactor (reason : String)
  | invalidAggregation (reason : String)
  | stalled
  | stepLimit (limit : Nat)
  | factorTooLarge (cost limit : Cost)
  | tableBounds
  | overflow
  | shape
  | unsettled
deriving DecidableEq, Inhabited

namespace Error

def message : Error → String
  | duplicateBinding x =>
    "logical variable " ++ x.text ++ " is already bound in this substitution"
  | overlappingDomains x => "cannot compose substitutions: both bind " ++ x.text
  | notCountable x => "logical variable " ++ x.text ++ " is not countable in this parfactor"
  | notExpandable formula individual =>
    "counting formula " ++ formula ++ " cannot be expanded on " ++ individual
  | notSplittable binding => "parfactor cannot be split on " ++ binding
  | notMultipliable operands => "parfactors are not multipliable: " ++ operands
  | notEliminable what => what ++ " cannot be summed out of this parfactor"
  | notPresent what => what ++ " does not occur in this parfactor"
  | factorSize expected actual =>
    "factor has " ++ Nat.repr actual ++ " entries, expected " ++ Nat.repr expected
  | invalidParfactor reason => "invalid parfactor: " ++ reason
  | invalidAggregation reason => "invalid aggregation parfactor: " ++ reason
  | stalled => "no macro-operation applies but non-preservable random variables remain"
  | stepLimit limit =>
    "step limit of " ++ Nat.repr limit ++ " reached before elimination finished"
  | factorTooLarge cost limit =>
    "cheapest operation costs " ++ cost.text ++ ", above the limit of " ++ limit.text
  | tableBounds => "table read outside its entries"
  | overflow => "table size or index exceeds 64 bits"
  | shape => "assignment longer than the shape of its table"
  | unsettled => "no settled form within the bound"

/-- a fault of a malformed table, of word arithmetic or of a bound, as against a refused request -/
def isFault : Error → Bool
  | tableBounds | overflow | shape | unsettled => true
  | _ => false

end Error

/-- the results of `f` on the elements of `l` in order, or the first error -/
def collect {α β : Type} (f : α → Except Error β) : List α → Except Error (List β)
  | [] => .ok []
  | a :: l =>
    match f a with
    | .error e => .error e
    | .ok b =>
      match collect f l with
      | .error e => .error e
      | .ok bs => .ok (b :: bs)

/-- apply `step` until it finds nothing more to do, at most `bound` times -/
def settle {α : Type} (step : α → Except Error (Option α)) (bound : Nat) (a : α) :
    Except Error α :=
  match step a with
  | .error e => .error e
  | .ok none => .ok a
  | .ok (some b) =>
    match bound with
    | 0 => .error .unsettled
    | n + 1 => settle step n b

/-- what holds at the start and is kept by every step holds at the end, where no step is left -/
theorem settle_ok {α : Type} {step : α → Except Error (Option α)} {p : α → Prop}
    (hstep : ∀ a b, p a → step a = .ok (some b) → p b) {bound : Nat} {a b : α} (ha : p a)
    (h : settle step bound a = .ok b) : p b ∧ step b = .ok none := by
  induction bound generalizing a with
  | zero =>
    unfold settle at h
    split at h
    · cases h
    · rename_i hs
      cases h
      exact ⟨ha, hs⟩
    · cases h
  | succ n ih =>
    unfold settle at h
    split at h
    · cases h
    · rename_i hs
      cases h
      exact ⟨ha, hs⟩
    · rename_i c hs
      exact ih (hstep _ _ ha hs) h

end LiftedElimination
