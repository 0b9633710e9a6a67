import LiftedElimination.Operation
import LiftedElimination.Decimal.Text

/-!
# Reports

* `Report`            the counters of an elimination, words of 64 bits whose sums wrap around;
* `recordStep`, `recordRejected`   the counters after a step, and after candidates were rejected;
* `liftedRate`, `eliminatedPerSumOut`   the two rates of the report;
* `text`              the report as lines of text.
-/

namespace LiftedElimination

/-- the counters of an elimination -/
structure Report where
  steps : UInt64
  conversions : UInt64
  shatters : UInt64
  countingConverts : UInt64
  globalSumOuts : UInt64
  fullExpands : UInt64
  propositionalizations : UInt64
  eliminated : UInt64
  rejected : UInt64
  maxFactorSize : UInt64
deriving DecidableEq, Inhabited

namespace Report

def zero : Report := ⟨0, 0, 0, 0, 0, 0, 0, 0, 0, 0⟩

/-- how often an operation of this kind ran -/
def operations (r : Report) : OperationKind → UInt64
  | .convertAggregation => r.conversions
  | .shatter => r.shatters
  | .countingConvert => r.countingConverts
  | .globalSumOut => r.globalSumOuts
  | .fullExpand => r.fullExpands
  | .propositionalize => r.propositionalizations

def recordOperation (r : Report) : OperationKind → Report
  | .convertAggregation => { r with conversions := r.conversions + 1 }
  | .shatter => { r with shatters := r.shatters + 1 }
  | .countingConvert => { r with countingConverts := r.countingConverts + 1 }
  | .globalSumOut => { r with globalSumOuts := r.globalSumOuts + 1 }
  | .fullExpand => { r with fullExpands := r.fullExpands + 1 }
  | .propositionalize => { r with propositionalizations := r.propositionalizations + 1 }

/-- one more step, with its operation, the random variables it removed and its cost -/
def recordStep (r : Report) (kind : OperationKind) (eliminated cost : Cost) : Report :=
  let r := r.recordOperation kind
  { r with
    steps := r.steps + 1
    eliminated := r.eliminated + eliminated.toCounter
    maxFactorSize := if r.maxFactorSize < cost.toCounter then cost.toCounter else r.maxFactorSize }

def recordRejected (r : Report) (n : Nat) : Report :=
  { r with rejected := r.rejected + UInt64.ofNat n }

/-- the share of steps that did not ground a variable; one if there was no step -/
def liftedRate (r : Report) : Float :=
  if r.steps = 0 then 1 else 1 - r.propositionalizations.toFloat / r.steps.toFloat

/-- the random variables removed by one sum-out on average -/
def eliminatedPerSumOut (r : Report) : Float :=
  if r.globalSumOuts = 0 then 0 else r.eliminated.toFloat / r.globalSumOuts.toFloat

/-! ## text -/

def count (n : UInt64) : String := Nat.repr n.toNat

/-- `s` with blanks behind it up to the given width -/
def column (s : String) (width : Nat) : String :=
  s ++ String.ofList (List.replicate (width - s.length) ' ')

def operationLine (r : Report) (kind : OperationKind) : String :=
  "  " ++ column kind.text 20 ++ count (r.operations kind)

def lines (r : Report) : List String :=
  ["=== Elimination Metrics ===", "Steps:              " ++ count r.steps]
    ++ OperationKind.all.map r.operationLine
    ++ ["Eliminated:         " ++ count r.eliminated ++ " ("
          ++ Decimal.fixed 1 r.eliminatedPerSumOut ++ " per sum-out)",
        "Lifted steps:       " ++ Decimal.fixed 1 (r.liftedRate * 100) ++ "%",
        "Rejected:           " ++ count r.rejected,
        "Max factor size:    " ++ count r.maxFactorSize]

def text (r : Report) : String := String.join (r.lines.map (· ++ "\n"))

end Report

end LiftedElimination
