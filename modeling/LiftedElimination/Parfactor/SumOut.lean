import LiftedElimination.Parfactor.Basic

/-!
# Summing out

A random variable that occurs once is summed out of the table, a counting formula with the
multinomial coefficient of each histogram as its weight.  Logical variables that only constraints
mention raise the entries to their number of groundings first; variables that vanish with the
random variable raise the sum to theirs.
-/

namespace LiftedElimination

namespace Parfactor

variable {K : Type} [Scalar K]

/-- the weight of each value of a random variable in a sum -/
def weights : Prv → List K
  | .atom a => List.replicate a.range.size 1
  | .count f => f.histograms.map (Histogram.multinomial K)

/-- `acc` plus the weighted entries of a table for the values from `v` on at place `i` -/
def sumFrom (t : Factor K) (sizes : List Nat) (i : Nat) (digits : List Nat) (powered : K → K) :
    List K → Nat → K → Except Error K
  | [], _, acc => .ok acc
  | w :: ws, v, acc =>
    match t.entry sizes (digits.insertIdx i v) with
    | .error e => .error e
    | .ok x => sumFrom t sizes i digits powered ws (v + 1) (acc + w * powered x)

/-- the parfactor without `q`, summed over its values -/
def sumOut (p : Parfactor K) (q : Prv) : Except Error (Parfactor K) := do
  match p.occurrences q, p.position? q with
  | 1, some i =>
    let remainingPrvs := p.prvs.eraseIdx i
    let remaining := varsOf remainingPrvs
    let all := p.constraints.countGroundings p.logVars
    let inPrvs := p.constraints.countGroundings p.prvVars
    let inRemaining := p.constraints.countGroundings remaining
    let weights : List K := weights q
    let sizes := p.sizes
    rebuild (p.constraints.restrictTo remaining) remainingPrvs fun digits => do
      let total ← sumFrom p.factor sizes i digits (Scalar.powRatio · all inPrvs) weights 0 0
      return Scalar.powRatio total inPrvs inRemaining
  | 0, _ => .error (.notPresent q.text)
  | _, _ => .error (.notEliminable q.text)

end Parfactor

end LiftedElimination
