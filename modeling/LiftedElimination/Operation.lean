import LiftedElimination.Shatter
import LiftedElimination.Parfactor.SumOut

/-!
# Operations on marginals

* `OperationKind`   the six kinds, with their names and the priority that settles ties;
* `Operation`       an operation with what it applies to;
* `Operation.cost`, `Operation.run`   the estimated size of its largest table, and its result;
* `count?`, `sumOut?`, `expand?`, `ground?`   the operations that are eligible in a marginal;
* `candidates`      all operations of one kind.
-/

namespace LiftedElimination

/-! ## kinds -/

inductive OperationKind where
  | convertAggregation
  | shatter
  | countingConvert
  | globalSumOut
  | fullExpand
  | propositionalize
deriving DecidableEq, Inhabited

namespace OperationKind

def all : List OperationKind :=
  [convertAggregation, shatter, countingConvert, globalSumOut, fullExpand, propositionalize]

/-- among equal costs the lower priority goes first -/
def priority : OperationKind → Nat
  | convertAggregation => 0
  | shatter => 1
  | countingConvert => 2
  | globalSumOut => 2
  | fullExpand => 3
  | propositionalize => 4

def text : OperationKind → String
  | convertAggregation => "convert_aggregation"
  | shatter => "shatter"
  | countingConvert => "counting_convert"
  | globalSumOut => "global_sum_out"
  | fullExpand => "full_expand"
  | propositionalize => "propositionalize"

end OperationKind

variable {K : Type} [Scalar K]

/-! ## operations -/

/-- the elimination of a set of random variables: the components that hold it, and the same
components renamed to its variables -/
structure SetElimination (K : Type) [Scalar K] where
  eliminated : PrvSet
  involved : List (Component K)
  aligned : List (Parfactor K)

inductive Operation (K : Type) [Scalar K] where
  | convert (a : Aggregation K)
  | shatter
  | count (p : Parfactor K) (x : LogVar)
  | sumOut (e : SetElimination K)
  | expand (p : Parfactor K) (f : CountingFormula)
  | ground (p : Parfactor K) (x : LogVar)

namespace Operation

def kind : Operation K → OperationKind
  | convert _ => .convertAggregation
  | shatter => .shatter
  | count _ _ => .countingConvert
  | sumOut _ => .globalSumOut
  | expand _ _ => .fullExpand
  | ground _ _ => .propositionalize

def text : Operation K → String
  | convert a => "convert " ++ a.text
  | shatter => "shatter"
  | count p x => "count " ++ x.text ++ " in " ++ p.text
  | sumOut e => "sum out " ++ e.eliminated.text
  | expand p f => "expand " ++ f.text ++ " in " ++ p.text
  | ground p x => "ground " ++ x.text ++ " in " ++ p.text

/-! ## costs -/

/-- the table of `p` with the values of the holder of `x` replaced by histograms -/
def countCost (p : Parfactor K) (x : LogVar) : Cost :=
  match p.holder? x with
  | none => .infinite
  | some (_, q) =>
    let domain := (x.domain p.constraints).size - (p.neighbours x).length
    (Cost.finite (p.factor.size / max q.rangeSize 1)).mul (.histogramCount domain q.rangeSize)

/-- the table of the product of the aligned parfactors -/
def sumOutCost (e : SetElimination K) : Cost :=
  .prod ((Parfactor.unionPrvs [] (e.aligned.flatMap Parfactor.prvs)).map Prv.rangeSize)

/-- the tables of the ground instances together -/
def groundCost (p : Parfactor K) (x : LogVar) : Cost :=
  (Cost.finite p.factor.size).mul (.finite (x.domain p.constraints).size)

/-- the estimated number of entries of the largest table that the operation builds -/
def cost : Operation K → Cost
  | convert _ => .zero
  | shatter => .zero
  | count p x => countCost p x
  | sumOut e => sumOutCost e
  | expand p f => .fullExpansion p.factor.size f.rangeSize f.inner.range.size f.domainSize
  | ground p x => groundCost p x

/-- the number of ground random variables that the operation removes -/
def eliminatedCount : Operation K → Cost
  | sumOut e => e.eliminated.groundCount
  | _ => .zero

/-- cheaper first, then by kind -/
def precedes (a b : Operation K) : Bool :=
  match compare a.cost b.cost with
  | .lt => true
  | .eq => a.kind.priority < b.kind.priority
  | .gt => false

/-! ## results -/

/-- the distribution without the component; an error if it is not there -/
def remove (d : Distribution K) (c : Component K) : Except Error (Distribution K) :=
  if d.contains c then .ok (d.erase c) else .error (.notPresent c.text)

def removeAll (d : Distribution K) : List (Component K) → Except Error (Distribution K)
  | [] => .ok d
  | c :: cs =>
    match remove d c with
    | .error e => .error e
    | .ok d => removeAll d cs

/-- the normal forms of the parfactors, without the empty ones -/
def normalForms (ps : List (Parfactor K)) : Except Error (List (Component K)) := do
  let normal ← collect Parfactor.normalize ps
  return normal.filterMap (·.map .standard)

def runConvert (m : Marginal K) (a : Aggregation K) : Except Error (Marginal K) := do
  let d ← remove m.distribution (.aggregation a)
  let ps ← a.toParfactors
  let cs ← normalForms ps
  return m.withDistribution (d.addAll cs)

def runCount (m : Marginal K) (p : Parfactor K) (x : LogVar) : Except Error (Marginal K) := do
  let counted ← p.count x
  let d ← remove m.distribution (.standard p)
  let cs ← normalForms [counted]
  return m.withDistribution (d.addAll cs)

/-- the product of a parfactor and the listed ones -/
def multiplyAll (p : Parfactor K) : List (Parfactor K) → Except Error (Parfactor K)
  | [] => .ok p
  | q :: qs =>
    match p.multiply q with
    | .error e => .error e
    | .ok r => multiplyAll r qs

def runSumOut (m : Marginal K) (e : SetElimination K) : Except Error (Marginal K) := do
  match e.aligned with
  | [] => .error (.notPresent e.eliminated.text)
  | p :: ps =>
    let product ← multiplyAll p ps
    let summed ← product.sumOut e.eliminated.prv
    let d ← removeAll m.distribution e.involved
    let cs ← normalForms [summed]
    return m.withDistribution (d.addAll cs)

/-- the listed individuals taken out of the formula in turn, until nobody is left -/
def expandAll (p : Parfactor K) : Option CountingFormula → List Constant →
    Except Error (Parfactor K)
  | none, _ => .ok p
  | some _, [] => .ok p
  | some f, c :: cs =>
    match f.expand (.const c) with
    | .error e => .error e
    | .ok (_, rest) =>
      match p.expand f (.const c) with
      | .error e => .error e
      | .ok q => expandAll q rest cs

def runExpand (m : Marginal K) (p : Parfactor K) (f : CountingFormula) :
    Except Error (Marginal K) := do
  let expanded ← expandAll p (some f) f.individuals.individuals
  let d ← remove m.distribution (.standard p)
  let cs ← normalForms [expanded]
  (m.withDistribution (d.addAll cs)).shatter

/-- the instances of `x` for the listed individuals, and what is left of the parfactor -/
def groundAll (x : LogVar) : Option (Parfactor K) → List Constant →
    Except Error (List (Parfactor K))
  | none, _ => .ok []
  | some p, [] => .ok [p]
  | some p, c :: cs =>
    if x ∈ p.logVars then do
      let s ← p.split ⟨x, .const c⟩
      let fragment ← s.fragment.normalize
      let residual ← s.residual.normalize
      let rest ← groundAll x residual cs
      return fragment.toList ++ rest
    else .ok [p]

def runGround (m : Marginal K) (p : Parfactor K) (x : LogVar) : Except Error (Marginal K) := do
  let pieces ← groundAll x (some p) (x.domain p.constraints).individuals
  let d ← remove m.distribution (.standard p)
  (m.withDistribution (d.addAll (pieces.map .standard))).shatter

/-- the marginal after the operation -/
def run (m : Marginal K) : Operation K → Except Error (Marginal K)
  | convert a => runConvert m a
  | shatter => m.shatter
  | count p x => runCount m p x
  | sumOut e => runSumOut m e
  | expand p f => runExpand m p f
  | ground p x => runGround m p x

/-! ## eligible operations -/

/-- counting `x` in `p`: it is countable, some other random variable of `p` does not mention it, and
its holder is not kept -/
def count? (m : Marginal K) (p : Parfactor K) (x : LogVar) : Option (Operation K) :=
  if p.isCountable x && p.prvs.any (!·.mentions x) then
    match p.holder? x with
    | none => none
    | some (_, q) => if m.keeps (.of q p.constraints) then none else some (count p x)
  else none

/-- how a component takes part in the elimination of a set -/
inductive Involvement (K : Type) [Scalar K] where
  | untouched
  | aligned (p : Parfactor K)
  | mixed

/-- the places of the random variables with the extent `target`; nothing if one of them overlaps it
otherwise, or two have it -/
def hits? (c : Component K) (target : Extent) : List (Prv × Nat) → Option Nat → Option (Option Nat)
  | [], hit => some hit
  | (q, k) :: rest, hit =>
    match (Extent.of q c.constraints).compare target, hit with
    | .disjoint, hit => hits? c target rest hit
    | .overlapping none none, none => hits? c target rest (some k)
    | _, _ => none

/-- `p`, whose random variable at place `k` has the extent of the set, renamed to the set; it has to
have exactly the variables and the constraints of the set -/
def alignAt? (s : PrvSet) (p : Parfactor K) (k : Nat) : Option (Parfactor K) := do
  let q ← p.prvs[k]?
  if !sameVars p.logVars q.freeVars then none
  let rho ← (Extent.ofSet s).renaming? (.of q p.constraints)
  let renamed ← p.apply rho
  let r ← renamed.prvs[k]?
  if r.sameFormula s.prv && renamed.constraints == s.constraints
      && sameVars renamed.logVars s.prv.freeVars then
    some (renamed.replacePrv k s.prv)
  else none

/-- how `c` takes part in the elimination of the set `s`, whose extent is `target` -/
def involvement (s : PrvSet) (target : Extent) (c : Component K) : Involvement K :=
  match hits? c target c.prvs.zipIdx none with
  | none => .mixed
  | some none => .untouched
  | some (some k) =>
    match c with
    | .aggregation _ => .mixed
    | .standard p =>
      match alignAt? s p k with
      | none => .mixed
      | some p => .aligned p

/-- the components that hold the set, each with its renamed form; nothing if one cannot take part -/
def alignAll? (s : PrvSet) (target : Extent) :
    List (Component K) → Option (List (Component K × Parfactor K))
  | [] => some []
  | c :: cs =>
    match involvement s target c with
    | .mixed => none
    | .untouched => alignAll? s target cs
    | .aligned p => (alignAll? s target cs).map ((c, p) :: ·)

/-- eliminating the set: it is not kept, and every component that holds one of its random variables
is a parfactor that holds the whole set exactly once, over the variables of the set -/
def sumOut? (m : Marginal K) (s : PrvSet) : Option (SetElimination K) :=
  if m.keeps s then none
  else
    match alignAll? s (.ofSet s) m.distribution.toList with
    | none => none
    | some [] => none
    | some pairs => some ⟨s, pairs.map Prod.fst, pairs.map Prod.snd⟩

/-- expanding `f` in `p`: it occurs, counts somebody, and excludes no variable -/
def expand? (p : Parfactor K) (f : CountingFormula) : Option (Operation K) :=
  if p.contains (.count f) && f.excludedVars.isEmpty && decide (0 < f.domainSize) then
    some (expand p f)
  else none

/-- grounding `x` in `p`: it is a logical variable of it -/
def ground? (p : Parfactor K) (x : LogVar) : Option (Operation K) :=
  if x ∈ p.logVars then some (ground p x) else none

/-! ## candidates -/

def parfactors (m : Marginal K) : List (Parfactor K) :=
  m.distribution.toList.filterMap Component.standard?

def converts (m : Marginal K) : List (Operation K) :=
  (m.distribution.toList.filterMap Component.aggregation?).map convert

def counts (m : Marginal K) : List (Operation K) :=
  (parfactors m).flatMap fun p => p.prvVars.filterMap (count? m p)

/-- the same components, in any order -/
def sameGroup (a b : List (Component K)) : Bool :=
  a.length == b.length && a.all fun c => b.any c.same

/-- the operation behind the others, unless one of them has the same components -/
def pushGroup (out : List (SetElimination K)) (e : SetElimination K) : List (SetElimination K) :=
  if out.any (fun o => sameGroup o.involved e.involved) then out else out ++ [e]

/-- one elimination for each group of components -/
def sumOuts (m : Marginal K) : List (Operation K) :=
  let sets := (parfactors m).flatMap fun p =>
    p.prvSets.filter fun s => sameVars s.prv.freeVars p.logVars
  ((sets.filterMap (sumOut? m)).foldl pushGroup []).map sumOut

def expands (m : Marginal K) : List (Operation K) :=
  (parfactors m).flatMap fun p => (p.prvs.filterMap Prv.count?).filterMap (expand? p)

def grounds (m : Marginal K) : List (Operation K) :=
  (parfactors m).flatMap fun p => p.logVars.filterMap (ground? p)

/-- the operations of one kind, in the order of the components -/
def candidates (m : Marginal K) : OperationKind → List (Operation K)
  | .convertAggregation => converts m
  | .shatter => [shatter]
  | .countingConvert => counts m
  | .globalSumOut => sumOuts m
  | .fullExpand => expands m
  | .propositionalize => grounds m

end Operation

end LiftedElimination
