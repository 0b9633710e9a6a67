import LiftedElimination.Parfactor.Basic

/-!
# Counting and expansion

* `isCountable`, `count`     a logical variable that occurs in one atom only turned into the bound
                             variable of a counting formula: `F'(r, h) = Π_v F(r, v) ^ h(v)`;
* `isExpandable`, `expand`   one individual taken out of a counting formula;
* `prerequisite?`            the split that an expansion still needs.
-/

namespace LiftedElimination

namespace Parfactor

variable {K : Type}

/-! ## counting -/

/-- the variables that `x` differs from -/
def neighbours (p : Parfactor K) (x : LogVar) : List LogVar :=
  p.constraints.toList.filterMap (·.otherVar? x)

/-- one random variable mentions `x`, it is an atom, and `x` has the same number of individuals for
every grounding of the others: its neighbours differ pairwise and draw from its domain -/
def isCountable (p : Parfactor K) (x : LogVar) : Bool :=
  match p.prvs.filter (·.mentions x) with
  | [.atom _] =>
    let own := x.domain p.constraints
    let others := p.neighbours x
    others.all (fun y => y.population == x.population
        && (y.domain p.constraints).isWithin own)
      && decide (others.Pairwise (fun y z => p.constraints.separates z (.var y) = true))
  | _ => false

/-- the random variable that mentions `x`, with its place -/
def holder? (p : Parfactor K) (x : LogVar) : Option (Nat × Prv) :=
  p.prvs.zipIdx.findSome? fun q => if q.1.mentions x then some (q.2, q.1) else none

/-- `acc` times the entries of a table over `sizes` for the values from `v` on at place `i`, each as
often as it is counted; counts are at most the number of individuals, and powers of floats are those
of the counts up to `2 ^ 31 - 1` individuals -/
def countedEntry [Scalar K] (t : Factor K) (sizes : List Nat) (i : Nat) (digits : List Nat) :
    List Nat → Nat → K → Except Error K
  | [], _, acc => .ok acc
  | n :: counts, v, acc =>
    match t.entry sizes (digits.set i v) with
    | .error e => .error e
    | .ok x => countedEntry t sizes i digits counts (v + 1) (acc * Scalar.pow x n)

/-- the atom that holds `x` replaced by the counting formula over `x` -/
def count [Scalar K] (p : Parfactor K) (x : LogVar) : Except Error (Parfactor K) := do
  if !p.isCountable x then .error (.notCountable x)
  match p.holder? x with
  | some (i, .atom inner) =>
    let f ← CountingFormula.make x inner (p.constraints.onVariable x)
    let histograms := f.histograms.toArray
    let sizes := p.sizes
    rebuild (p.constraints.notOnVariable x) (p.prvs.set i (.count f)) fun digits =>
      match histograms[digits.getD i 0]? with
      | none => .error .tableBounds
      | some h => countedEntry p.factor sizes i digits h.counts 0 1
  | _ => .error (.notCountable x)

/-! ## expansion -/

/-- the constraints keep `x` and `t` apart -/
def separates (p : Parfactor K) (x : LogVar) : Term → Bool
  | .const c => decide (c ∉ x.population) || p.constraints.separates x (.const c)
  | .var y => y != x && p.constraints.separates x (.var y)

/-- the split that comes before `t` can be taken out of `f`: whoever is excluded from the group has
to be kept apart from `t` -/
def prerequisite? (p : Parfactor K) (f : CountingFormula) (t : Term) : Option Binding :=
  f.exclusions.findSome? fun excluded =>
    match excluded, t with
    | .var y, t => if p.separates y t then none else some ⟨y, t⟩
    | .const c, .var x => if p.separates x (.const c) then none else some ⟨x, .const c⟩
    | .const _, .const _ => none

/-- `f` occurs here, and `t` can be taken out of it for every grounding -/
def isExpandable (p : Parfactor K) (f : CountingFormula) (t : Term) : Bool :=
  p.contains (.count f) && f.isExpandable t
    && (match t with
      | .var x => decide (x ∈ p.logVars)
      | .const _ => true)
    && (p.prerequisite? f t).isNone

/-- one more individual with the value `v` -/
def addOne (counts : List Nat) (v : Nat) : Except Error Histogram :=
  if v < counts.length then .ok ⟨counts.modify v (· + 1)⟩ else .error .tableBounds

/-- `f` replaced by its atom for `t`, followed by the formula for the others if anybody is left -/
def expand (p : Parfactor K) (f : CountingFormula) (t : Term) : Except Error (Parfactor K) := do
  match p.position? (.count f) with
  | none => .error (.notExpandable f.text t.text)
  | some i =>
    if !p.isExpandable f t then .error (.notExpandable f.text t.text)
    let (grounded, rest?) ← f.expand t
    let sizes := p.sizes
    let histograms := f.histograms
    let before := p.prvs.take i
    let behind := p.prvs.drop (i + 1)
    match rest? with
    | some rest =>
      let restHistograms := rest.histograms.toArray
      rebuild p.constraints (before ++ .atom grounded :: .count rest :: behind) fun digits => do
        match restHistograms[digits.getD (i + 1) 0]? with
        | none => .error .tableBounds
        | some h =>
          let h ← addOne h.counts (digits.getD i 0)
          p.factor.entry sizes
            (digits.take i ++ (histograms.idxOf? h).getD 0 :: digits.drop (i + 2))
    | none =>
      rebuild p.constraints (before ++ .atom grounded :: behind) fun digits => do
        let h ← addOne (List.replicate f.inner.range.size 0) (digits.getD i 0)
        p.factor.entry sizes
          (digits.take i ++ (histograms.idxOf? h).getD 0 :: digits.drop (i + 1))

end Parfactor

end LiftedElimination
