import LiftedElimination.Histogram
import LiftedElimination.Factor.Index

/-!
# Aggregation operators

`Operator` lists the deterministic aggregations over an ordered range.  Disjunction and conjunction
are the largest and the least value over `false < true`.

* `overHistogram`   the aggregate of the counted values, the operator's identity for nobody;
* `aggregate?`      the aggregate of listed values.
-/

namespace LiftedElimination

/-- a deterministic aggregation -/
inductive Operator where
  | disjunction
  | conjunction
  | maximum
  | minimum
deriving DecidableEq, Inhabited

namespace Operator

/-- the place in the listing order -/
def rank : Operator → Nat
  | disjunction => 0
  | conjunction => 1
  | maximum => 2
  | minimum => 3

instance : Ord Operator := ⟨compareOn Operator.rank⟩

instance : Std.TransOrd Operator := inferInstanceAs (Std.TransCmp (compareOn Operator.rank))

instance : Std.LawfulEqOrd Operator where
  compare_self {a} := (Std.ReflCmp.compare_self : compare a.rank a.rank = .eq)
  eq_of_compare {a b} h := by
    have hr : a.rank = b.rank := Std.LawfulEqOrd.eq_of_compare (α := Nat) h
    cases a <;> cases b <;> first
      | rfl
      | cases hr

/-- the operator takes the largest value rather than the least -/
def isUpper : Operator → Bool
  | disjunction | maximum => true
  | conjunction | minimum => false

def text : Operator → String
  | disjunction => "OR"
  | conjunction => "AND"
  | maximum => "MAX"
  | minimum => "MIN"

/-- the place of the first positive count -/
def firstPositive? (counts : List Nat) : Option Nat := counts.findIdx? (0 < ·)

/-- the place of the last positive count -/
def lastPositive? (counts : List Nat) : Option Nat :=
  (firstPositive? counts.reverse).map fun i => counts.length - 1 - i

/-- the aggregate of the values that the histogram counts; if it counts nobody, the least value for
an upper operator and the largest one otherwise -/
def overHistogram (op : Operator) (h : Histogram) : Nat :=
  if op.isUpper then (lastPositive? h.counts).getD 0
  else (firstPositive? h.counts).getD (h.counts.length - 1)

/-- how often each of `buckets` values is listed -/
def histogramOf (values : List Nat) (buckets : Nat) : Histogram :=
  ⟨(List.range buckets).map fun v => values.count v⟩

/-- the aggregate of the listed values; nothing if one is not below `buckets`, and an error if there
are more buckets than a table can hold -/
def aggregate? (op : Operator) (values : List Nat) (buckets : Nat) : Except Error (Option Nat) :=
  if Index.maxEntries < buckets then .error .overflow
  else if values.all (· < buckets) then .ok (some (op.overHistogram (histogramOf values buckets)))
  else .ok none

end Operator

end LiftedElimination
