import LiftedElimination.Scalar

/-!
# Histograms

* `Histogram`          how many individuals took each value;
* `Histogram.all b n`  the histograms of `n` individuals over `b` values, the first count falling;
* `multinomial`        the number of ways to give `n` individuals values with that histogram, by
                       alternating products and quotients.
-/

namespace LiftedElimination

/-- the largest number of 64 bits -/
def maxWord : Nat := Nat.pow 2 64 - 1

/-- the number of individuals for each value -/
structure Histogram where
  counts : List Nat
deriving DecidableEq, Inhabited

namespace Histogram

def total (h : Histogram) : Nat := h.counts.foldr (· + ·) 0

/-- the total, if it has at most 64 bits -/
def total? (h : Histogram) : Option Nat := if h.total ≤ maxWord then some h.total else none

/-- the lists of `buckets` numbers with sum `n`, in falling lexicographic order -/
def spreads : Nat → Nat → List (List Nat)
  | 0, n => if n = 0 then [[]] else []
  | 1, n => [[n]]
  | b + 2, n => (List.range (n + 1)).reverse.flatMap fun k => (spreads (b + 1) (n - k)).map (k :: ·)

def all (buckets n : Nat) : List Histogram := (spreads buckets n).map Histogram.mk

theorem length_of_mem_spreads {b n : Nat} {l : List Nat} (h : l ∈ spreads b n) : l.length = b := by
  fun_induction spreads b n generalizing l with
  | case1 => simp_all
  | case2 => simp_all
  | case3 => simp_all
  | case4 b n ih =>
    obtain ⟨k, _, hk⟩ := List.mem_flatMap.mp h
    obtain ⟨m, hm, rfl⟩ := List.mem_map.mp hk
    rw [List.length_cons, ih k hm]

/-- `acc` times the `n` numbers behind `seen`, each over the next of the divisors from `k` on -/
def multiplyRun {K : Type} [Scalar K] : Nat → Nat → Nat → K → K
  | 0, _, _, acc => acc
  | n + 1, k, seen, acc =>
    multiplyRun n (k + 1) (seen + 1) (acc * Scalar.ofNat (seen + 1) / Scalar.ofNat k)

/-- `acc` times the numbers behind `seen`, over `1, .., h` for every count `h` -/
def multiplyCounts {K : Type} [Scalar K] : List Nat → Nat → K → K
  | [], _, acc => acc
  | h :: hs, seen, acc => multiplyCounts hs (seen + h) (multiplyRun h 1 seen acc)

/-- `n! / (h1! .. hb!)` -/
def multinomial (K : Type) [Scalar K] (h : Histogram) : K := multiplyCounts h.counts 0 1

def text (h : Histogram) : String :=
  "(" ++ ", ".intercalate (h.counts.map Nat.repr) ++ ")"

end Histogram

end LiftedElimination
