import LiftedElimination.Proofs.Reading

/-!
# The range of a counting formula

The values of a counting formula are histograms, and the tables over it are laid out in their order.
The list has all of them, and its length is known beforehand, from a product that never lists them.

* `Histogram.all_exact`         the list: its order, its members, its length, and where the histograms
                                of one individual stand;
* `Cost.histogramCount_exact`   the product, and how close to the limit of costs it is right.
-/

namespace LiftedElimination

namespace Histogram

theorem pairwise_all (b n : Nat) : (all b n).Pairwise fun g h => h.counts < g.counts := by
  rw [all, List.pairwise_map]
  exact pairwise_spreads b n

/-- one individual is counted at its value, and nowhere else -/
theorem counts_sole (b i : Nat) :
    (sole b i).counts = (List.range b).map fun v => if v = i then 1 else 0 := by
  refine List.ext_getElem (by simp [sole]) fun v hv _ => ?_
  simp only [sole, List.getElem_modify, List.getElem_replicate, List.getElem_map,
    List.getElem_range, eq_comm (a := i)]

/-- **The histograms of `n` individuals over `b` values** are listed in strictly falling lexicographic
order, and are the lists of `b` counts with sum `n`.  A finite cost is their number.  The range size of
a formula is the length of its range, as a number of 64 bits.  Of one individual, the histogram at place
`i` counts it at the value `i`: a table over the formula is one over its atom. -/
theorem all_exact (b n : Nat) :
    (all b n).Pairwise (fun g h => h.counts < g.counts)
      ∧ (∀ h, h ∈ all b n ↔ h.counts.length = b ∧ h.counts.sum = n)
      ∧ (∀ m, Cost.histogramCount n b = .finite m → (all b n).length = m)
      ∧ (∀ f : CountingFormula, f.rangeSize = min f.histograms.length maxWord)
      ∧ all b 1 = (List.range b).map fun i =>
          ⟨(List.range b).map fun v => if v = i then 1 else 0⟩ := by
  refine ⟨pairwise_all b n, fun h => mem_all, fun m hm => ?_, CountingFormula.rangeSize_eq, ?_⟩
  · rw [length_all, Cost.histogramCount_eq hm]
  · rw [all_one]
    exact List.map_congr_left fun i _ => congrArg Histogram.mk (counts_sole b i)

end Histogram

namespace Cost

/-- the last product on the way is no smaller than the number, unless there is nothing to choose -/
theorem choose_le_limit {n b : Nat} (h : (n + b).choose b * Nat.min n b ≤ limit) :
    (n + b).choose b ≤ limit := by
  rcases Nat.eq_zero_or_pos (Nat.min n b) with hzero | hpos
  · rw [← (choose_min n b).2, hzero, Nat.choose_zero_right]
    decide
  · exact (Nat.le_mul_of_pos_right _ hpos).trans h

/-- **The cost that counts histograms** is their number, a binomial coefficient, where the number fits
after it is multiplied by the smaller of its two parts, and infinite elsewhere.  So it saturates
exactly unless the number fits and this product does not. -/
theorem histogramCount_exact (n b : Nat) :
    histogramCount n 0 = .finite (if n = 0 then 1 else 0)
      ∧ histogramCount n (b + 1) = (if (n + b).choose b * Nat.min n b ≤ limit
          then .finite ((n + b).choose b) else .infinite)
      ∧ (histogramCount n (b + 1) = .sat ((n + b).choose b)
          ↔ ((n + b).choose b ≤ limit → (n + b).choose b * Nat.min n b ≤ limit)) := by
  refine ⟨histogramCount_zero n, histogramCount_succ n b, ?_⟩
  rw [histogramCount_succ]
  split
  · rename_i hproduct
    rw [sat_of_le (choose_le_limit hproduct)]
    exact iff_of_true rfl fun _ => hproduct
  · rename_i hproduct
    by_cases hfits : (n + b).choose b ≤ limit
    · rw [sat_of_le hfits]
      exact iff_of_false nofun fun h => hproduct (h hfits)
    · rw [sat_of_lt (Nat.lt_of_not_le hfits)]
      exact iff_of_true rfl fun h => absurd h hfits

/-- there are fewer than `2 ^ 126` choices of 63 out of 126, but 63 times their number does not fit -/
example : histogramCount 63 64 = .infinite := by decide

end Cost

end LiftedElimination
