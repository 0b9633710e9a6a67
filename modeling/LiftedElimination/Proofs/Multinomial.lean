import LiftedElimination.Proofs.Assignments

/-!
# Multinomial weights

The weight of a histogram is computed by alternating products and quotients, one of each for every
individual.  It is the number of ways to give the individuals values with that histogram.

* `turns`, `quotient`        the products and quotients as one loop, and the value after some turns;
* `quotient_eq`              that value is the weight of the individuals met so far;
* `dvd_turn`                 so no quotient leaves a rest;
* `ways_mul_factorial`       the weight as a quotient of factorials;
* `card_values`              the weight as a number of functions;
* `sum_ways`                 all weights together: every function has one histogram;
* `multinomial_exact`        all of it, in every exact arithmetic.
-/

namespace LiftedElimination

open Finset

namespace Histogram

/-! ## the loops as one -/

/-- the individuals in turn, each with the divisor of its turn -/
def turns (h : Histogram) : List (Nat × Nat) :=
  (List.range' 1 h.total).zip (h.counts.flatMap fun n => List.range' 1 n)

section
variable {K : Type} [Scalar K]

/-- one product and one quotient -/
def turn (acc : K) (t : Nat × Nat) : K := acc * Scalar.ofNat t.1 / Scalar.ofNat t.2

theorem multiplyRun_eq_foldl (n k seen : Nat) (acc : K) : multiplyRun n k seen acc
    = ((List.range' (seen + 1) n).zip (List.range' k n)).foldl turn acc := by
  induction n generalizing k seen acc with
  | zero => rfl
  | succ n ih =>
    rw [multiplyRun, ih, List.range'_succ, List.range'_succ]
    rfl

theorem multiplyCounts_eq_foldl (l : List Nat) (seen : Nat) (acc : K) : multiplyCounts l seen acc
    = ((List.range' (seen + 1) l.sum).zip (l.flatMap fun n => List.range' 1 n)).foldl turn acc := by
  induction l generalizing seen acc with
  | nil => rfl
  | cons n l ih =>
    have hsplit : List.range' (seen + 1) (n + l.sum)
        = List.range' (seen + 1) n ++ List.range' (seen + n + 1) l.sum := by
      rw [← List.range'_append, Nat.one_mul, Nat.add_right_comm]
    rw [multiplyCounts, ih, multiplyRun_eq_foldl, List.sum_cons, hsplit, List.flatMap_cons,
      List.zip_append (by rw [List.length_range', List.length_range']), List.foldl_append]

/-- the two loops take the turns one by one -/
theorem multinomial_eq_foldl (h : Histogram) : multinomial K h = h.turns.foldl turn 1 :=
  multiplyCounts_eq_foldl h.counts 0 1

/-- the value after `j` turns -/
def quotient (K : Type) [Scalar K] (h : Histogram) (j : Nat) : K := (h.turns.take j).foldl turn 1

theorem quotient_succ {h : Histogram} {j : Nat} {t : Nat × Nat} (ht : h.turns[j]? = some t) :
    quotient K h (j + 1) = turn (quotient K h j) t := by
  rw [quotient, List.take_add_one, ht, List.foldl_append]
  rfl

end

/-- the counts of the first `j` individuals, the values in order -/
def firsts : List Nat → Nat → List Nat
  | [], _ => []
  | n :: l, j => min j n :: firsts l (j - n)

theorem take_range' (j s n : Nat) :
    (List.range' s n).take j = List.range' s (min j n) := by
  refine List.ext_getElem (by simp) fun i _ _ => ?_
  rw [List.getElem_take, List.getElem_range', List.getElem_range']

theorem sum_firsts (l : List Nat) (j : Nat) : (firsts l j).sum = min j l.sum := by
  induction l generalizing j with
  | nil => exact (Nat.min_zero j).symm
  | cons n l ih =>
    rw [firsts, List.sum_cons, ih, List.sum_cons]
    omega

theorem take_divisors (l : List Nat) (j : Nat) : (l.flatMap fun n => List.range' 1 n).take j
    = (firsts l j).flatMap fun n => List.range' 1 n := by
  induction l generalizing j with
  | nil => exact List.take_nil
  | cons n l ih =>
    rw [firsts, List.flatMap_cons, List.flatMap_cons, List.take_append, take_range',
      List.length_range', ih]

theorem take_turns (h : Histogram) (j : Nat) : h.turns.take j = turns ⟨firsts h.counts j⟩ := by
  have htotal : (⟨firsts h.counts j⟩ : Histogram).total = min j h.total := sum_firsts h.counts j
  rw [turns, turns, htotal, List.zip, List.take_zipWith, take_range', take_divisors]

/-- **After `j` turns** the value is the weight of the first `j` individuals. -/
theorem quotient_eq {K : Type} [ExactScalar K] (h : Histogram) (j : Nat) :
    quotient K h j = ((ways 0 (firsts h.counts j) : Nat) : K) := by
  rw [quotient, take_turns, ← multinomial_eq_foldl, multinomial_eq]

theorem pos_of_mem_turns {h : Histogram} {t : Nat × Nat} (ht : t ∈ h.turns) : 0 < t.2 := by
  obtain ⟨n, -, hn⟩ := List.mem_flatMap.mp (List.of_mem_zip ht).2
  exact (List.mem_range'_1.mp hn).1

open scoped ExactScalar in
/-- **No quotient leaves a rest:** it is a whole number also where nothing is rounded. -/
theorem dvd_turn {h : Histogram} {j : Nat} {t : Nat × Nat} (ht : h.turns[j]? = some t) :
    t.2 ∣ ways 0 (firsts h.counts j) * t.1 := by
  have hpos : (t.2 : NNReal) ≠ 0 :=
    Nat.cast_ne_zero.mpr (pos_of_mem_turns (List.mem_of_getElem? ht)).ne'
  have hturn : ((ways 0 (firsts h.counts (j + 1)) : Nat) : NNReal)
      = (ways 0 (firsts h.counts j) : Nat) * (t.1 : NNReal) / (t.2 : NNReal) := by
    rw [← quotient_eq, ← quotient_eq]
    exact quotient_succ ht
  rw [eq_div_iff hpos] at hturn
  refine Dvd.intro_left (ways 0 (firsts h.counts (j + 1))) (Nat.cast_injective (R := NNReal) ?_)
  rw [Nat.cast_mul, Nat.cast_mul]
  exact hturn

/-! ## factorials -/

theorem ways_mul_factorial (l : List Nat) (seen : Nat) :
    ways seen l * (l.map Nat.factorial).prod * seen.factorial = (seen + l.sum).factorial := by
  induction l generalizing seen with
  | nil =>
    show 1 * 1 * seen.factorial = seen.factorial
    rw [Nat.one_mul]
  | cons n l ih =>
    rw [ways, List.map_cons, List.prod_cons, List.sum_cons, ← Nat.add_assoc, ← ih,
      ← Nat.add_choose_mul_factorial_mul_factorial seen n]
    ring

/-! ## functions -/

/-- so many functions from the individuals to the values have the histogram -/
theorem card_values (h : Histogram) :
    ((univ : Finset (Fin h.total → Fin h.counts.length)).filter fun g =>
      ∀ v, (univ.filter fun i => g i = v).card = h.counts[v]).card = ways 0 h.counts := by
  rw [← card_tally_eq h.counts (univ : Finset (Fin h.total)) (Finset.card_fin _).symm fun _ => 0]
  have hcount : ∀ (g : Fin h.total → Fin h.counts.length) (v : Fin h.counts.length),
      (univ.filter fun i => (g i : Nat) = v).card = (univ.filter fun i => g i = v).card := by
    intro g v
    simp only [Fin.ext_iff]
  refine card_bij (fun g _ i => (g i : Nat)) (fun g hg => ?_) (fun g _ g' _ hgg' => ?_)
    fun g hg => ?_
  · refine mem_filter.mpr ⟨mem_overrides.mpr ⟨fun i _ => mem_range.mpr (g i).isLt,
      fun i hi => absurd (mem_univ i) hi⟩, List.ext_getElem length_tally fun v hv hv' => ?_⟩
    rw [getElem_tally, hcount g ⟨v, hv'⟩]
    exact (mem_filter.mp hg).2 ⟨v, hv'⟩
  · exact funext fun i => Fin.ext (congrFun hgg' i)
  · obtain ⟨hg, htally⟩ := mem_filter.mp hg
    have hlt : ∀ i, g i < h.counts.length := fun i =>
      mem_range.mp ((mem_overrides.mp hg).1 i (mem_univ i))
    refine ⟨fun i => ⟨g i, hlt i⟩, mem_filter.mpr ⟨mem_univ _, fun v => ?_⟩, rfl⟩
    rw [← hcount]
    have hv : (v : Nat) < (tally h.counts.length univ g).length := length_tally.symm ▸ v.isLt
    rw [← getElem_tally hv]
    simp only [htally]
    rfl

/-- **All weights together** are the number of functions. -/
theorem sum_ways (b n : Nat) : ((spreads b n).map (ways 0)).sum = b ^ n := by
  have hcard : (overrides (univ : Finset (Fin n)) (fun _ => range b) fun _ => 0).card = b ^ n := by
    rw [overrides, card_map, card_pi, prod_const, card_range, Finset.card_univ, Fintype.card_fin]
  have hmaps : ∀ g ∈ overrides (univ : Finset (Fin n)) (fun _ => range b) fun _ => 0,
      tally b univ g ∈ (spreads b n).toFinset := by
    intro g hg
    rw [List.mem_toFinset, mem_spreads]
    refine ⟨length_tally, ?_⟩
    have hlegal : Set.MapsTo g (univ : Finset (Fin n)) (range b) := fun i hi =>
      mem_coe.mpr ((mem_overrides.mp hg).1 i hi)
    have hsum := card_eq_sum_card_fiberwise hlegal
    rw [Finset.card_univ, Fintype.card_fin] at hsum
    exact hsum.symm
  rw [← List.sum_toFinset _ (nodup_spreads b n), ← hcard, card_eq_sum_card_fiberwise hmaps]
  refine sum_congr rfl fun l hl => ?_
  obtain ⟨rfl, hsum⟩ := mem_spreads.mp (List.mem_toFinset.mp hl)
  exact (card_tally_eq l univ (hsum.trans (Finset.card_fin n).symm) fun _ => 0).symm

/-! ## the weights -/

open scoped ExactScalar in
/-- **Multinomial weights count assignments.**  In exact arithmetic the weight of a histogram is the
factorial of its total over the factorials of its counts.  The loops take one product and one
quotient for each individual; the value after every turn is a whole number, and in whole numbers no
quotient leaves a rest.  The weight is the number of functions from the individuals to the values
with that histogram, and the weights of all histograms of `n` individuals over `b` values come to
`b ^ n`. -/
theorem multinomial_exact {K : Type} [ExactScalar K] (h : Histogram) (b n : Nat) :
    multinomial K h = ((h.total.factorial / (h.counts.map Nat.factorial).prod : Nat) : K)
      ∧ (h.counts.map Nat.factorial).prod ∣ h.total.factorial
      ∧ multinomial K h = h.turns.foldl turn 1
      ∧ (∀ j, ∃ m : Nat, quotient K h j = m)
      ∧ (∀ j t, h.turns[j]? = some t → t.2 ∣ quotient Nat h j * t.1)
      ∧ multinomial K h = ((univ : Finset (Fin h.total → Fin h.counts.length)).filter fun g =>
          ∀ v, (univ.filter fun i => g i = v).card = h.counts[v]).card
      ∧ ((all b n).map (multinomial K)).sum = (b : K) ^ n := by
  have hfactorial : ways 0 h.counts * (h.counts.map Nat.factorial).prod = h.total.factorial := by
    have hways := ways_mul_factorial h.counts 0
    rwa [Nat.factorial_zero, Nat.mul_one, Nat.zero_add] at hways
  have hpos : 0 < (h.counts.map Nat.factorial).prod :=
    List.prod_pos fun x hx => by
      obtain ⟨c, -, rfl⟩ := List.mem_map.mp hx
      exact Nat.factorial_pos c
  refine ⟨?_, Dvd.intro_left _ hfactorial, multinomial_eq_foldl h,
    fun j => ⟨_, quotient_eq h j⟩, fun j t ht => ?_, ?_, ?_⟩
  · rw [← hfactorial, Nat.mul_div_cancel _ hpos, multinomial_eq]
  · rw [quotient_eq]
    exact dvd_turn ht
  · rw [card_values, multinomial_eq]
  · have hweights : (all b n).map (multinomial K)
        = ((spreads b n).map (ways 0)).map (fun m : Nat => (m : K)) := by
      rw [all, List.map_map, List.map_map]
      exact List.map_congr_left fun l _ => multinomial_eq ⟨l⟩
    rw [hweights, ← Nat.cast_list_sum, sum_ways, Nat.cast_pow]

open scoped ExactScalar in
/-- of four individuals, two with each of two values -/
example : multinomial Nat ⟨[2, 2]⟩ = 6 := by decide

end Histogram

end LiftedElimination
