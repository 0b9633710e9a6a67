import Mathlib.Algebra.BigOperators.Group.List.Basic
import Mathlib.Algebra.Order.Ring.Nat
import LiftedElimination.Cost

/-!
# Saturation

Costs are natural numbers as far as 128 bits go, and infinite above.  Every operation on costs is
the one on natural numbers with the result cut off there: cutting off early, as the running products
do, makes no difference, because zero times the infinite cost is zero.

* `sat_mul_sat`, `sat_add_sat`      products and sums;
* `pow_eq_sat`                      powers, although the loop stops at the first infinite product;
* `fullExpansion_eq_sat`            the cost of an expansion;
* `foldl_mul`, `prod_eq_sat`        running products, which so have no order;
* `mul_le_mul_left` .. `fullExpansion_le`   larger costs and numbers give larger costs;
* `saturation_exact`                all of it;
* `fullExpansion_falls`             the one case in which a cost falls.
-/

namespace LiftedElimination

namespace Cost

variable {c d : Cost} {m n : Nat}

/-! ## the order -/

theorem finite_le_finite : (finite m).le (finite n) = true ↔ m ≤ n := Nat.isLE_compare

theorem le_infinite (c : Cost) : c.le infinite = true := by
  cases c <;> rfl

theorem zero_le (c : Cost) : zero.le c = true := by
  cases c with
  | finite n => exact finite_le_finite.mpr (Nat.zero_le n)
  | infinite => rfl

/-- a larger number saturates to a larger cost -/
theorem sat_le_sat (h : m ≤ n) : (sat m).le (sat n) = true := by
  by_cases hn : n ≤ limit
  · rw [sat_of_le hn, sat_of_le (h.trans hn)]
    exact finite_le_finite.mpr h
  · rw [sat_of_lt (Nat.lt_of_not_le hn)]
    exact le_infinite _

/-- a finite cost is exact -/
theorem eq_of_sat (h : sat m = finite n) : n = m := by
  unfold sat at h
  split at h
  · exact (finite.inj h).symm
  · cases h

/-! ## products -/

theorem zero_mul (c : Cost) : zero.mul c = zero := by
  cases c <;> rfl

theorem mul_finite (m n : Nat) : (finite m).mul (finite n) = sat (m * n) := by
  cases m with
  | zero =>
    rw [Nat.zero_mul]
    rfl
  | succ m => cases n <;> rfl

theorem infinite_mul (h : 0 < n) : infinite.mul (finite n) = infinite := by
  obtain ⟨n, rfl⟩ := Nat.exists_eq_succ_of_ne_zero h.ne'
  rfl

theorem mul_comm (c d : Cost) : c.mul d = d.mul c := by
  cases c with
  | finite m =>
    cases d with
    | finite n => rw [mul_finite, mul_finite, Nat.mul_comm]
    | infinite => cases m <;> rfl
  | infinite =>
    cases d with
    | finite n => cases n <;> rfl
    | infinite => rfl

/-- saturation commutes with multiplication -/
theorem sat_mul (m n : Nat) : (sat m).mul (finite n) = sat (m * n) := by
  by_cases hm : m ≤ limit
  · rw [sat_of_le hm, mul_finite]
  · have hlt : limit < m := Nat.lt_of_not_le hm
    rcases Nat.eq_zero_or_pos n with rfl | hn
    · rw [mul_comm]
      exact zero_mul _
    · rw [sat_of_lt hlt, infinite_mul hn, sat_of_lt (hlt.trans_le (Nat.le_mul_of_pos_right m hn))]

/-- **Products saturate**, and zero times what is cut off is zero. -/
theorem sat_mul_sat (m n : Nat) : (sat m).mul (sat n) = sat (m * n) := by
  by_cases hn : n ≤ limit
  · rw [sat_of_le hn, sat_mul]
  · by_cases hm : m ≤ limit
    · rw [mul_comm, sat_of_le hm, sat_mul, Nat.mul_comm]
    · have hmlt : limit < m := Nat.lt_of_not_le hm
      have hnlt : limit < n := Nat.lt_of_not_le hn
      have hlt : limit < m * n :=
        hmlt.trans_le (Nat.le_mul_of_pos_right m (Nat.zero_lt_of_lt hnlt))
      rw [sat_of_lt hmlt, sat_of_lt hnlt, sat_of_lt hlt]
      rfl

theorem sat_add_sat (m n : Nat) : (sat m).add (sat n) = sat (m + n) := by
  by_cases hm : m ≤ limit
  · by_cases hn : n ≤ limit
    · rw [sat_of_le hm, sat_of_le hn]
      rfl
    · have hlt : limit < n := Nat.lt_of_not_le hn
      rw [sat_of_lt hlt, sat_of_lt (hlt.trans_le (Nat.le_add_left n m))]
      cases sat m <;> rfl
  · have hlt : limit < m := Nat.lt_of_not_le hm
    rw [sat_of_lt hlt, sat_of_lt (hlt.trans_le (Nat.le_add_right m n))]
    rfl

/-- a running product is the saturated product, wherever it has become infinite -/
theorem foldl_mul {cost : Nat → Cost} (hcost : ∀ m n, (sat m).mul (cost n) = sat (m * n))
    (l : List Nat) (m : Nat) :
    l.foldl (fun acc n => acc.mul (cost n)) (sat m) = sat (m * l.prod) := by
  induction l generalizing m with
  | nil => rw [List.prod_nil, Nat.mul_one, List.foldl_nil]
  | cons n l ih => rw [List.foldl_cons, hcost, ih, List.prod_cons, Nat.mul_assoc]

theorem prod_eq_sat (l : List Nat) : prod l = sat l.prod :=
  (foldl_mul sat_mul l 1).trans (congrArg sat (Nat.one_mul _))

/-! ## powers and expansions -/

/-- stopping at an infinite product is right, because later products are no smaller -/
theorem powFrom_eq_sat {b : Nat} (hb : 0 < b) (hm : m ≤ limit) (n : Nat) :
    powFrom b n (finite m) = sat (m * b ^ n) := by
  induction n generalizing m with
  | zero => rw [Nat.pow_zero, Nat.mul_one, sat_of_le hm, powFrom]
  | succ n ih =>
    rw [Nat.pow_succ', ← Nat.mul_assoc, powFrom, mul_finite]
    by_cases hle : m * b ≤ limit
    · rw [sat_of_le hle]
      exact ih hle
    · have hlt : limit < m * b := Nat.lt_of_not_le hle
      rw [sat_of_lt hlt,
        sat_of_lt (hlt.trans_le (Nat.le_mul_of_pos_right _ (Nat.pow_pos hb)))]

/-- **Powers saturate.** -/
theorem pow_eq_sat (b n : Nat) : pow b n = sat (b ^ n) := by
  unfold pow
  split
  · rename_i hn
    rw [hn]
    rfl
  · rename_i hn
    have hpos : 0 < n := Nat.pos_of_ne_zero hn
    split
    · rename_i hb
      obtain rfl | rfl := Nat.le_one_iff_eq_zero_or_eq_one.mp hb
      · rw [Nat.zero_pow hpos]
        rfl
      · rw [Nat.one_pow]
        rfl
    · rename_i hb
      have hrun := powFrom_eq_sat (b := b) (m := 1) (by omega) (by decide) n
      rwa [Nat.one_mul] at hrun

/-- **The cost of an expansion** saturates. -/
theorem fullExpansion_eq_sat (entries histograms values individuals : Nat) :
    fullExpansion entries histograms values individuals
      = sat (entries / histograms * values ^ individuals) := by
  rw [fullExpansion, pow_eq_sat, mul_comm]
  show (sat (values ^ individuals)).mul (finite (entries / histograms)) = _
  rw [sat_mul, Nat.mul_comm]

/-! ## larger costs -/

theorem mul_le_mul_left (h : c.le d = true) (e : Cost) : (c.mul e).le (d.mul e) = true := by
  cases d with
  | finite n =>
    cases c with
    | infinite => cases h
    | finite m =>
      have hmn : m ≤ n := finite_le_finite.mp h
      cases e with
      | finite k =>
        rw [mul_finite, mul_finite]
        exact sat_le_sat (Nat.mul_le_mul_right k hmn)
      | infinite =>
        cases m with
        | zero => exact zero_le _
        | succ m =>
          obtain ⟨n, rfl⟩ := Nat.exists_eq_succ_of_ne_zero (Nat.ne_of_gt (Nat.zero_lt_of_lt hmn))
          rfl
  | infinite =>
    rcases eq_or_ne e zero with rfl | he
    · rw [mul_comm, zero_mul]
      exact zero_le _
    · have hinfinite : infinite.mul e = infinite := by
        cases e with
        | finite k => exact infinite_mul (Nat.pos_of_ne_zero fun hk => he (congrArg finite hk))
        | infinite => rfl
      rw [hinfinite]
      exact le_infinite _

theorem add_le_add_left (h : c.le d = true) (e : Cost) : (c.add e).le (d.add e) = true := by
  cases d with
  | finite n =>
    cases c with
    | infinite => cases h
    | finite m =>
      cases e with
      | finite k => exact sat_le_sat (Nat.add_le_add_right (finite_le_finite.mp h) k)
      | infinite => rfl
  | infinite => exact le_infinite _

theorem add_comm (c d : Cost) : c.add d = d.add c := by
  cases c with
  | finite m =>
    cases d with
    | finite n => exact congrArg sat (Nat.add_comm m n)
    | infinite => rfl
  | infinite => cases d <;> rfl

theorem div_le_div (h : c.le d = true) (n : Nat) : (c.div n).le (d.div n) = true := by
  cases d with
  | finite k =>
    cases c with
    | infinite => cases h
    | finite m => exact finite_le_finite.mpr (Nat.div_le_div_right (finite_le_finite.mp h))
  | infinite => exact le_infinite _

theorem pow_le {a b : Nat} (h : a ^ m ≤ b ^ n) : (pow a m).le (pow b n) = true := by
  rw [pow_eq_sat, pow_eq_sat]
  exact sat_le_sat h

theorem fullExpansion_le {entries entries' histograms values values' : Nat}
    (h : entries / histograms * values ^ m ≤ entries' / histograms * values' ^ n) :
    (fullExpansion entries histograms values m).le
      (fullExpansion entries' histograms values' n) = true := by
  rw [fullExpansion_eq_sat, fullExpansion_eq_sat]
  exact sat_le_sat h

/-- powers grow with the exponent, except from zero to the power of zero -/
theorem pow_le_pow_of_le {b : Nat} (hmn : m ≤ n) (h : 0 < b ∨ 0 < m) : b ^ m ≤ b ^ n := by
  rcases Nat.eq_zero_or_pos b with rfl | hb
  · rw [Nat.zero_pow (h.resolve_left (Nat.lt_irrefl 0))]
    exact Nat.zero_le _
  · exact Nat.pow_le_pow_right hb hmn

/-- **Cost arithmetic is exact saturation.**  The product, the sum, the power and the cost of an
expansion are those of natural numbers, cut off at 128 bits, zero times the infinite cost included.
So products depend neither on the order nor on the grouping of their factors.  And no cost falls
where an argument above the line of division grows; an exponent has to start above zero if its base
is zero. -/
theorem saturation_exact :
    (∀ a b, (sat a).mul (sat b) = sat (a * b) ∧ (sat a).add (sat b) = sat (a + b))
      ∧ (∀ base exponent, pow base exponent = sat (base ^ exponent))
      ∧ (∀ entries histograms values individuals,
          fullExpansion entries histograms values individuals
            = sat (entries / histograms * values ^ individuals))
      ∧ (∀ a b c, ((sat a).mul (sat b)).mul (sat c) = (sat a).mul ((sat b).mul (sat c)))
      ∧ (∀ l l' : List Nat, l.Perm l' → prod l = prod l' ∧ ∀ a,
          l.foldl (fun c n => c.mul (sat n)) (sat a) = l'.foldl (fun c n => c.mul (sat n)) (sat a))
      ∧ (∀ c d : Cost, c.le d = true →
          (∀ e, (c.mul e).le (d.mul e) = true ∧ (e.mul c).le (e.mul d) = true
            ∧ (c.add e).le (d.add e) = true ∧ (e.add c).le (e.add d) = true)
          ∧ ∀ n, (c.div n).le (d.div n) = true)
      ∧ ∀ m n, m ≤ n →
          (∀ exponent, (pow m exponent).le (pow n exponent) = true)
          ∧ (∀ base, 0 < base ∨ 0 < m → (pow base m).le (pow base n) = true)
          ∧ ∀ histograms,
            (∀ values individuals, (fullExpansion m histograms values individuals).le
              (fullExpansion n histograms values individuals) = true)
            ∧ (∀ entries individuals, (fullExpansion entries histograms m individuals).le
              (fullExpansion entries histograms n individuals) = true)
            ∧ ∀ entries values, 0 < values ∨ 0 < m →
              (fullExpansion entries histograms values m).le
                (fullExpansion entries histograms values n) = true := by
  refine ⟨fun a b => ⟨sat_mul_sat a b, sat_add_sat a b⟩, pow_eq_sat, fullExpansion_eq_sat,
    fun a b c => ?_, fun l l' hperm => ⟨?_, fun a => ?_⟩,
    fun c d hcd => ⟨fun e => ?_, div_le_div hcd⟩,
    fun m n hmn => ⟨fun k => ?_, fun b h => ?_, fun k => ⟨fun v i => ?_, fun e i => ?_, ?_⟩⟩⟩
  · rw [sat_mul_sat, sat_mul_sat, sat_mul_sat, sat_mul_sat, Nat.mul_assoc]
  · rw [prod_eq_sat, prod_eq_sat, hperm.prod_eq]
  · rw [foldl_mul sat_mul_sat, foldl_mul sat_mul_sat, hperm.prod_eq]
  · have hmul := mul_le_mul_left hcd e
    have hadd := add_le_add_left hcd e
    rw [mul_comm e c, mul_comm e d, add_comm e c, add_comm e d]
    exact ⟨hmul, hmul, hadd, hadd⟩
  · exact pow_le (Nat.pow_le_pow_left hmn k)
  · exact pow_le (pow_le_pow_of_le hmn h)
  · exact fullExpansion_le (Nat.mul_le_mul_right _ (Nat.div_le_div_right hmn))
  · exact fullExpansion_le (Nat.mul_le_mul_left _ (Nat.pow_le_pow_left hmn i))
  · intro e v h
    exact fullExpansion_le (Nat.mul_le_mul_left _ (pow_le_pow_of_le hmn h))

/-- products past 128 bits, one of them by zero, and an expansion over no value -/
theorem saturation_exact_past_limit :
    (sat (2 ^ 127)).mul (sat 2) = infinite
      ∧ prod [2 ^ 100, 2 ^ 100, 0] = prod [0, 2 ^ 100, 2 ^ 100]
      ∧ (infinite.mul (finite 3)).le (infinite.mul infinite) = true
      ∧ (fullExpansion 4 2 0 1).le (fullExpansion 4 2 0 5) = true := by
  obtain ⟨hops, -, -, -, hperm, hcosts, hnumbers⟩ := saturation_exact
  exact ⟨(hops _ _).1.trans (sat_of_lt (by decide)), (hperm _ _ (by decide)).1,
    ((hcosts (finite 3) infinite (by decide)).1 infinite).2.1,
    ((hnumbers 1 5 (by decide)).2.2 2).2.2 4 0 (.inr (by decide))⟩

/-- over no value, an expansion on nobody costs more than one on somebody -/
theorem fullExpansion_falls : 0 ≤ 5 ∧ fullExpansion 4 2 0 0 = finite 2
    ∧ fullExpansion 4 2 0 5 = finite 0
    ∧ (fullExpansion 4 2 0 0).le (fullExpansion 4 2 0 5) = false := by
  decide

end Cost

end LiftedElimination
