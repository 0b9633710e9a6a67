import Mathlib.Analysis.SpecialFunctions.Pow.NNReal
import LiftedElimination.Scalar

/-!
# Exact arithmetic

`ExactScalar K` says that the operations on table entries are those of a commutative semiring:
powers, quotients of whole numbers that leave no rest, and powers to a quotient of numbers of
groundings that is a whole number.

* the natural numbers, which evaluate;
* the non-negative reals, with every root.
-/

namespace LiftedElimination

/-- table entries that are computed with exactly, with powers by counts of any size -/
class ExactScalar (K : Type) extends Scalar K, CommSemiring K where
  ofNat_eq : ∀ n : Nat, Scalar.ofNat n = (n : K)
  pow_eq : ∀ (x : K) (n : Nat), Scalar.pow x n = x ^ n
  powRatio_eq : ∀ (x : K) (n k : Nat), k ≠ 0 →
    Scalar.powRatio x (.finite (n * k)) (.finite k) = x ^ n
  mul_div_eq : ∀ n k : Nat, k ≠ 0 → ((n * k : Nat) : K) / (k : K) = (n : K)
  isOne_iff : ∀ x : K, Scalar.isOne x = true ↔ x = 1
  eq_of_compare : ∀ x y : K, compare x y = .eq → x = y

theorem transOrd_of_linearOrder {α : Type} [LinearOrder α] :
    Std.TransCmp (fun x y : α => compareOfLessAndEq x y) :=
  Std.TransOrd.compareOfLessAndEq_of_antisymm_of_trans_of_total_of_not_le
    le_antisymm le_trans le_total not_le

namespace ExactScalar

scoped instance : ExactScalar Nat where
  toCommSemiring := inferInstance
  ofNat n := n
  pow := Nat.pow
  powRatio x
    | .finite a, .finite b => x ^ (a / b)
    | _, _ => 1
  isOne x := x == 1
  isZero x := x == 0
  text := Nat.repr
  transOrd := inferInstance
  ofNat_eq _ := rfl
  pow_eq _ _ := rfl
  powRatio_eq _ n _ hk := congrArg _ (Nat.mul_div_cancel n (Nat.pos_of_ne_zero hk))
  mul_div_eq n _ hk := Nat.mul_div_cancel n (Nat.pos_of_ne_zero hk)
  isOne_iff _ := beq_iff_eq
  eq_of_compare _ _ := Nat.compare_eq_eq.mp

noncomputable scoped instance : ExactScalar NNReal where
  toCommSemiring := inferInstance
  div := (· / ·)
  compare x y := compareOfLessAndEq x y
  ofNat n := n
  pow x n := x ^ n
  powRatio x
    | .finite a, .finite b => x ^ ((a : ℝ) / b)
    | _, _ => 1
  isOne x := decide (x = 1)
  isZero x := decide (x = 0)
  text _ := ""
  transOrd := transOrd_of_linearOrder
  ofNat_eq _ := rfl
  pow_eq _ _ := rfl
  powRatio_eq x n k hk := by
    have hk' : (k : ℝ) ≠ 0 := Nat.cast_ne_zero.mpr hk
    show x ^ (((n * k : Nat) : ℝ) / k) = x ^ n
    rw [Nat.cast_mul, mul_div_cancel_right₀ _ hk', NNReal.rpow_natCast]
  mul_div_eq n k hk := by
    rw [Nat.cast_mul]
    exact mul_div_cancel_right₀ _ (Nat.cast_ne_zero.mpr hk)
  isOne_iff _ := decide_eq_true_iff
  eq_of_compare x y h := by
    unfold compareOfLessAndEq at h
    split_ifs at h with _ heq
    exact heq

end ExactScalar

end LiftedElimination
