import LiftedElimination.Proofs.GroundingCount
import LiftedElimination.Proofs.Comparison

/-!
# Rewriting constraints

A substitution replaces both sides of every inequality at once.  An inequality of two constants is
dropped, one of two equal terms is a violation, and every other one is written in its canonical form.

* `Constraint.IsCanonical`   the smaller of two variables stands first;
* `Constraint.sides`         the two terms that an inequality keeps apart, in no order;
* `isCanonical_of_apply`     **a rewritten inequality is in canonical form**;
* `apply_eq_of_pairs`        **it does not matter how an inequality was written**;
* `apply_exact`              what a substitution makes of a set of inequalities.
-/

namespace LiftedElimination

namespace Constraint

variable {c d : Constraint}

/-- of two variables the smaller one stands first -/
def IsCanonical (c : Constraint) : Prop := ∀ y, c.second = .var y → compare c.first y = .lt

/-- the terms that are to differ, in no order -/
def sides (c : Constraint) : Sym2 Term := s(.var c.first, c.second)

/-- an inequality that `ordered` leaves alone is in canonical form, unless its sides are the same -/
theorem isCanonical_of_ordered (h : ordered c.first c.second = c) (hc : c.isContradiction = false) :
    c.IsCanonical := by
  intro y hy
  rw [hy, ordered_var] at h
  cases hxy : compare c.first y with
  | lt => rfl
  | eq =>
    have heq : c.second = .var c.first :=
      hy.trans (congrArg Term.var (Std.LawfulEqOrd.eq_of_compare hxy).symm)
    rw [isContradiction_iff.mpr heq] at hc
    cases hc
  | gt =>
    -- the sides would have been swapped
    rw [if_pos (Std.OrientedCmp.lt_of_gt hxy)] at h
    have hfirst : y = c.first := congrArg Constraint.first h
    rw [hfirst] at hxy
    exact absurd (Std.OrientedCmp.lt_of_gt hxy) SortedSet.not_lt_self

/-- inequalities of the same terms are rewritten alike -/
theorem apply_eq_of_sides (h : c.sides = d.sides) (s : Substitution) :
    c.apply s = d.apply s ∧ (c.isViolatedBy s = true ↔ d.isViolatedBy s = true) := by
  simp only [isViolatedBy, beq_iff_eq, Constraint.apply]
  rcases Sym2.eq_iff.mp h with ⟨hfirst, hsecond⟩ | ⟨hfirst, hsecond⟩
  · rw [hfirst, hsecond]
    exact ⟨rfl, Iff.rfl⟩
  · rw [hfirst, hsecond, between_comm]
    exact ⟨rfl, eq_comm⟩

end Constraint

namespace ConstraintSet

variable {cs ds es : ConstraintSet} {s : Substitution}

/-- the pairs of terms that are to differ -/
def pairs (cs : ConstraintSet) : Set (Sym2 Term) := {p | ∃ c ∈ cs, c.sides = p}

/-- **A rewritten inequality is in canonical form.** -/
theorem isCanonical_of_apply (h : cs.apply s = some ds) {d : Constraint} (hd : d ∈ ds) :
    d.IsCanonical :=
  Constraint.isCanonical_of_ordered (isOrdered_of_apply h d hd) (not_isContradiction_of_apply h hd)

/-- what only depends on the terms of an inequality is found in one set as in the other -/
theorem exists_mem_iff (h : cs.pairs = es.pairs) {P : Constraint → Prop}
    (hP : ∀ c d : Constraint, c.sides = d.sides → (P c ↔ P d)) :
    (∃ c ∈ cs, P c) ↔ ∃ c ∈ es, P c := by
  have hsub : ∀ {cs es : ConstraintSet}, cs.pairs = es.pairs → (∃ c ∈ cs, P c) → ∃ c ∈ es, P c := by
    rintro cs es h ⟨c, hc, hPc⟩
    have hmem : c.sides ∈ es.pairs := h ▸ ⟨c, hc, rfl⟩
    obtain ⟨d, hd, hdc⟩ := hmem
    exact ⟨d, hd, (hP d c hdc).mpr hPc⟩
  exact ⟨hsub h, hsub h.symm⟩

/-- **It does not matter how an inequality was written**, also where one is violated. -/
theorem apply_eq_of_pairs (h : cs.pairs = es.pairs) (s : Substitution) : cs.apply s = es.apply s := by
  have hnone : cs.apply s = none ↔ es.apply s = none := by
    rw [apply_eq_none, apply_eq_none]
    exact exists_mem_iff h fun c d hcd => (Constraint.apply_eq_of_sides hcd s).2
  cases hcs : cs.apply s with
  | none => exact (hnone.mp hcs).symm
  | some ds =>
    cases hes : es.apply s with
    | none => cases (hnone.mpr hes).symm.trans hcs
    | some fs =>
      refine congrArg some (SortedSet.ext_mem fun k => ?_)
      rw [mem_of_apply hcs, mem_of_apply hes]
      exact exists_mem_iff h fun c d hcd => by rw [(Constraint.apply_eq_of_sides hcd s).1]

/-- **Rewriting is exact.**  The rewritten inequalities hold under a valuation where the old ones hold
under the values of the replaced variables, and are in canonical form; if one of them is violated, no
valuation makes all of them hold; and the result depends on the pairs of terms that are to differ
only. -/
theorem apply_exact (cs : ConstraintSet) (s : Substitution) :
    (∀ ds, cs.apply s = some ds →
        (∀ γ : Valuation, ds.Holds γ ↔ cs.Holds fun x => (s.apply (.var x)).eval γ)
          ∧ ∀ d ∈ ds, d.IsCanonical)
      ∧ (cs.apply s = none → ∀ γ : Valuation, ¬ cs.Holds fun x => (s.apply (.var x)).eval γ)
      ∧ ∀ es : ConstraintSet, cs.pairs = es.pairs → cs.apply s = es.apply s :=
  ⟨fun _ h => ⟨holds_apply h, fun _ => isCanonical_of_apply h⟩, not_holds_of_apply_none,
    fun _ h => apply_eq_of_pairs h s⟩

end ConstraintSet

namespace Epidemic

/-- two people, the second of them not the first one listed -/
def acquainted : ConstraintSet :=
  .ofList [.ordered person (.var contact), .ordered contact (.const ⟨"x1"⟩)]

/-- the two change their places -/
def exchange : Substitution :=
  ⟨[⟨person, .var contact⟩, ⟨contact, .var person⟩], by decide⟩

/-- an exchange turns the inequality of the two around, which is written as before; nobody is
acquainted with himself -/
theorem apply_exact_exchange :
    acquainted.apply exchange
        = some (.ofList [.ordered person (.const ⟨"x1"⟩), .ordered person (.var contact)])
      ∧ (∀ γ : Valuation, ConstraintSet.Holds
          (.ofList [.ordered person (.const ⟨"x1"⟩), .ordered person (.var contact)]) γ
            ↔ acquainted.Holds fun x => (exchange.apply (.var x)).eval γ)
      ∧ acquainted.apply (.single ⟨person, .var contact⟩) = none
      ∧ ∀ γ : Valuation, ¬ acquainted.Holds fun x =>
          ((Substitution.single ⟨person, .var contact⟩).apply (.var x)).eval γ := by
  have hexchange : acquainted.apply exchange
      = some (.ofList [.ordered person (.const ⟨"x1"⟩), .ordered person (.var contact)]) := by
    decide
  have hmerge : acquainted.apply (.single ⟨person, .var contact⟩) = none := by decide
  exact ⟨hexchange, ((ConstraintSet.apply_exact _ _).1 _ hexchange).1, hmerge,
    (ConstraintSet.apply_exact _ _).2.1 hmerge⟩

end Epidemic

end LiftedElimination
