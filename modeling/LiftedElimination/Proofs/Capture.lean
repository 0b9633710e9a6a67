import LiftedElimination.Proofs.Expandable

/-!
# Captured variables

A substitution never replaces the bound variable of a counting formula, but it may put it in the place
of a free one.  What was the value of a free variable is the counted individual then, and the formula
counts other random variables than before.

* `counted_of_captured`   an excluded variable that is captured leaves nobody to count;
* `eq_empty_of_captured`  a captured variable of the atom makes the difference wherever somebody is
                          counted;
* `owned_apply_iff`       a substitution keeps what a formula counts just when it captures nothing.
-/

namespace LiftedElimination

open Finset

instance : Nontrivial Constant := ⟨⟨"x1"⟩, ⟨"x2"⟩, by decide⟩

namespace CountingFormula

variable {f : CountingFormula} {s : Substitution} {γ : Valuation} {x : LogVar}

/-- the value of the bound variable does not matter -/
theorem owned_update (f : CountingFormula) (γ : Valuation) (d : Constant) :
    (Prv.count f).owned (Function.update γ f.bound d) = (Prv.count f).owned γ := by
  have hcounted : f.counted (Function.update γ f.bound d) = f.counted γ := by
    simp only [counted, Function.update_idem]
  have hmember : f.member (Function.update γ f.bound d) = f.member γ := by
    funext c
    rw [member, member, Function.update_idem]
  rw [Prv.owned_count, Prv.owned_count, hcounted, hmember]

/-- who counts nobody owns nothing, and the other way round -/
theorem owned_eq_empty_iff : (Prv.count f).owned γ = ∅ ↔ f.counted γ = ∅ := by
  rw [Prv.owned_count, image_eq_empty]

/-- a bound variable that differs from itself leaves nobody -/
theorem counted_of_captured (hf : f.Valid) (hx : x ∈ f.excludedVars)
    (h : s.apply (.var x) = .var f.bound) (γ : Valuation) : (f.apply s).counted γ = ∅ := by
  refine eq_empty_of_forall_notMem fun c hc => ?_
  have hself : Constraint.ordered f.bound (.var f.bound) ∈ (f.apply s).constraints :=
    (mem_constraints_apply hf).mpr ⟨.var x, mem_excludedVars_iff.mp hx, by rw [h]⟩
  exact Constraint.not_holds_of_isContradiction (Constraint.isContradiction_ordered.mpr rfl) _
    ((mem_counted.mp hc).2 _ hself)

/-- the value of the captured variable can be read off what was counted, and has no part in what is
counted now -/
theorem eq_empty_of_captured (hx : x ∈ f.inner.variables) (hne : x ≠ f.bound)
    (h : s.apply (.var x) = .var f.bound)
    (hsame : ∀ γ, (Prv.count (f.apply s)).owned γ = (Prv.count f).owned (s.pull γ))
    (γ : Valuation) : f.counted (s.pull γ) = ∅ := by
  obtain ⟨d, hd⟩ : ∃ d : Constant, d ≠ γ f.bound := exists_ne _
  refine eq_empty_of_forall_notMem fun c hc => ?_
  have hmem : f.member (s.pull γ) c ∈ (Prv.count f).owned (s.pull (Function.update γ f.bound d)) := by
    rw [← hsame, show f.bound = (f.apply s).bound from rfl, owned_update, hsame]
    exact mem_image_of_mem _ hc
  obtain ⟨e, -, he⟩ := mem_image.mp hmem
  have hvalue := Atom.eq_of_ground_eq (congrArg RandomVariable.atom he) hx
  rw [Function.update_of_ne hne, Function.update_of_ne hne, Substitution.pull, Substitution.pull, h,
    Term.eval_var, Term.eval_var, Function.update_self] at hvalue
  exact hd hvalue

/-- **Substitution is exact just where nothing is captured.**  What a formula counts after a
substitution is what it counted before, its free variables having the values of their images: under
every valuation, if no free variable becomes the bound one, and else only if the formula counts
nobody. -/
theorem owned_apply_iff (hf : f.Valid) (s : Substitution) :
    (∀ γ, (Prv.count (f.apply s)).owned γ = (Prv.count f).owned (s.pull γ))
      ↔ f.Avoids s ∨ ∀ γ, f.counted (s.pull γ) = ∅ := by
  constructor
  · intro hsame
    refine or_iff_not_imp_left.mpr fun hcaptures γ => ?_
    simp only [Avoids, not_forall, not_not] at hcaptures
    obtain ⟨x, hx, hbound⟩ := hcaptures
    rcases mem_freeVars.mp hx with ⟨hinner, hne⟩ | hexcluded
    · exact eq_empty_of_captured hinner hne hbound hsame γ
    · rw [← owned_eq_empty_iff, ← hsame γ, owned_eq_empty_iff]
      exact counted_of_captured hf hexcluded hbound γ
  · rintro (havoids | hnobody) γ
    · exact Prv.owned_apply (q := .count f) hf havoids
    · rw [owned_eq_empty_iff.mpr (hnobody γ), owned_eq_empty_iff]
      by_cases hcaptures : ∃ x ∈ f.excludedVars, s.apply (.var x) = .var f.bound
      · obtain ⟨x, hx, hbound⟩ := hcaptures
        exact counted_of_captured hf hx hbound γ
      · rw [counted_apply_of_excludedVars hf fun x hx h => hcaptures ⟨x, hx, h⟩]
        exact hnobody γ

end CountingFormula

namespace Epidemic

/-- how many infect `Z`, and how many infect themselves: the first is what the substitution says, the
second is not -/
theorem owned_apply_iff_sources : sources.Valid
    ∧ (∀ γ, (Prv.count (sources.apply (.single ⟨other, .var named⟩))).owned γ
      = (Prv.count sources).owned ((Substitution.single ⟨other, .var named⟩).pull γ))
    ∧ ¬ ∀ γ, (Prv.count (sources.apply (.single ⟨other, .var person⟩))).owned γ
      = (Prv.count sources).owned ((Substitution.single ⟨other, .var person⟩).pull γ) := by
  refine ⟨valid_sources, (CountingFormula.owned_apply_iff valid_sources _).mpr (.inl ?_), ?_⟩
  · show ∀ x ∈ sources.freeVars, _ ≠ Term.var sources.bound
    decide
  · rw [CountingFormula.owned_apply_iff valid_sources]
    rintro (havoids | hnobody)
    · exact havoids other (by decide) (by decide)
    · have hsomebody : sources.counted ((Substitution.single ⟨other, .var person⟩).pull
          fun _ => ⟨"x1"⟩) ≠ ∅ := by decide
      exact hsomebody (hnobody _)

end Epidemic

end LiftedElimination
