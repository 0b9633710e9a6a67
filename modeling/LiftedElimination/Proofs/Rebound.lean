import LiftedElimination.Proofs.Reading

/-!
# Bound variables renamed

A counting formula with another bound variable counts the same individuals, provided that the new
variable is not free in it and has the same population.

* `mem_exclusions_withBound`   the terms that the bound variable differs from are the same;
* `Valid.withBound`            the formula stays a checked one;
* `read_withBound`, `owned_withBound`   it reads and owns the same.
-/

namespace LiftedElimination

open Finset

namespace Constraint

/-- an inequality of `b` becomes one of the variable that replaces `b` -/
theorem apply_rebound {c : Constraint} {b : LogVar} {t : Term} (h : c.other? b = some t)
    (ht : t ≠ .var b) (x : LogVar) : c.apply (.single ⟨b, .var x⟩) = some (ordered x t) := by
  have hself : (Substitution.single ⟨b, .var x⟩).apply (.var b) = .var x :=
    Substitution.apply_single_self b (.var x)
  unfold other? at h
  split at h
  · rename_i hfirst
    cases h
    have hsecond : (Substitution.single ⟨b, .var x⟩).apply c.second = c.second := by
      cases hc : c.second with
      | const d => rfl
      | var y => exact Substitution.apply_single_ne fun hy => ht (hc.trans (congrArg _ hy))
    rw [apply, hfirst, hself, hsecond]
    rfl
  · rename_i hfirst
    split at h
    · rename_i hsecond
      cases h
      rw [apply, hsecond, hself, Substitution.apply_single_ne hfirst]
      exact congrArg some (ordered_comm c.first x)
    · cases h

end Constraint

namespace CountingFormula

variable {f : CountingFormula} {x : LogVar} {γ : Valuation} {w : World}

theorem mem_constraints_withBound (hf : f.Valid) {k : Constraint} :
    k ∈ (f.withBound x).constraints ↔ ∃ t ∈ f.exclusions, k = Constraint.ordered x t := by
  rw [show (f.withBound x).constraints
    = f.constraints.filterMap (·.apply (.single ⟨f.bound, .var x⟩)) from rfl, SortedSet.mem_filterMap]
  constructor
  · rintro ⟨c, hc, hk⟩
    obtain ⟨t, ht, hother⟩ := Constraint.exists_other? (hf.satisfiable c hc) (hf.mentions c hc)
    rw [Constraint.apply_rebound hother ht] at hk
    exact ⟨t, mem_exclusions.mpr ⟨c, hc, hother⟩, (Option.some.inj hk).symm⟩
  · rintro ⟨t, ht, rfl⟩
    obtain ⟨c, hc, hother⟩ := mem_exclusions.mp ht
    exact ⟨c, hc, Constraint.apply_rebound hother (hf.ne_var_bound ht) x⟩

theorem ne_var_of_notMem (hx : x ∉ f.freeVars) {t : Term} (ht : t ∈ f.exclusions) : t ≠ .var x := by
  rintro rfl
  exact hx (mem_freeVars.mpr (.inr (mem_excludedVars_iff.mpr ht)))

/-- the bound variable differs from the same terms -/
theorem mem_exclusions_withBound (hf : f.Valid) (hx : x ∉ f.freeVars) {t : Term} :
    t ∈ (f.withBound x).exclusions ↔ t ∈ f.exclusions := by
  rw [mem_exclusions]
  constructor
  · rintro ⟨c, hc, hother⟩
    obtain ⟨u, hu, rfl⟩ := (mem_constraints_withBound hf).mp hc
    rw [show (f.withBound x).bound = x from rfl,
      Constraint.other?_ordered (ne_var_of_notMem hx hu)] at hother
    exact Option.some.inj hother ▸ hu
  · intro ht
    exact ⟨_, (mem_constraints_withBound hf).mpr ⟨t, ht, rfl⟩,
      Constraint.other?_ordered (ne_var_of_notMem hx ht)⟩

theorem mem_excludedVars_withBound (hf : f.Valid) (hx : x ∉ f.freeVars) {y : LogVar} :
    y ∈ (f.withBound x).excludedVars ↔ y ∈ f.excludedVars := by
  rw [mem_excludedVars_iff, mem_excludedVars_iff, mem_exclusions_withBound hf hx]

theorem Valid.withBound (hf : f.Valid) (hx : x ∉ f.freeVars) : (f.withBound x).Valid where
  bound_mem := Atom.mem_variables_apply.mpr
    ⟨f.bound, hf.bound_mem, Substitution.apply_single_self f.bound (.var x)⟩
  mentions c hc := by
    obtain ⟨t, -, rfl⟩ := (mem_constraints_withBound hf).mp hc
    exact Constraint.mem_variables_ordered.mpr (.inl rfl)
  satisfiable c hc := by
    obtain ⟨t, ht, rfl⟩ := (mem_constraints_withBound hf).mp hc
    by_contra hcon
    exact ne_var_of_notMem hx ht
      (Constraint.isContradiction_ordered.mp (Bool.eq_true_of_not_eq_false hcon))

/-- **The same individuals are counted.** -/
theorem counted_withBound (hf : f.Valid) (hx : x ∉ f.freeVars)
    (hpop : x.population = f.bound.population) (γ : Valuation) :
    (f.withBound x).counted γ = f.counted γ := by
  ext c
  rw [(hf.withBound hx).mem_counted_iff, hf.mem_counted_iff, mem_individuals, mem_individuals,
    mem_exclusions_withBound hf hx]
  simp only [mem_excludedVars_withBound hf hx]
  rw [show (f.withBound x).bound = x from rfl, hpop]

theorem member_withBound (hx : x ∉ f.freeVars) (c : Constant) :
    (f.withBound x).member γ c = f.member γ c := by
  show (f.inner.apply _).groundVar (Function.update γ x c) = _
  rw [Atom.groundVar_apply, Substitution.pull_single, Term.eval_var, Function.update_self]
  refine Atom.groundVar_congr fun y hy => ?_
  by_cases hyb : y = f.bound
  · rw [hyb, Function.update_self, Function.update_self]
  · have hyx : y ≠ x := fun h => hx (mem_freeVars.mpr (.inl ⟨h ▸ hy, fun h' => hyb (h.trans h')⟩))
    rw [Function.update_of_ne hyb, Function.update_of_ne hyb, Function.update_of_ne hyx]

theorem histogram_withBound (hf : f.Valid) (hx : x ∉ f.freeVars)
    (hpop : x.population = f.bound.population) :
    (f.withBound x).histogram γ w = f.histogram γ w := by
  unfold histogram
  rw [counted_withBound hf hx hpop]
  simp only [member_withBound hx]
  rfl

theorem domainSize_withBound (hf : f.Valid) (hx : x ∉ f.freeVars)
    (hpop : x.population = f.bound.population) (hexact : f.Exact γ)
    (hexact' : (f.withBound x).Exact γ) : (f.withBound x).domainSize = f.domainSize := by
  rw [← hexact.card, ← hexact'.card, counted_withBound hf hx hpop]

theorem mem_freeVars_withBound (hf : f.Valid) (hx : x ∉ f.freeVars) {y : LogVar} :
    y ∈ (f.withBound x).freeVars ↔ y ∈ f.freeVars := by
  rw [mem_freeVars, mem_freeVars, mem_excludedVars_withBound hf hx]
  refine or_congr_left ?_
  rw [show (f.withBound x).bound = x from rfl,
    show (f.withBound x).inner = f.inner.apply (.single ⟨f.bound, .var x⟩) from rfl,
    Atom.mem_variables_apply]
  constructor
  · rintro ⟨⟨z, hz, hzy⟩, hyx⟩
    rcases Substitution.apply_single_eq_var.mp hzy with ⟨heq, hne⟩ | ⟨-, ht⟩
    · cases heq
      exact ⟨hz, hne⟩
    · exact absurd (Term.var.inj ht).symm hyx
  · rintro ⟨hy, hyb⟩
    refine ⟨⟨y, hy, Substitution.apply_single_ne hyb⟩, ?_⟩
    rintro rfl
    exact hx (mem_freeVars.mpr (.inl ⟨hy, hyb⟩))

end CountingFormula

namespace Prv

variable {f : CountingFormula} {x : LogVar} {γ : Valuation}

theorem histograms_withBound (hf : f.Valid) (hx : x ∉ f.freeVars)
    (hpop : x.population = f.bound.population) (hexact : f.Exact γ)
    (hexact' : (f.withBound x).Exact γ) : (f.withBound x).histograms = f.histograms := by
  unfold CountingFormula.histograms
  rw [CountingFormula.domainSize_withBound hf hx hpop hexact hexact']
  rfl

theorem rangeSize_withBound (hf : f.Valid) (hx : x ∉ f.freeVars)
    (hpop : x.population = f.bound.population) (hexact : f.Exact γ)
    (hexact' : (f.withBound x).Exact γ) : (f.withBound x).rangeSize = f.rangeSize := by
  unfold CountingFormula.rangeSize
  rw [CountingFormula.domainSize_withBound hf hx hpop hexact hexact']
  rfl

theorem read_withBound (hf : f.Valid) (hx : x ∉ f.freeVars)
    (hpop : x.population = f.bound.population) (hexact : f.Exact γ)
    (hexact' : (f.withBound x).Exact γ) (w : World) :
    (count (f.withBound x)).read γ w = (count f).read γ w := by
  rw [read_count, read_count, histograms_withBound hf hx hpop hexact hexact',
    CountingFormula.histogram_withBound hf hx hpop]

theorem tabular_withBound (hf : f.Valid) (hx : x ∉ f.freeVars)
    (hpop : x.population = f.bound.population) (hexact : f.Exact γ)
    (hexact' : (f.withBound x).Exact γ) (h : (count (f.withBound x)).Tabular) :
    (count f).Tabular := by
  show f.histograms.length = f.rangeSize
  rw [← histograms_withBound hf hx hpop hexact hexact',
    ← rangeSize_withBound hf hx hpop hexact hexact']
  exact h

theorem owned_withBound (hf : f.Valid) (hx : x ∉ f.freeVars)
    (hpop : x.population = f.bound.population) :
    (count (f.withBound x)).owned γ = (count f).owned γ := by
  rw [owned_count, owned_count, CountingFormula.counted_withBound hf hx hpop]
  exact image_congr fun c _ => CountingFormula.member_withBound hx c

end Prv

end LiftedElimination
