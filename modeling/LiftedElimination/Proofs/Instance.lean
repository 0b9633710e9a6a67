import LiftedElimination.Proofs.Substituted

/-!
# Instances and splits

Under a binding `X/t` the groundings of a potential are those before it that give `X` and `t` the
same value.  So a split divides the groundings, and the parts together mean what the potential
meant.

* `bijOn_restrict`         the groundings of an instance;
* `prod_instance`          products over these;
* `Parfactor.meaning_apply`    the instance of a parfactor;
* `Parfactor.restates_split`   the two parts of a split;
* the same for aggregation parfactors.
-/

namespace LiftedElimination

open Finset

variable {K : Type}

theorem ConstraintSet.mem_variables_insert {cs : ConstraintSet} {b : Binding} {z : LogVar} :
    z ∈ ConstraintSet.variables (cs.insert (.ofBinding b))
      ↔ z = b.source ∨ b.target = .var z ∨ z ∈ cs.variables := by
  rw [ConstraintSet.mem_variables, ConstraintSet.mem_variables]
  constructor
  · rintro ⟨c, hc, hz⟩
    rcases SortedSet.mem_insert.mp hc with rfl | hc
    · exact (Constraint.mem_variables_ordered.mp hz).imp_right .inl
    · exact .inr (.inr ⟨c, hc, hz⟩)
  · rintro (hz | hz | ⟨c, hc, hz⟩)
    · exact ⟨_, SortedSet.mem_insert.mpr (.inl rfl), Constraint.mem_variables_ordered.mpr (.inl hz)⟩
    · exact ⟨_, SortedSet.mem_insert.mpr (.inl rfl), Constraint.mem_variables_ordered.mpr (.inr hz)⟩
    · exact ⟨c, SortedSet.mem_insert.mpr (.inr hc), hz⟩

/-! ## groundings of an instance -/

/-- the binding is one of a variable of `vars` to another one of its population, or to an individual
of it -/
structure Binds (vars : List LogVar) (b : Binding) : Prop where
  source_mem : b.source ∈ vars
  target_ne : b.target ≠ .var b.source
  const : ∀ c, b.target = .const c → c ∈ b.source.population
  var : ∀ y, b.target = .var y → y ∈ vars ∧ y.population = b.source.population

theorem SplitsOn.binds {vars : List LogVar} {cs : ConstraintSet} {b : Binding}
    (h : SplitsOn vars cs b) : Binds vars b := ⟨h.source_mem, h.target_ne, h.const, h.var⟩

namespace Binds

variable {vars ws : List LogVar} {cs ds : ConstraintSet} {b : Binding} {γ δ : Valuation}

theorem apply_cases (hb : Binds vars b) {x : LogVar} (hx : x ∈ vars) :
    (∃ z, (Substitution.single b).apply (.var x) = .var z ∧ z ∈ vars ∧ z ≠ b.source
        ∧ z.population = x.population)
      ∨ ∃ c, (Substitution.single b).apply (.var x) = .const c ∧ c ∈ x.population := by
  by_cases hxs : x = b.source
  · subst hxs
    rw [Substitution.apply_single_self]
    cases ht : b.target with
    | const c => exact .inr ⟨c, rfl, hb.const c ht⟩
    | var y =>
      obtain ⟨hy, hpop⟩ := hb.var y ht
      exact .inl ⟨y, rfl, hy, fun h => hb.target_ne (ht.trans (congrArg _ h)), hpop⟩
  · exact .inl ⟨x, Substitution.apply_single_ne hxs, hx, hxs, rfl⟩

/-- the variables after the binding are those before it without the source -/
theorem mem_image_iff (hb : Binds vars b) {z : LogVar} :
    (∃ x ∈ vars, (Substitution.single b).apply (.var x) = .var z) ↔ z ∈ vars ∧ z ≠ b.source := by
  constructor
  · rintro ⟨x, hx, hxz⟩
    rcases hb.apply_cases hx with ⟨y, hy, hmem, hne, -⟩ | ⟨c, hc, -⟩
    · rw [hxz] at hy
      cases hy
      exact ⟨hmem, hne⟩
    · rw [hxz] at hc
      cases hc
  · exact fun ⟨hz, hne⟩ => ⟨z, hz, Substitution.apply_single_ne hne⟩

theorem pull_eq (b : Binding) (γ : Valuation) :
    (Substitution.single b).pull γ = Function.update γ b.source (b.target.eval γ) :=
  Substitution.pull_single b.source b.target γ

/-- the pulled valuation gives the source and the target one value -/
theorem pull_source (hb : Binds vars b) (γ : Valuation) :
    (Substitution.single b).pull γ b.source = b.target.eval ((Substitution.single b).pull γ) := by
  rw [pull_eq, Function.update_self]
  cases ht : b.target with
  | const c => rfl
  | var y =>
    have hy : y ≠ b.source := fun h => hb.target_ne (ht.trans (congrArg _ h))
    rw [Term.eval_var, Term.eval_var, Function.update_of_ne hy]

/-- where source and target agree, pulling changes nothing -/
theorem pull_of_eq (h : γ b.source = b.target.eval γ) : (Substitution.single b).pull γ = γ := by
  rw [pull_eq, ← h, Function.update_eq_self]

/-- the constraints of `cs` are about `vars`, or about a variable that stays outside -/
def Confined (cs : ConstraintSet) (vars ws : List LogVar) (b : Binding) : Prop :=
  ∀ c ∈ cs, (∀ x ∈ c.variables, x ∈ vars) ∨ ∃ x ∈ c.variables, x ≠ b.source ∧ x ∉ ws

theorem solves_apply (hb : Binds vars b) (h : cs.apply (.single b) = some ds)
    (hws : ∀ z, z ∈ ws ↔ z ∈ vars ∧ z ≠ b.source) (hin : Confined cs vars ws b) :
    γ.Solves ds ws ↔ ((Substitution.single b).pull γ).Solves cs vars := by
  constructor
  · intro hs
    refine ⟨fun x hx => ?_, fun c hc hv => ?_⟩
    · rcases hb.apply_cases hx with ⟨z, hz, hmem, hne, hpop⟩ | ⟨c, hc, hcx⟩
      · rw [Substitution.pull, hz, ← hpop]
        exact hs.mem z ((hws z).mpr ⟨hmem, hne⟩)
      · rw [Substitution.pull, hc]
        exact hcx
    · cases hca : c.apply (.single b) with
      | none =>
        refine (Constraint.holds_of_apply_none hca γ).mpr ?_
        by_contra hv
        have hnone := ConstraintSet.apply_eq_none.mpr ⟨c, hc, Bool.eq_true_of_not_eq_false hv⟩
        rw [h] at hnone
        cases hnone
      | some d =>
        refine (Constraint.holds_of_apply hca γ).mp
          (hs.holds d ((ConstraintSet.mem_of_apply h).mpr ⟨c, hc, hca⟩) fun z hz => ?_)
        obtain ⟨x, hx, hxz⟩ := (Constraint.mem_variables_of_apply hca).mp hz
        exact (hws z).mpr (hb.mem_image_iff.mp ⟨x, hv x hx, hxz⟩)
  · intro hs
    refine ⟨fun z hz => ?_, fun d hd hv => ?_⟩
    · obtain ⟨hmem, hne⟩ := (hws z).mp hz
      have hz' := hs.mem z hmem
      rwa [pull_eq, Function.update_of_ne hne] at hz'
    · obtain ⟨c, hc, hca⟩ := (ConstraintSet.mem_of_apply h).mp hd
      refine (Constraint.holds_of_apply hca γ).mpr (hs.holds c hc ?_)
      rcases hin c hc with hvars | ⟨x, hx, hxs, hxw⟩
      · exact hvars
      · have hxd := (Constraint.mem_variables_of_apply hca).mpr
          ⟨x, hx, Substitution.apply_single_ne hxs⟩
        exact absurd (hv x hxd) hxw

section
variable (hb : Binds vars b) (hws : ∀ z, z ∈ ws ↔ z ∈ vars ∧ z ≠ b.source)
include hb hws

/-- what a grounding gives to source and target alike is found again from its other values -/
theorem pull_restrict (heq : γ b.source = b.target.eval γ) {x : LogVar} (hx : x ∈ vars) :
    (Substitution.single b).pull (γ.restrict ws) x = γ x := by
  have heval : b.target.eval (γ.restrict ws) = b.target.eval γ := by
    cases ht : b.target with
    | const c => rfl
    | var y =>
      have hy : y ≠ b.source := fun h => hb.target_ne (ht.trans (congrArg _ h))
      exact Valuation.restrict_of_mem ((hws y).mpr ⟨(hb.var y ht).1, hy⟩)
  rw [pull_eq, heval]
  by_cases hxs : x = b.source
  · rw [hxs, Function.update_self, heq]
  · rw [Function.update_of_ne hxs, Valuation.restrict_of_mem ((hws x).mpr ⟨hx, hxs⟩)]

/-- **The groundings of an instance** are those that give source and target one value, restricted to
the other variables: none is gained, lost or doubled. -/
theorem bijOn_restrict (h : cs.apply (.single b) = some ds) (hin : Confined cs vars ws b) :
    Set.BijOn (fun γ : Valuation => γ.restrict ws)
      ↑((cs.solutions vars).filter fun γ => γ b.source = b.target.eval γ) ↑(ds.solutions ws) := by
  refine ⟨fun γ hγ => ?_, fun γ hγ ε hε heq => ?_, fun δ hδ => ?_⟩
  · obtain ⟨hsol, heq⟩ := mem_filter.mp hγ
    refine ConstraintSet.restrict_mem_solutions ((solves_apply hb h hws hin).mpr ?_)
    rw [pull_of_eq heq]
    exact ConstraintSet.solves_of_mem hsol
  · obtain ⟨hγ, hsame⟩ := mem_filter.mp hγ
    obtain ⟨hε, hsame'⟩ := mem_filter.mp hε
    refine ConstraintSet.eq_of_mem_solutions hγ hε fun x hx => ?_
    dsimp only at heq
    rw [← pull_restrict hb hws hsame hx, heq, pull_restrict hb hws hsame' hx]
  · have hsolves := (solves_apply hb h hws hin).mp (ConstraintSet.solves_of_mem hδ)
    have heval : b.target.eval (((Substitution.single b).pull δ).restrict vars)
        = b.target.eval ((Substitution.single b).pull δ) := by
      cases ht : b.target with
      | const c => rfl
      | var y => exact Valuation.restrict_of_mem (hb.var y ht).1
    refine ⟨((Substitution.single b).pull δ).restrict vars, mem_filter.mpr
      ⟨ConstraintSet.restrict_mem_solutions hsolves, ?_⟩, ?_⟩
    · rw [Valuation.restrict_of_mem hb.source_mem, heval]
      exact hb.pull_source δ
    · have hback : ∀ z ∈ ws, ((Substitution.single b).pull δ).restrict vars z = δ z := by
        intro z hz
        obtain ⟨hmem, hne⟩ := (hws z).mp hz
        rw [Valuation.restrict_of_mem hmem, pull_eq, Function.update_of_ne hne]
      refine @ConstraintSet.eq_of_mem_solutions ds ds _ _ _ (ConstraintSet.restrict_mem_solutions ?_)
        hδ fun z hz => ?_
      · exact (ConstraintSet.solves_of_mem hδ).congr fun z hz => (hback z hz).symm
      · exact (Valuation.restrict_of_mem hz).trans (hback z hz)

/-- **Products over the groundings of an instance** are products over the groundings that give
source and target one value. -/
theorem prod_instance [CommMonoid K] (h : cs.apply (.single b) = some ds)
    (hin : Confined cs vars ws b) {F G : Valuation → K}
    (hF : ∀ γ δ : Valuation, (∀ x ∈ vars, γ x = δ x) → F γ = F δ)
    (hG : ∀ δ ∈ ds.solutions ws, G δ = F ((Substitution.single b).pull δ)) :
    ∏ δ ∈ ds.solutions ws, G δ
      = ∏ γ ∈ (cs.solutions vars).filter fun γ => γ b.source = b.target.eval γ, F γ := by
  have hbij := bijOn_restrict hb hws h hin
  refine (prod_nbij _ hbij.mapsTo hbij.injOn hbij.surjOn fun γ hγ => ?_).symm
  rw [hG _ (hbij.mapsTo hγ)]
  exact hF _ _ fun x hx => (pull_restrict hb hws (mem_filter.mp hγ).2 hx).symm

end

end Binds

/-! ## parfactors -/

namespace Parfactor

variable {p q : Parfactor K} {b : Binding} {γ δ : Valuation} {w : World}

/-- a binding to a logical variable captures nothing -/
theorem Proper.admits (hp : p.Proper) (hb : Binds p.logVars b) : p.Admits (.single b) := by
  refine ⟨fun x hx => ?_, fun f hf x hx hxf => ?_⟩
  · exact (hb.apply_cases hx).imp_left fun ⟨z, hz, _, _, hpop⟩ => ⟨z, hz, hpop⟩
  · exact hp.bound f hf (hb.mem_image_iff.mp ⟨x, hx, hxf⟩).1

theorem Sound.admits (hp : p.Sound) (hb : Binds p.logVars b) : p.Admits (.single b) :=
  hp.proper.admits hb

/-- the variables of an instance are those of the parfactor without the source -/
theorem Proper.mem_logVars_instance (hp : p.Proper) (hb : Binds p.logVars b)
    (h : p.apply (.single b) = some q) (z : LogVar) :
    z ∈ q.logVars ↔ z ∈ p.logVars ∧ z ≠ b.source :=
  (hp.mem_logVars_apply (hp.admits hb) h).trans hb.mem_image_iff

theorem confined (p : Parfactor K) (ws : List LogVar) (b : Binding) :
    Binds.Confined p.constraints p.logVars ws b := fun c hc =>
  .inl fun _ hx => mem_logVars.mpr (.inr (ConstraintSet.mem_variables.mpr ⟨c, hc, hx⟩))

/-- **The instance means the part of the product where source and target agree.** -/
theorem meaning_apply [ExactScalar K] (hp : p.Proper) (haccurate : p.Accurate)
    (hb : Binds p.logVars b) (h : p.apply (.single b) = some q) (w : World) : q.meaning w
      = ∏ γ ∈ p.solutions.filter fun γ => γ b.source = b.target.eval γ, p.value γ w := by
  have hws := hp.mem_logVars_instance hb h
  have hvalue := fun δ hδ => value_apply (w := w) hp haccurate (hp.admits hb) h (δ := δ) hδ
  obtain ⟨ds, hds, hq⟩ := apply_eq_some h
  have hcs : q.constraints = ds := by rw [hq]
  rw [meaning, solutions, hcs]
  rw [solutions, hcs] at hvalue
  exact hb.prod_instance hws hds (confined p _ b) (fun γ δ hγδ => value_congr hp.valid hγδ) hvalue

/-! ### splits -/

theorem mem_logVars_residual (hb : Binds p.logVars b) {z : LogVar} :
    z ∈ Parfactor.logVars { p with constraints := p.constraints.insert (.ofBinding b) }
      ↔ z ∈ p.logVars := by
  rw [mem_logVars, mem_logVars, ConstraintSet.mem_variables_insert]
  constructor
  · rintro (hz | rfl | hz | hz)
    · exact .inl hz
    · exact mem_logVars.mp hb.source_mem
    · exact mem_logVars.mp (hb.var z hz).1
    · exact .inr hz
  · exact fun hz => hz.imp_right fun hz => .inr (.inr hz)

theorem solutions_residual (hb : Binds p.logVars b) :
    Parfactor.solutions { p with constraints := p.constraints.insert (.ofBinding b) }
      = p.solutions.filter fun γ => ¬ γ b.source = b.target.eval γ := by
  ext γ
  rw [mem_filter, mem_solutions, mem_solutions]
  simp only [mem_logVars_residual hb]
  show (_ ∧ ConstraintSet.Holds (p.constraints.insert (.ordered _ _)) γ) ∧ _ ↔ _
  rw [ConstraintSet.holds_insert, Constraint.holds_ordered]
  tauto

theorem sound_residual (hp : p.Sound) (hb : Binds p.logVars b) :
    Parfactor.Sound { p with constraints := p.constraints.insert (.ofBinding b) } := by
  have hsub : Parfactor.solutions { p with constraints := p.constraints.insert (.ofBinding b) }
      ⊆ p.solutions := by
    rw [solutions_residual hb]
    exact filter_subset _ _
  refine ⟨hp.valid, fun c hc => ?_, fun f hf hmem => hp.bound f hf ((mem_logVars_residual hb).mp hmem),
    fun γ hγ => hp.exact γ (hsub hγ), fun hne => hp.tabular (hne.mono hsub)⟩
  rcases SortedSet.mem_insert.mp hc with rfl | hc
  · by_contra hcon
    exact hb.target_ne
      (Constraint.isContradiction_ordered.mp (Bool.eq_true_of_not_eq_false hcon))
  · exact hp.satisfiable c hc

/-- **A split divides the groundings**: its parts together mean the parfactor. -/
theorem restates_split [ExactScalar K] {s : Split (Parfactor K)} (hp : p.Sound)
    (h : p.split b = .ok s) :
    Restates (.standard p) [.standard s.fragment, .standard s.residual] := by
  obtain ⟨hon, hfragment, hresidual⟩ := split_ok h
  have hb := hon.binds
  have hsub : Parfactor.scope { p with constraints := p.constraints.insert (.ofBinding b) }
      ⊆ p.scope := by
    rw [scope, solutions_residual hb]
    exact biUnion_subset_biUnion_of_subset_left _ (filter_subset _ _)
  constructor
  · intro d hd
    simp only [List.mem_cons, List.not_mem_nil, or_false] at hd
    rcases hd with rfl | rfl
    · exact hp.apply (hp.admits hb) hfragment
    · rw [hresidual]
      exact sound_residual hp hb
  · intro d hd
    simp only [List.mem_cons, List.not_mem_nil, or_false] at hd
    rcases hd with rfl | rfl
    · exact scope_apply hp.proper (hp.admits hb) hfragment
    · rw [hresidual]
      exact hsub
  · intro w _
    rw [meaningOf_cons, meaningOf_cons, meaningOf_nil, mul_one]
    show s.fragment.meaning w * s.residual.meaning w = p.meaning w
    rw [meaning_apply hp.proper hp.accurate hb hfragment, hresidual]
    show _ * ∏ γ ∈ Parfactor.solutions { p with constraints := _ }, p.value γ w = _
    rw [solutions_residual hb]
    exact prod_filter_mul_prod_filter_not _ _ _

end Parfactor

/-! ## aggregation parfactors -/

theorem Substitution.without_single {b : Binding} {x : LogVar} (h : b.source ≠ x) :
    (single b).without (· = x) = single b := by
  have hkeep : (!decide (b.source = x)) = true := by simpa using h
  unfold without single
  congr 1
  exact List.filter_cons_of_pos hkeep

namespace Aggregation

variable {a a' : Aggregation K} {b : Binding} {γ δ : Valuation} {w : World}

theorem mem_logVars {x : LogVar} : x ∈ a.logVars ↔
    ((∃ c ∈ a.atoms, x ∈ c.variables) ∨ x ∈ a.constraints.variables) ∧ x ≠ a.extra := by
  rw [logVars, List.mem_filter, mem_addVars, mem_addVars, List.mem_flatMap, decide_eq_true_eq]
  simp

theorem extra_notMem_logVars (a : Aggregation K) : a.extra ∉ a.logVars :=
  fun h => (mem_logVars.mp h).2 rfl

theorem parent_mem_atoms (a : Aggregation K) : a.parent ∈ a.atoms := List.mem_cons_self

theorem child_mem_atoms (a : Aggregation K) : a.child ∈ a.atoms :=
  List.mem_cons_of_mem _ List.mem_cons_self

theorem context_mem_atoms {c : Atom} (hc : c ∈ a.context) : c ∈ a.atoms :=
  List.mem_cons_of_mem _ (List.mem_cons_of_mem _ hc)

/-- a constraint that mentions the extra variable is about nothing else that is no logical variable -/
theorem confined (a : Aggregation K) {ws : List LogVar} (hws : a.extra ∉ ws)
    (hb : Binds a.logVars b) : Binds.Confined a.constraints a.logVars ws b := by
  intro c hc
  by_cases hextra : a.extra ∈ c.variables
  · exact .inr ⟨a.extra, hextra, fun h => a.extra_notMem_logVars (h ▸ hb.source_mem), hws⟩
  · refine .inl fun x hx => mem_logVars.mpr ⟨.inr ?_, fun h => hextra (h ▸ hx)⟩
    exact ConstraintSet.mem_variables.mpr ⟨c, hc, hx⟩

/-- where there is a grounding, the formula of the parents is a checked one -/
theorem Sound.valid (ha : a.Sound) (hγ : γ ∈ a.solutions) : a.formula.Valid where
  bound_mem := ha.extra_mem
  mentions c hc := (ConstraintSet.mem_onVariable.mp hc).2
  satisfiable c hc := by
    have hexact := ha.exact γ hγ
    have hpos : 0 < (a.formula.counted γ).card := hexact.card.symm ▸ hexact.pos
    obtain ⟨d, hd⟩ := card_pos.mp hpos
    by_contra hcon
    exact Constraint.not_holds_of_isContradiction (Bool.eq_true_of_not_eq_false hcon) _
      ((CountingFormula.mem_counted.mp hd).2 c hc)

theorem excludedVars_subset {x : LogVar} (hf : a.formula.Valid) (hx : x ∈ a.formula.excludedVars) :
    x ∈ a.logVars := by
  obtain ⟨c, hc, hcx⟩ := CountingFormula.mem_excludedVars.mp hx
  refine mem_logVars.mpr ⟨.inr ?_, hf.ne_bound hx⟩
  exact ConstraintSet.mem_variables.mpr ⟨c, (ConstraintSet.mem_onVariable.mp hc).1,
    (Constraint.mem_variables_of_otherVar? hcx).2.1⟩

theorem freeVars_subset {x : LogVar} (hf : a.formula.Valid) (hx : x ∈ a.formula.freeVars) :
    x ∈ a.logVars := by
  rcases CountingFormula.mem_freeVars.mp hx with ⟨hparent, hne⟩ | hexcluded
  · exact mem_logVars.mpr ⟨.inl ⟨a.parent, a.parent_mem_atoms, hparent⟩, hne⟩
  · exact excludedVars_subset hf hexcluded

theorem avoids (hb : Binds a.logVars b) {x : LogVar} (hx : x ≠ a.extra) :
    (Substitution.single b).apply (.var x) ≠ .var a.extra := by
  intro h
  rcases Substitution.apply_single_eq_var.mp h with ⟨heq, -⟩ | ⟨-, ht⟩
  · exact hx (Term.var.inj heq)
  · exact a.extra_notMem_logVars (hb.var _ ht).1

theorem formula_avoids (hf : a.formula.Valid) (hb : Binds a.logVars b) :
    a.formula.Avoids (.single b) := by
  intro x hx
  refine avoids hb ?_
  rintro rfl
  exact hf.bound_notMem_freeVars hx

/-- what the instance is made of -/
theorem apply_single (hb : Binds a.logVars b) (h : a.apply (.single b) = some a') :
    ∃ ds, a.constraints.apply (.single b) = some ds
      ∧ a' = { a with
          constraints := ds, parent := a.parent.apply (.single b),
          child := a.child.apply (.single b), context := a.context.map (·.apply (.single b)) } := by
  have hsource : b.source ≠ a.extra := fun h => a.extra_notMem_logVars (h ▸ hb.source_mem)
  obtain ⟨ds, hds, ha'⟩ := apply_eq_some h
  rw [Substitution.without_single hsource] at hds ha'
  exact ⟨ds, hds, ha'⟩

theorem mem_logVars_apply (hb : Binds a.logVars b) (h : a.apply (.single b) = some a')
    {z : LogVar} : z ∈ a'.logVars ↔ z ∈ a.logVars ∧ z ≠ b.source := by
  obtain ⟨ds, hds, rfl⟩ := apply_single hb h
  have hsource : b.source ≠ a.extra := fun h => a.extra_notMem_logVars (h ▸ hb.source_mem)
  rw [← hb.mem_image_iff, mem_logVars]
  have hatoms : ∀ z, (∃ c ∈ (a.parent.apply (.single b) :: a.child.apply (.single b)
        :: a.context.map (·.apply (.single b))), z ∈ c.variables)
      ↔ ∃ c ∈ a.atoms, ∃ x ∈ c.variables, (Substitution.single b).apply (.var x) = .var z := by
    intro z
    have hmap : (a.parent.apply (.single b) :: a.child.apply (.single b)
        :: a.context.map (·.apply (.single b))) = a.atoms.map (·.apply (.single b)) := rfl
    rw [hmap]
    constructor
    · rintro ⟨_, hc', hz⟩
      obtain ⟨c, hc, rfl⟩ := List.mem_map.mp hc'
      exact ⟨c, hc, Atom.mem_variables_apply.mp hz⟩
    · rintro ⟨c, hc, hz⟩
      exact ⟨_, List.mem_map_of_mem hc, Atom.mem_variables_apply.mpr hz⟩
  constructor
  · rintro ⟨hz, hne⟩
    have hback : ∀ x, (Substitution.single b).apply (.var x) = .var z → x ≠ a.extra := by
      rintro x hxz rfl
      rw [Substitution.apply_single_ne hsource.symm] at hxz
      exact hne (Term.var.inj hxz).symm
    rcases hz with hz | hz
    · obtain ⟨c, hc, x, hx, hxz⟩ := (hatoms z).mp hz
      exact ⟨x, mem_logVars.mpr ⟨.inl ⟨c, hc, hx⟩, hback x hxz⟩, hxz⟩
    · obtain ⟨x, hx, hxz⟩ := ConstraintSet.mem_variables_of_apply hds hz
      exact ⟨x, mem_logVars.mpr ⟨.inr hx, hback x hxz⟩, hxz⟩
  · rintro ⟨x, hx, hxz⟩
    have hne : z ≠ a.extra := fun h =>
      avoids hb (mem_logVars.mp hx).2 (hxz.trans (congrArg _ h))
    refine ⟨?_, hne⟩
    rcases (mem_logVars.mp hx).1 with ⟨c, hc, hxc⟩ | hxc
    · exact .inl ((hatoms z).mpr ⟨c, hc, x, hxc, hxz⟩)
    · exact .inr (ConstraintSet.mem_variables_apply hds hxc hxz)

theorem restrict_pull_mem (hb : Binds a.logVars b) (h : a.apply (.single b) = some a')
    (hδ : δ ∈ a'.solutions) :
    ((Substitution.single b).pull δ).restrict a.logVars ∈ a.solutions := by
  have hws := fun z => mem_logVars_apply hb h (z := z)
  have hextra : a'.extra ∉ a'.logVars := a'.extra_notMem_logVars
  obtain ⟨ds, hds, rfl⟩ := apply_single hb h
  exact ConstraintSet.restrict_mem_solutions
    ((hb.solves_apply hds hws (confined a hextra hb)).mp (ConstraintSet.solves_of_mem hδ))

/-- the formula of the parents under the binding -/
theorem formula_apply (hb : Binds a.logVars b)
    (h : a.apply (.single b) = some a') : a'.formula = a.formula.apply (.single b) := by
  have hsource : b.source ≠ a.extra := fun h => a.extra_notMem_logVars (h ▸ hb.source_mem)
  have hfix : (Substitution.single b).apply (.var a.extra) = .var a.extra :=
    Substitution.apply_single_ne hsource.symm
  obtain ⟨ds, hds, rfl⟩ := apply_single hb h
  have hconstraints : ds.onVariable a.extra
      = SortedSet.filterMap (·.apply (.single b)) a.constraintsOnExtra := by
    refine SortedSet.ext_mem fun d => ?_
    rw [ConstraintSet.mem_onVariable, SortedSet.mem_filterMap, ConstraintSet.mem_of_apply hds]
    constructor
    · rintro ⟨⟨c, hc, hcd⟩, hextra⟩
      obtain ⟨x, hx, hxe⟩ := (Constraint.mem_variables_of_apply hcd).mp hextra
      have hxa : x = a.extra := by
        by_contra hne
        exact avoids hb hne hxe
      exact ⟨c, ConstraintSet.mem_onVariable.mpr ⟨hc, hxa ▸ hx⟩, hcd⟩
    · rintro ⟨c, hc, hcd⟩
      obtain ⟨hc, hextra⟩ := ConstraintSet.mem_onVariable.mp hc
      exact ⟨⟨c, hc, hcd⟩, (Constraint.mem_variables_of_apply hcd).mpr ⟨_, hextra, hfix⟩⟩
  show (⟨a.extra, a.parent.apply (.single b), ds.onVariable a.extra⟩ : CountingFormula)
    = ⟨a.extra, a.parent.apply ((Substitution.single b).without (· = a.extra)),
        SortedSet.filterMap (·.apply ((Substitution.single b).without (· = a.extra)))
          a.constraintsOnExtra⟩
  rw [Substitution.without_single hsource, hconstraints]

theorem exact_pull (ha : a.Sound) (hb : Binds a.logVars b) (h : a.apply (.single b) = some a')
    (hδ : δ ∈ a'.solutions) : a.formula.Exact ((Substitution.single b).pull δ) := by
  have hmem := restrict_pull_mem hb h hδ
  have hf := ha.valid hmem
  refine Prv.exact_congr (q := .count a.formula) hf (fun x hx => ?_) (ha.exact _ hmem)
  exact Valuation.restrict_of_mem (freeVars_subset hf hx)

theorem groundVar_apply (hb : Binds a.logVars b) (c : Atom) (δ : Valuation) (d : Constant) :
    (c.apply (.single b)).groundVar (Function.update δ a.extra d)
      = c.groundVar (Function.update ((Substitution.single b).pull δ) a.extra d) := by
  have hsource : b.source ≠ a.extra := fun h => a.extra_notMem_logVars (h ▸ hb.source_mem)
  rw [Atom.groundVar_apply]
  refine Atom.groundVar_congr fun x _ => ?_
  by_cases hxe : x = a.extra
  · rw [hxe, Substitution.pull, Substitution.apply_single_ne hsource.symm, Function.update_self]
    exact Function.update_self _ _ _
  · rw [Function.update_of_ne hxe, Substitution.pull, Substitution.pull]
    cases ht : (Substitution.single b).apply (.var x) with
    | const e => rfl
    | var y =>
      have hye : y ≠ a.extra := fun h => avoids hb hxe (ht.trans (congrArg _ h))
      exact Function.update_of_ne hye _ _

/-- **An instance is as sound as the aggregation parfactor.** -/
theorem Sound.apply (ha : a.Sound) (hb : Binds a.logVars b) (h : a.apply (.single b) = some a') :
    a'.Sound := by
  have hexact : ∀ δ ∈ a'.solutions, a'.formula.Exact δ := by
    intro δ hδ
    have hf := ha.valid (restrict_pull_mem hb h hδ)
    rw [formula_apply hb h]
    exact (exact_pull ha hb h hδ).apply hf (formula_avoids hf hb)
  have hsource : b.source ≠ a.extra := fun h => a.extra_notMem_logVars (h ▸ hb.source_mem)
  have hfix : (Substitution.single b).apply (.var a.extra) = .var a.extra :=
    Substitution.apply_single_ne hsource.symm
  obtain ⟨ds, hds, rfl⟩ := apply_single hb h
  have hsizes : Aggregation.sizes { a with
      constraints := ds, parent := a.parent.apply (.single b),
      child := a.child.apply (.single b), context := a.context.map (·.apply (.single b)) }
        = a.sizes := by
    unfold sizes
    rw [List.map_map]
    rfl
  have hout : ∀ {c : Atom}, a.extra ∉ c.variables → a.extra ∉ (c.apply (.single b)).variables := by
    intro c hc hmem
    obtain ⟨x, hx, hxe⟩ := Atom.mem_variables_apply.mp hmem
    exact avoids hb (fun h => hc (h ▸ hx)) hxe
  refine ⟨Atom.mem_variables_apply.mpr ⟨_, ha.extra_mem, hfix⟩, fun z hz => ⟨?_, ?_⟩, fun c hc => ?_,
    ha.range, hexact, hsizes.symm ▸ ha.size, ha.small⟩
  · obtain ⟨x, hx, hxz⟩ := Atom.mem_variables_apply.mp hz
    exact Atom.mem_variables_apply.mpr ⟨x, (ha.child x hx).1, hxz⟩
  · rintro rfl
    exact hout (fun hmem => (ha.child _ hmem).2 rfl) hz
  · obtain ⟨c', hc', rfl⟩ := List.mem_map.mp hc
    exact hout (ha.context c' hc')

theorem owned_apply (hf : a.formula.Valid) (hb : Binds a.logVars b)
    (h : a.apply (.single b) = some a') (δ : Valuation) :
    a'.owned δ = a.owned ((Substitution.single b).pull δ) := by
  have hmembers : (a'.formula.counted δ).image (a'.formula.member δ)
      = (a.formula.counted ((Substitution.single b).pull δ)).image
          (a.formula.member ((Substitution.single b).pull δ)) := by
    rw [formula_apply hb h]
    exact Prv.owned_apply (q := .count a.formula) hf (formula_avoids hf hb)
  unfold owned
  rw [hmembers]
  obtain ⟨ds, -, rfl⟩ := apply_single hb h
  congr 1
  show insert ((a.child.apply (.single b)).groundVar δ)
    ((a.context.map (·.apply (.single b))).toFinset.image (·.groundVar δ)) = _
  rw [Atom.groundVar_apply]
  congr 1
  ext v
  simp [Atom.groundVar_apply]

theorem owned_congr (hf : a.formula.Valid) (ha : a.Sound) (h : ∀ x ∈ a.logVars, γ x = δ x) :
    a.owned γ = a.owned δ := by
  unfold owned
  have hmembers : (a.formula.counted γ).image (a.formula.member γ)
      = (a.formula.counted δ).image (a.formula.member δ) :=
    Prv.owned_congr (q := .count a.formula) hf fun x hx => h x (freeVars_subset hf hx)
  rw [hmembers]
  congr 2
  · refine Atom.groundVar_congr fun x hx => h x (mem_logVars.mpr ⟨.inl ⟨_, a.child_mem_atoms, hx⟩, ?_⟩)
    exact (ha.child x hx).2
  · refine image_congr fun c hc => Atom.groundVar_congr fun x hx => h x ?_
    have hc : c ∈ a.context := List.mem_toFinset.mp hc
    exact mem_logVars.mpr ⟨.inl ⟨c, context_mem_atoms hc, hx⟩, fun he => ha.context c hc (he ▸ hx)⟩

theorem scope_apply (ha : a.Sound) (hb : Binds a.logVars b) (h : a.apply (.single b) = some a') :
    a'.scope ⊆ a.scope := by
  intro v hv
  obtain ⟨δ, hδ, hv⟩ := mem_biUnion.mp hv
  have hmem := restrict_pull_mem hb h hδ
  have hf := ha.valid hmem
  refine mem_biUnion.mpr ⟨_, hmem, ?_⟩
  rw [owned_apply hf hb h] at hv
  rwa [owned_congr hf ha fun x hx => Valuation.restrict_of_mem hx]

section
variable [ExactScalar K]

theorem weight_congr (h : ∀ x ∈ a.logVars, γ x = δ x) (c : Constant) :
    a.weight (Function.update γ a.extra c) w = a.weight (Function.update δ a.extra c) w := by
  have hground : ∀ d ∈ a.atoms, d.groundVar (Function.update γ a.extra c)
      = d.groundVar (Function.update δ a.extra c) := by
    intro d hd
    refine Atom.groundVar_congr fun x hx => ?_
    by_cases hxe : x = a.extra
    · rw [hxe, Function.update_self, Function.update_self]
    · rw [Function.update_of_ne hxe, Function.update_of_ne hxe]
      exact h x (mem_logVars.mpr ⟨.inl ⟨d, hd, hx⟩, hxe⟩)
  unfold weight
  rw [hground _ a.parent_mem_atoms,
    List.map_congr_left fun d hd => congrArg w (hground d (context_mem_atoms hd))]

omit [ExactScalar K] in
theorem aggregate_congr (hf : a.formula.Valid) (h : ∀ x ∈ a.logVars, γ x = δ x) :
    a.aggregate γ w = a.aggregate δ w := by
  have hfree : ∀ x ∈ a.formula.freeVars, γ x = δ x := fun x hx => h x (freeVars_subset hf hx)
  unfold aggregate
  rw [hf.counted_congr hfree]
  simp only [CountingFormula.member_congr hfree]

theorem value_congr (ha : a.Sound) (hf : a.formula.Valid) (h : ∀ x ∈ a.logVars, γ x = δ x) :
    a.value γ w = a.value δ w := by
  have hchild : a.child.groundVar γ = a.child.groundVar δ := by
    refine Atom.groundVar_congr fun x hx => h x (mem_logVars.mpr ⟨.inl ⟨_, a.child_mem_atoms, hx⟩, ?_⟩)
    exact (ha.child x hx).2
  unfold value
  rw [hchild, aggregate_congr hf h, hf.counted_congr fun x hx => h x (freeVars_subset hf hx)]
  simp only [weight_congr h]

theorem value_apply (hf : a.formula.Valid) (hb : Binds a.logVars b)
    (h : a.apply (.single b) = some a') (δ : Valuation) (w : World) :
    a'.value δ w = a.value ((Substitution.single b).pull δ) w := by
  have hcounted : a'.formula.counted δ = a.formula.counted ((Substitution.single b).pull δ) := by
    rw [formula_apply hb h]
    exact CountingFormula.counted_apply hf (formula_avoids hf hb) δ
  have hmember : ∀ c, a'.formula.member δ c
      = a.formula.member ((Substitution.single b).pull δ) c := by
    intro c
    rw [formula_apply hb h]
    exact CountingFormula.member_apply (formula_avoids hf hb) δ c
  unfold value aggregate
  rw [hcounted]
  simp only [hmember]
  obtain ⟨ds, -, rfl⟩ := apply_single hb h
  congr 1
  · refine prod_congr rfl fun c _ => ?_
    unfold weight sizes
    rw [List.map_map, List.map_map]
    show a.factor.lookup _
      (w ((a.parent.apply (.single b)).groundVar (Function.update δ a.extra c))
        :: a.context.map fun d => w ((d.apply (.single b)).groundVar (Function.update δ a.extra c)))
      = _
    simp only [groundVar_apply hb]
    rfl
  · show (if w ((a.child.apply (.single b)).groundVar δ) = _ then (1 : K) else 0) = _
    rw [Atom.groundVar_apply]
    rfl

/-- **The instance means the part of the product where source and target agree.** -/
theorem meaning_apply (ha : a.Sound) (hb : Binds a.logVars b) (h : a.apply (.single b) = some a')
    (w : World) : a'.meaning w
      = ∏ γ ∈ a.solutions.filter fun γ => γ b.source = b.target.eval γ, a.value γ w := by
  have hws := fun z => mem_logVars_apply hb h (z := z)
  by_cases hne : a.solutions.Nonempty
  · obtain ⟨γ₀, hγ₀⟩ := hne
    have hf := ha.valid hγ₀
    have hvalue : ∀ δ ∈ a'.solutions, a'.value δ w = a.value ((Substitution.single b).pull δ) w :=
      fun δ _ => value_apply hf hb h δ w
    have hextra : a'.extra ∉ a'.logVars := a'.extra_notMem_logVars
    have ha'extra : a'.extra = a.extra := by
      obtain ⟨ds, -, rfl⟩ := apply_single hb h
      rfl
    rw [ha'extra] at hextra
    obtain ⟨ds, hds, ha'⟩ := apply_single hb h
    have hcs : a'.constraints = ds := by rw [ha']
    rw [meaning, solutions, hcs]
    rw [solutions, hcs] at hvalue
    exact hb.prod_instance hws hds (confined a hextra hb) (fun γ δ hγδ => value_congr ha hf hγδ)
      hvalue
  · -- without groundings the instance has none either
    have hempty := not_nonempty_iff_eq_empty.mp hne
    have hempty' : a'.solutions = ∅ := by
      refine eq_empty_of_forall_notMem fun δ hδ => hne ⟨_, restrict_pull_mem hb h hδ⟩
    rw [meaning, hempty', hempty, filter_empty, prod_empty, prod_empty]

end

/-! ### splits -/

theorem mem_logVars_residual (hb : Binds a.logVars b) {z : LogVar} :
    z ∈ Aggregation.logVars { a with constraints := a.constraints.insert (.ofBinding b) }
      ↔ z ∈ a.logVars := by
  rw [mem_logVars, mem_logVars, ConstraintSet.mem_variables_insert]
  constructor
  · rintro ⟨hz | rfl | hz | hz, hne⟩
    · exact ⟨.inl hz, hne⟩
    · exact mem_logVars.mp hb.source_mem
    · exact mem_logVars.mp (hb.var z hz).1
    · exact ⟨.inr hz, hne⟩
  · exact fun hz => ⟨hz.1.imp_right fun hz => .inr (.inr hz), hz.2⟩

theorem solutions_residual (hb : Binds a.logVars b) :
    Aggregation.solutions { a with constraints := a.constraints.insert (.ofBinding b) }
      = a.solutions.filter fun γ => ¬ γ b.source = b.target.eval γ := by
  have hvars : ∀ x ∈ (Constraint.ofBinding b).variables, x ∈ a.logVars := by
    intro x hx
    rcases Constraint.mem_variables_ordered.mp hx with rfl | hx
    · exact hb.source_mem
    · exact (hb.var x hx).1
  rw [solutions, ConstraintSet.solutions_congr fun z => mem_logVars_residual hb]
  ext γ
  rw [mem_filter, solutions, ConstraintSet.mem_solutions, ConstraintSet.mem_solutions]
  constructor
  · rintro ⟨hs, hd⟩
    refine ⟨⟨⟨hs.mem, fun c hc hv => hs.holds c (SortedSet.mem_insert.mpr (.inr hc)) hv⟩, hd⟩, ?_⟩
    exact (Constraint.holds_ordered _ _ _).mp
      (hs.holds _ (SortedSet.mem_insert.mpr (.inl rfl)) hvars)
  · rintro ⟨⟨hs, hd⟩, hne⟩
    refine ⟨⟨hs.mem, fun c hc hv => ?_⟩, hd⟩
    rcases SortedSet.mem_insert.mp hc with rfl | hc
    · exact (Constraint.holds_ordered _ _ _).mpr hne
    · exact hs.holds c hc hv

/-- the split does not touch the extra variable -/
theorem formula_residual (hb : Binds a.logVars b) :
    Aggregation.formula { a with constraints := a.constraints.insert (.ofBinding b) }
      = a.formula := by
  have hconstraints : ConstraintSet.onVariable (a.constraints.insert (.ofBinding b)) a.extra
      = a.constraints.onVariable a.extra := by
    refine SortedSet.ext_mem fun c => ?_
    rw [ConstraintSet.mem_onVariable, ConstraintSet.mem_onVariable]
    refine ⟨fun ⟨hc, hextra⟩ => ⟨?_, hextra⟩, fun ⟨hc, hextra⟩ =>
      ⟨SortedSet.mem_insert.mpr (.inr hc), hextra⟩⟩
    rcases SortedSet.mem_insert.mp hc with rfl | hc
    · rcases Constraint.mem_variables_ordered.mp hextra with h | h
      · exact absurd (h ▸ hb.source_mem) a.extra_notMem_logVars
      · exact absurd (hb.var _ h).1 a.extra_notMem_logVars
    · exact hc
  exact congrArg (CountingFormula.mk a.extra a.parent) hconstraints

/-- **A split divides the groundings**: its parts together mean the aggregation parfactor. -/
theorem restates_split [ExactScalar K] {s : Split (Aggregation K)} (ha : a.Sound)
    (h : a.split b = .ok s) :
    Restates (.aggregation a) [.aggregation s.fragment, .aggregation s.residual] := by
  obtain ⟨hon, hfragment, hresidual⟩ := split_ok h
  have hb := hon.binds
  have hsub : Aggregation.solutions { a with constraints := a.constraints.insert (.ofBinding b) }
      ⊆ a.solutions := by
    rw [solutions_residual hb]
    exact filter_subset _ _
  have howned : ∀ γ, Aggregation.owned { a with constraints := a.constraints.insert (.ofBinding b) } γ
      = a.owned γ := by
    intro γ
    unfold owned
    rw [formula_residual hb]
  constructor
  · intro d hd
    simp only [List.mem_cons, List.not_mem_nil, or_false] at hd
    rcases hd with rfl | rfl
    · exact ha.apply hb hfragment
    · rw [hresidual]
      exact ⟨ha.extra_mem, ha.child, ha.context, ha.range,
        fun γ hγ => (formula_residual hb).symm ▸ ha.exact γ (hsub hγ), ha.size, ha.small⟩
  · intro d hd
    simp only [List.mem_cons, List.not_mem_nil, or_false] at hd
    rcases hd with rfl | rfl
    · exact scope_apply ha hb hfragment
    · rw [hresidual]
      show (Aggregation.solutions _).biUnion _ ⊆ a.solutions.biUnion a.owned
      refine biUnion_subset.mpr fun γ hγ => ?_
      rw [howned]
      exact subset_biUnion_of_mem _ (hsub hγ)
  · intro w _
    have hvalue : ∀ γ,
        Aggregation.value { a with constraints := a.constraints.insert (.ofBinding b) } γ w
          = a.value γ w := by
      intro γ
      unfold value aggregate
      rw [formula_residual hb]
      rfl
    rw [meaningOf_cons, meaningOf_cons, meaningOf_nil, mul_one]
    show s.fragment.meaning w * s.residual.meaning w = a.meaning w
    rw [meaning_apply ha hb hfragment, hresidual, meaning, solutions_residual hb,
      prod_congr rfl fun γ _ => hvalue γ]
    exact prod_filter_mul_prod_filter_not _ _ _

end Aggregation

end LiftedElimination
