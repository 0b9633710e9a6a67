import LiftedElimination.Proofs.Alignment
import LiftedElimination.Proofs.Capture
import LiftedElimination.Proofs.Idempotence
import LiftedElimination.Proofs.Refinable

/-!
# Equality up to the bound name

Two counting formulas are compared by giving the second the bound variable of the first.  That is a
change of name only as long as the variable is new to the second formula and ranges over the same
individuals.  Formulas compared in this way count the same random variables, and the comparison is an
equivalence; without either condition it holds of formulas that count different ones.

* `withBound_self`, `withBound_withBound`   renaming to the own name, and renaming twice;
* `CountingFormula.Renames`   one formula is the other under its own bound name;
* `Prv.Lends`                 the bound variable of one occurrence has the place of the other's;
* `Prv.sameFormula_equivalence`   the comparison is an equivalence, and exact, for such occurrences.
-/

namespace LiftedElimination

open Finset

namespace Atom

theorem apply_single_same (a : Atom) (b : LogVar) : a.apply (.single ⟨b, .var b⟩) = a := by
  have hterm : ∀ t : Term, (Substitution.single ⟨b, .var b⟩).apply t = t := by
    intro t
    cases t with
    | const c => rfl
    | var z =>
      by_cases hz : z = b
      · rw [hz]
        exact Substitution.apply_single_self b (.var b)
      · exact Substitution.apply_single_ne hz
  rw [apply, List.map_congr_left fun t _ => hterm t, List.map_id']

/-- a name that stands for `b` only can be replaced in its turn -/
theorem apply_single_single {a : Atom} {b x y : LogVar} (hx : x ∈ a.variables → x = b) :
    (a.apply (.single ⟨b, .var x⟩)).apply (.single ⟨x, .var y⟩)
      = a.apply (.single ⟨b, .var y⟩) := by
  unfold apply
  rw [List.map_map]
  refine congrArg (fun l => { a with terms := l }) (List.map_congr_left fun t ht => ?_)
  rw [Function.comp_apply]
  cases t with
  | const c => rfl
  | var z =>
    by_cases hz : z = b
    · rw [hz, Substitution.apply_single_self b (.var x), Substitution.apply_single_self x (.var y),
        Substitution.apply_single_self b (.var y)]
    · have hzx : z ≠ x := fun h => hz (h.trans (hx (h ▸ mem_variables.mpr ht)))
      rw [Substitution.apply_single_ne hz, Substitution.apply_single_ne hzx,
        Substitution.apply_single_ne hz]

end Atom

namespace CountingFormula

variable {f g h : CountingFormula} {x y : LogVar} {c : Constant}

/-! ## the bound variable renamed twice -/

theorem eq_of_parts (hbound : f.bound = g.bound) (hinner : f.inner = g.inner)
    (hcs : ∀ k, k ∈ f.constraints ↔ k ∈ g.constraints) : f = g := by
  cases f
  cases g
  cases hbound
  cases hinner
  cases SortedSet.ext_mem hcs
  rfl

/-- the constraints are given by the terms that the bound variable differs from -/
theorem mem_constraints_iff (hf : f.Valid) (hordered : f.constraints.IsOrdered) {k : Constraint} :
    k ∈ f.constraints ↔ ∃ t ∈ f.exclusions, k = Constraint.ordered f.bound t := by
  constructor
  · intro hk
    obtain ⟨t, -, hother⟩ := Constraint.exists_other? (hf.satisfiable k hk) (hf.mentions k hk)
    exact ⟨t, mem_exclusions.mpr ⟨k, hk, hother⟩,
      Constraint.eq_ordered_of_other? (hordered k hk) hother⟩
  · rintro ⟨t, ht, rfl⟩
    exact mem_of_mem_exclusions hordered ht

/-- under its own bound name a formula is what it was -/
theorem withBound_self (hf : f.Valid) (hordered : f.constraints.IsOrdered) :
    f.withBound f.bound = f := by
  refine eq_of_parts rfl (f.inner.apply_single_same f.bound) fun k => ?_
  rw [mem_constraints_withBound hf, mem_constraints_iff hf hordered]

/-- a new name leaves no trace when it is replaced -/
theorem withBound_withBound (hf : f.Valid) (hx : x ∉ f.freeVars) :
    (f.withBound x).withBound y = f.withBound y := by
  have hinner : x ∈ f.inner.variables → x = f.bound := fun h =>
    by_contra fun hne => hx (mem_freeVars.mpr (.inl ⟨h, hne⟩))
  refine eq_of_parts rfl (Atom.apply_single_single hinner) fun k => ?_
  rw [mem_constraints_withBound (hf.withBound hx), mem_constraints_withBound hf]
  simp only [mem_exclusions_withBound hf hx]

/-! ## one formula under the bound name of another -/

/-- `f` is `g` under the bound name of `f`, which is new to `g` and has the same individuals -/
structure Renames (f g : CountingFormula) : Prop where
  eq_withBound : f = g.withBound f.bound
  fresh : f.bound ∉ g.freeVars
  individuals : ∀ c, c ∈ f.individuals ↔ c ∈ g.individuals

/-- with a new name the renaming can be undone: `g` is `f` under the bound name of `g` -/
theorem eq_withBound_of_fresh (hg : g.Valid) (hordered : g.constraints.IsOrdered)
    (h : f = g.withBound f.bound) (hfresh : f.bound ∉ g.freeVars) : g = f.withBound g.bound := by
  calc g = g.withBound g.bound := (withBound_self hg hordered).symm
    _ = (g.withBound f.bound).withBound g.bound := (withBound_withBound hg hfresh).symm
    _ = f.withBound g.bound := by rw [← h]

theorem mem_freeVars_of_fresh (hg : g.Valid) (h : f = g.withBound f.bound)
    (hfresh : f.bound ∉ g.freeVars) : x ∈ f.freeVars ↔ x ∈ g.freeVars := by
  rw [← mem_freeVars_withBound hg hfresh, ← h]

theorem member_of_fresh (h : f = g.withBound f.bound) (hfresh : f.bound ∉ g.freeVars)
    (γ : Valuation) (c : Constant) : f.member γ c = g.member γ c := by
  rw [← member_withBound hfresh, ← h]

theorem Renames.refl (hf : f.Valid) (hordered : f.constraints.IsOrdered) : f.Renames f :=
  ⟨(withBound_self hf hordered).symm, hf.bound_notMem_freeVars, fun _ => Iff.rfl⟩

theorem Renames.symm (hg : g.Valid) (hordered : g.constraints.IsOrdered) (hfg : f.Renames g) :
    g.Renames f where
  eq_withBound := eq_withBound_of_fresh hg hordered hfg.eq_withBound hfg.fresh
  fresh hbound := hg.bound_notMem_freeVars
    ((mem_freeVars_of_fresh hg hfg.eq_withBound hfg.fresh).mp hbound)
  individuals c := (hfg.individuals c).symm

theorem Renames.trans (hh : h.Valid) (hfg : f.Renames g) (hgh : g.Renames h) : f.Renames h where
  eq_withBound := by
    calc f = g.withBound f.bound := hfg.eq_withBound
      _ = (h.withBound g.bound).withBound f.bound := by rw [← hgh.eq_withBound]
      _ = h.withBound f.bound := withBound_withBound hh hgh.fresh
  fresh hbound := hfg.fresh ((mem_freeVars_of_fresh hh hgh.eq_withBound hgh.fresh).mpr hbound)
  individuals c := (hfg.individuals c).trans (hgh.individuals c)

theorem Renames.counted (hf : f.Valid) (hg : g.Valid) (hfg : f.Renames g) (γ : Valuation) :
    f.counted γ = g.counted γ := by
  have hexcluded : ∀ x, x ∈ f.excludedVars ↔ x ∈ g.excludedVars := fun x => by
    rw [← mem_excludedVars_withBound hg hfg.fresh, ← hfg.eq_withBound]
  ext c
  rw [hf.mem_counted_iff, hg.mem_counted_iff, hfg.individuals]
  simp only [hexcluded]

theorem Renames.owned (hf : f.Valid) (hg : g.Valid) (hfg : f.Renames g) (γ : Valuation) :
    (Prv.count f).owned γ = (Prv.count g).owned γ := by
  rw [Prv.owned_count, Prv.owned_count, hfg.counted hf hg]
  exact image_congr fun c _ => member_of_fresh hfg.eq_withBound hfg.fresh γ c

/-! ## the conditions are needed -/

/-- an individual of one formula that the other counts as well: the excluded variables are given
another value -/
theorem mem_individuals_of_owned (hf : f.Valid) (hg : g.Valid)
    (hmember : ∀ γ c, f.member γ c = g.member γ c)
    (howned : ∀ γ, (Prv.count f).owned γ = (Prv.count g).owned γ) (hc : c ∈ f.individuals) :
    c ∈ g.individuals := by
  obtain ⟨d, hd⟩ : ∃ d : Constant, d ≠ c := exists_ne c
  let γ : Valuation := fun _ => d
  have hcounted : c ∈ f.counted γ := hf.mem_counted_iff.mpr ⟨hc, fun _ _ => hd⟩
  have hmem : f.member γ c ∈ (Prv.count g).owned γ := howned γ ▸ mem_image_of_mem _ hcounted
  obtain ⟨e, he, heq⟩ := mem_image.mp hmem
  rw [hmember] at heq
  exact (hg.mem_counted_iff.mp (hg.member_injective heq ▸ he)).1

/-- a captured name stays free on the right only -/
theorem fresh_of_sameVars (hf : f.Valid) (hvars : ∀ x, x ∈ f.freeVars ↔ x ∈ g.freeVars) :
    f.bound ∉ g.freeVars :=
  fun hbound => hf.bound_notMem_freeVars ((hvars _).mpr hbound)

/-- a captured name cannot be told from the bound one afterwards -/
theorem fresh_of_symm (hf : f.Valid) (hg : g.Valid) (hfg : f = g.withBound f.bound)
    (hgf : g = f.withBound g.bound) : f.bound ∉ g.freeVars := by
  intro hbound
  have hne : f.bound ≠ g.bound := fun h => hg.bound_notMem_freeVars (h ▸ hbound)
  rcases mem_freeVars.mp hbound with ⟨hinner, -⟩ | hexcluded
  · rw [hgf, show (f.withBound g.bound).inner = f.inner.apply (.single ⟨f.bound, .var g.bound⟩)
      from rfl, Atom.mem_variables_apply] at hinner
    obtain ⟨z, -, hz⟩ := hinner
    rcases Substitution.apply_single_eq_var.mp hz with ⟨-, hself⟩ | ⟨-, ht⟩
    · exact hself rfl
    · exact hne (Term.var.inj ht).symm
  · -- the renamed formula would have a bound variable that differs from itself
    have hself : Constraint.ordered f.bound (.var f.bound) ∈ f.constraints := by
      rw [hfg]
      exact (mem_constraints_withBound hg).mpr ⟨_, mem_excludedVars_iff.mp hexcluded, rfl⟩
    have hsatisfiable := hf.satisfiable _ hself
    rw [Constraint.isContradiction_ordered.mpr rfl] at hsatisfiable
    cases hsatisfiable

end CountingFormula

namespace Prv

variable {p q r : Prv}

/-- the bound variable of `p` is new to `q`, and has the individuals of the bound variable of `q` -/
structure Lends (p q : Prv) : Prop where
  fresh : ∀ f, p = .count f → f.bound ∉ q.freeVars
  individuals : ∀ f g, p = .count f → q = .count g → ∀ c, c ∈ f.individuals ↔ c ∈ g.individuals

theorem sameFormula_count {f g : CountingFormula} :
    (count f).sameFormula (count g) = true ↔ f = g.withBound f.bound := beq_iff_eq

theorem sameFormula_atom (a : Atom) : (atom a).sameFormula (atom a) = true := beq_self_eq_true _

theorem renames_iff {f g : CountingFormula} : f.Renames g
    ↔ (count f).sameFormula (count g) = true ∧ (count f).Lends (count g) := by
  rw [sameFormula_count]
  constructor
  · rintro ⟨heq, hfresh, hindividuals⟩
    refine ⟨heq, fun k hk => ?_, fun k l hk hl => ?_⟩
    · cases hk
      exact hfresh
    · cases hk
      cases hl
      exact hindividuals
  · rintro ⟨heq, hlends⟩
    exact ⟨heq, hlends.fresh f rfl, hlends.individuals f g rfl rfl⟩

/-- occurrences that are compared in this way are one atom, or one formula under two names -/
theorem sameFormula_and_lends_iff : p.sameFormula q = true ∧ p.Lends q
    ↔ (∃ a, p = atom a ∧ q = atom a) ∨ ∃ f g, p = count f ∧ q = count g ∧ f.Renames g := by
  constructor
  · rintro ⟨hsame, hlends⟩
    cases p with
    | atom a => exact .inl ⟨a, rfl, eq_of_sameFormula hsame⟩
    | count f =>
      obtain ⟨g, rfl, -⟩ := exists_of_sameFormula hsame
      exact .inr ⟨f, g, rfl, rfl, renames_iff.mpr ⟨hsame, hlends⟩⟩
  · rintro (⟨a, rfl, rfl⟩ | ⟨f, g, rfl, rfl, hfg⟩)
    · exact ⟨sameFormula_atom a, nofun, nofun⟩
    · exact renames_iff.mp hfg

theorem sameFormula_refl (hp : p.Valid) (hordered : p.IsOrdered) :
    p.sameFormula p = true ∧ p.Lends p := by
  refine sameFormula_and_lends_iff.mpr ?_
  cases p with
  | atom a => exact .inl ⟨a, rfl, rfl⟩
  | count f => exact .inr ⟨f, f, rfl, rfl, .refl hp (hordered f rfl)⟩

theorem sameFormula_symm (hq : q.Valid) (hordered : q.IsOrdered)
    (hpq : p.sameFormula q = true ∧ p.Lends q) : q.sameFormula p = true ∧ q.Lends p := by
  refine sameFormula_and_lends_iff.mpr ?_
  rcases sameFormula_and_lends_iff.mp hpq with ⟨a, rfl, rfl⟩ | ⟨f, g, rfl, rfl, hfg⟩
  · exact .inl ⟨a, rfl, rfl⟩
  · exact .inr ⟨g, f, rfl, rfl, hfg.symm hq (hordered g rfl)⟩

theorem sameFormula_trans (hr : r.Valid) (hpq : p.sameFormula q = true ∧ p.Lends q)
    (hqr : q.sameFormula r = true ∧ q.Lends r) : p.sameFormula r = true ∧ p.Lends r := by
  rcases sameFormula_and_lends_iff.mp hpq with ⟨a, rfl, rfl⟩ | ⟨f, g, rfl, rfl, hfg⟩
  · exact hqr
  · obtain ⟨_, hcon, -⟩ | ⟨_, h, hg, rfl, hgh⟩ := sameFormula_and_lends_iff.mp hqr
    · cases hcon
    · cases hg
      exact renames_iff.mp (hfg.trans hr hgh)

/-- the comparison holds in both orders just where the name is new -/
theorem sameFormula_symm_iff (hp : p.Valid) (hq : q.Valid) (hordered : q.IsOrdered)
    (hsame : p.sameFormula q = true) :
    q.sameFormula p = true ↔ ∀ f, p = .count f → f.bound ∉ q.freeVars := by
  cases p with
  | atom a =>
    cases eq_of_sameFormula hsame
    exact ⟨fun _ => nofun, fun _ => hsame⟩
  | count f =>
    obtain ⟨g, rfl, hfg⟩ := exists_of_sameFormula hsame
    rw [sameFormula_count]
    constructor
    · rintro hgf _ ⟨⟩
      exact CountingFormula.fresh_of_symm hp hq hfg hgf
    · intro hfresh
      exact CountingFormula.eq_withBound_of_fresh hq (hordered g rfl) hfg (hfresh f rfl)

/-- equal formulas are about the same random variables just where the name is lent -/
theorem lends_iff (hp : p.Valid) (hq : q.Valid) (hsame : p.sameFormula q = true) : p.Lends q
    ↔ (∀ x, x ∈ p.freeVars ↔ x ∈ q.freeVars) ∧ ∀ γ, p.owned γ = q.owned γ := by
  cases p with
  | atom a =>
    cases eq_of_sameFormula hsame
    exact ⟨fun _ => ⟨fun _ => Iff.rfl, fun _ => rfl⟩, fun _ => ⟨nofun, nofun⟩⟩
  | count f =>
    obtain ⟨g, rfl, hfg⟩ := exists_of_sameFormula hsame
    constructor
    · intro hlends
      have hrenames := renames_iff.mpr ⟨hsame, hlends⟩
      exact ⟨fun x => CountingFormula.mem_freeVars_of_fresh hq hfg hrenames.fresh,
        hrenames.owned hp hq⟩
    · rintro ⟨hvars, howned⟩
      have hfresh := CountingFormula.fresh_of_sameVars hp hvars
      have hmember := CountingFormula.member_of_fresh hfg hfresh
      refine (renames_iff.mp ⟨hfg, hfresh, fun c => ⟨?_, ?_⟩⟩).2
      · exact CountingFormula.mem_individuals_of_owned hp hq hmember howned
      · exact CountingFormula.mem_individuals_of_owned hq hp (fun γ c => (hmember γ c).symm)
          fun γ => (howned γ).symm

/-- **Equality up to the bound name** is reflexive, symmetric and transitive between occurrences that
lend their bound variable to one another.  Formulas that are equal in this way have the same free
variables and count the same random variables under every valuation just if the variable is lent, and
the comparison is symmetric just if it is new to the other formula. -/
theorem sameFormula_equivalence (hp : p.Valid ∧ p.IsOrdered) (hq : q.Valid ∧ q.IsOrdered)
    (hr : r.Valid ∧ r.IsOrdered) :
    (p.sameFormula p = true ∧ p.Lends p)
    ∧ (p.sameFormula q = true ∧ p.Lends q → q.sameFormula p = true ∧ q.Lends p)
    ∧ (p.sameFormula q = true ∧ p.Lends q → q.sameFormula r = true ∧ q.Lends r →
      p.sameFormula r = true ∧ p.Lends r)
    ∧ (p.sameFormula q = true →
      (p.Lends q ↔ (∀ x, x ∈ p.freeVars ↔ x ∈ q.freeVars) ∧ ∀ γ, p.owned γ = q.owned γ)
      ∧ (q.sameFormula p = true ↔ ∀ f, p = .count f → f.bound ∉ q.freeVars)) :=
  ⟨sameFormula_refl hp.1 hp.2, sameFormula_symm hq.1 hq.2, sameFormula_trans hr.1, fun hsame =>
    ⟨lends_iff hp.1 hq.1 hsame, sameFormula_symm_iff hp.1 hq.1 hq.2 hsame⟩⟩

end Prv

/-! ## sources under another name -/

namespace Epidemic

/-- how many `Z` infect `Y`, other than `Y` -/
def namedSources : CountingFormula := sources.withBound named

/-- how many infect themselves -/
def selfInfected : CountingFormula := ⟨person, infects (.var person) (.var person), ∅⟩

/-- how many infect `X` -/
def infecting : CountingFormula := ⟨named, infects (.var named) (.var person), ∅⟩

/-- sources under another name are the same ones; those who infect `X` are taken for those who infect
themselves, but not the other way round -/
theorem sameFormula_equivalence_sources :
    ((Prv.count sources).sameFormula (.count namedSources) = true
      ∧ (Prv.count namedSources).sameFormula (.count sources) = true
      ∧ ∀ γ, (Prv.count sources).owned γ = (Prv.count namedSources).owned γ)
    ∧ (Prv.count selfInfected).sameFormula (.count infecting) = true
      ∧ (Prv.count infecting).sameFormula (.count selfInfected) ≠ true := by
  have hnew : named ∉ sources.freeVars := by decide
  have hsources : (Prv.count sources).Valid ∧ (Prv.count sources).IsOrdered :=
    ⟨valid_sources, Prv.isOrdered_count (by decide)⟩
  have hnamed : (Prv.count namedSources).Valid ∧ (Prv.count namedSources).IsOrdered :=
    ⟨valid_sources.withBound hnew, Prv.isOrdered_count (by decide)⟩
  have hself : (Prv.count selfInfected).Valid ∧ (Prv.count selfInfected).IsOrdered :=
    ⟨⟨by decide, by decide, by decide⟩, Prv.isOrdered_count (by decide)⟩
  have hinfecting : (Prv.count infecting).Valid ∧ (Prv.count infecting).IsOrdered :=
    ⟨⟨by decide, by decide, by decide⟩, Prv.isOrdered_count (by decide)⟩
  have hsame : (Prv.count sources).sameFormula (.count namedSources) = true := by decide
  have hcaptured : (Prv.count selfInfected).sameFormula (.count infecting) = true := by
    decide
  obtain ⟨-, -, -, hexact⟩ := Prv.sameFormula_equivalence hsources hnamed hsources
  obtain ⟨hlends, hsymm⟩ := hexact hsame
  obtain ⟨-, -, -, hexact⟩ := Prv.sameFormula_equivalence hself hinfecting hself
  obtain ⟨-, hasymm⟩ := hexact hcaptured
  have hfresh : ∀ f, Prv.count sources = .count f → f.bound ∉ (Prv.count namedSources).freeVars := by
    rintro _ ⟨⟩
    decide
  refine ⟨⟨hsame, hsymm.mpr hfresh, (hlends.mp ⟨hfresh, ?_⟩).2⟩, hcaptured, fun hback => ?_⟩
  · rintro _ _ ⟨⟩ ⟨⟩ c
    rw [show namedSources.individuals = sources.individuals by decide]
  · exact hasymm.mp hback selfInfected rfl (by decide)

end Epidemic

end LiftedElimination
