import LiftedElimination.Proofs.Listing
import LiftedElimination.Proofs.Solutions
import LiftedElimination.CountingFormula

/-!
# Counted groups

A counting formula counts the individuals that its constraints leave to the bound variable, under a
valuation of the others.

* `counted`          the group;
* `exact_iff`        the group is as large as the domain size says, and not empty, when the excluded
                     variables have distinct values, all in the domain;
* `counted_apply`, `domainSize_apply`   a substitution that captures nothing changes neither;
* `counted_excluding`, `domainSize_excluding`   one individual taken out.
-/

namespace LiftedElimination

open Finset

namespace CountingFormula

variable {f : CountingFormula} {γ δ : Valuation}

/-- the individuals that the formula counts under a valuation of its free variables -/
def counted (f : CountingFormula) (γ : Valuation) : Finset Constant :=
  f.bound.population.toFinset.filter fun c => f.constraints.Holds (Function.update γ f.bound c)

theorem mem_counted {c : Constant} : c ∈ f.counted γ
    ↔ c ∈ f.bound.population ∧ f.constraints.Holds (Function.update γ f.bound c) := by
  rw [counted, mem_filter, Population.mem_toFinset]

/-- the atom holds the bound variable, and every constraint is a satisfiable one on it -/
structure Valid (f : CountingFormula) : Prop where
  bound_mem : f.bound ∈ f.inner.variables
  mentions : ∀ c ∈ f.constraints, f.bound ∈ c.variables
  satisfiable : ∀ c ∈ f.constraints, c.isContradiction = false

theorem mem_excludedVars {x : LogVar} :
    x ∈ f.excludedVars ↔ ∃ c ∈ f.constraints, c.otherVar? f.bound = some x := by
  simp only [excludedVars, exclusions, List.mem_filterMap, Constraint.otherVar?,
    Option.bind_eq_some_iff]
  constructor
  · rintro ⟨t, ⟨c, hc, hct⟩, htx⟩
    exact ⟨c, hc, t, hct, htx⟩
  · rintro ⟨c, hc, t, hct, htx⟩
    exact ⟨t, ⟨c, hc, hct⟩, htx⟩

theorem excludedVars_eq (f : CountingFormula) :
    f.excludedVars = f.constraints.toList.filterMap (·.otherVar? f.bound) := by
  rw [excludedVars, exclusions, List.filterMap_filterMap]
  rfl

theorem mem_freeVars {x : LogVar} : x ∈ f.freeVars
    ↔ (x ∈ f.inner.variables ∧ x ≠ f.bound) ∨ x ∈ f.excludedVars := by
  rw [freeVars, mem_addVars, List.mem_filter, decide_eq_true_eq]

namespace Valid

theorem ne_bound (hf : f.Valid) {x : LogVar} (hx : x ∈ f.excludedVars) : x ≠ f.bound := by
  obtain ⟨c, hc, hcx⟩ := mem_excludedVars.mp hx
  rcases Constraint.cases_of_mem_variables (hf.satisfiable c hc) (hf.mentions c hc)
    with ⟨d, hd⟩ | ⟨z, hz, hcz⟩
  · obtain ⟨hfirst, hsecond⟩ := Constraint.excluded?_eq_some.mp hd
    rcases Constraint.otherVar?_eq_some.mp hcx with ⟨-, hs⟩ | ⟨hne, -, -⟩
    · rw [hsecond] at hs
      cases hs
    · exact absurd hfirst hne
  · rw [hcz] at hcx
    exact Option.some.inj hcx ▸ hz

theorem bound_notMem_freeVars (hf : f.Valid) : f.bound ∉ f.freeVars := by
  rw [mem_freeVars]
  rintro (⟨-, hne⟩ | hx)
  · exact hne rfl
  · exact hf.ne_bound hx rfl

/-- the variables of the constraints are the bound one and the excluded ones -/
theorem mem_variables (hf : f.Valid) {x : LogVar} (hx : x ∈ f.constraints.variables) :
    x = f.bound ∨ x ∈ f.excludedVars := by
  obtain ⟨c, hc, hxc⟩ := ConstraintSet.mem_variables.mp hx
  rcases Constraint.cases_of_mem_variables (hf.satisfiable c hc) (hf.mentions c hc)
    with ⟨d, hd⟩ | ⟨z, -, hcz⟩
  · obtain ⟨hfirst, hsecond⟩ := Constraint.excluded?_eq_some.mp hd
    rcases Constraint.mem_variables.mp hxc with rfl | hs
    · exact .inl hfirst
    · rw [hsecond] at hs
      cases hs
  · refine ((Constraint.mem_variables_of_otherVar? hcz).2.2 x hxc).imp_right ?_
    rintro rfl
    exact mem_excludedVars.mpr ⟨c, hc, hcz⟩

/-- who is counted: nobody that a constant excludes, and nobody that an excluded variable names -/
theorem mem_counted_iff (hf : f.Valid) {c : Constant} :
    c ∈ f.counted γ ↔ c ∈ f.individuals ∧ ∀ x ∈ f.excludedVars, γ x ≠ c := by
  rw [mem_counted, individuals, LogVar.mem_domain, and_assoc]
  refine and_congr_right fun _ => ⟨fun h => ⟨fun k hk hkc => ?_, fun x hx => ?_⟩, ?_⟩
  · obtain ⟨hfirst, hsecond⟩ := Constraint.excluded?_eq_some.mp hkc
    refine h k hk ?_
    rw [hfirst, hsecond, Function.update_self]
    rfl
  · obtain ⟨k, hk, hkx⟩ := mem_excludedVars.mp hx
    have hne := (Constraint.holds_iff_of_otherVar? hkx).mp (h k hk)
    rw [Function.update_self, Function.update_of_ne (hf.ne_bound hx)] at hne
    exact hne.symm
  · rintro ⟨hconst, hvar⟩ k hk
    rcases Constraint.cases_of_mem_variables (hf.satisfiable k hk) (hf.mentions k hk)
      with ⟨d, hd⟩ | ⟨z, hz, hkz⟩
    · obtain ⟨hfirst, hsecond⟩ := Constraint.excluded?_eq_some.mp hd
      rw [Constraint.Holds, hfirst, hsecond, Function.update_self, Term.eval_const]
      rintro rfl
      exact hconst k hk hd
    · rw [Constraint.holds_iff_of_otherVar? hkz, Function.update_self, Function.update_of_ne hz]
      exact (hvar z (mem_excludedVars.mpr ⟨k, hk, hkz⟩)).symm

theorem counted_eq (hf : f.Valid) (γ : Valuation) :
    f.counted γ = f.individuals.toFinset \ (f.excludedVars.map γ).toFinset := by
  ext c
  rw [hf.mem_counted_iff, mem_sdiff, Population.mem_toFinset, List.mem_toFinset, List.mem_map]
  simp only [not_exists, not_and]

theorem counted_congr (hf : f.Valid) (h : ∀ x ∈ f.freeVars, γ x = δ x) :
    f.counted γ = f.counted δ := by
  rw [hf.counted_eq, hf.counted_eq, List.map_congr_left fun x hx => h x (mem_freeVars.mpr (.inr hx))]

end Valid

theorem card_individuals (f : CountingFormula) :
    f.individuals.toFinset.card = f.individuals.size :=
  List.toFinset_card_of_nodup (Population.nodup_domain f.bound f.constraints)

/-- at least as many individuals are counted as the domain size says -/
theorem domainSize_le_card_counted (hf : f.Valid) (γ : Valuation) :
    f.domainSize ≤ (f.counted γ).card := by
  have hexcluded : (f.excludedVars.map γ).toFinset.card ≤ f.excludedVars.length :=
    (List.toFinset_card_le _).trans (List.length_map _).le
  have hcard := le_card_sdiff (f.excludedVars.map γ).toFinset f.individuals.toFinset
  rw [card_individuals] at hcard
  rw [hf.counted_eq]
  exact le_trans (Nat.sub_le_sub_left hexcluded _) hcard

/-! ## exact formulas -/

/-- the formula counts as many individuals as its domain size says, and at least one -/
structure Exact (f : CountingFormula) (γ : Valuation) : Prop where
  card : (f.counted γ).card = f.domainSize
  pos : 0 < f.domainSize

/-- the formula counts as many individuals as its domain size says, which may be nobody -/
def Accurate (f : CountingFormula) (γ : Valuation) : Prop := (f.counted γ).card = f.domainSize

theorem domainSize_eq_zero (hf : f.Valid) (h : f.counted γ = ∅) : f.domainSize = 0 := by
  have hle := domainSize_le_card_counted hf γ
  rw [h, card_empty] at hle
  exact Nat.le_zero.mp hle

theorem accurate_of_empty (hf : f.Valid) (h : f.counted γ = ∅) : f.Accurate γ := by
  rw [Accurate, h, card_empty, domainSize_eq_zero hf h]

/-- an accurate formula is exact, or counts nobody -/
theorem Accurate.cases (h : f.Accurate γ) : f.Exact γ ∨ f.counted γ = ∅ ∧ f.domainSize = 0 := by
  rcases Nat.eq_zero_or_pos f.domainSize with hzero | hpos
  · exact .inr ⟨card_eq_zero.mp (h.trans hzero), hzero⟩
  · exact .inl ⟨h, hpos⟩

/-- **When a formula is exact**: the excluded variables have distinct values in the domain, and
somebody is left. -/
theorem exact_iff (hf : f.Valid) : f.Exact γ ↔ (f.excludedVars.map γ).Nodup
    ∧ (∀ x ∈ f.excludedVars, γ x ∈ f.individuals)
    ∧ f.excludedVars.length < f.individuals.size := by
  have hcard : (f.counted γ).card = f.individuals.size
      - (f.individuals.toFinset ∩ (f.excludedVars.map γ).toFinset).card := by
    rw [hf.counted_eq, card_sdiff, inter_comm, card_individuals]
  have hlist : (f.excludedVars.map γ).toFinset.card ≤ f.excludedVars.length := by
    simpa using List.toFinset_card_le (f.excludedVars.map γ)
  have hinter : (f.individuals.toFinset ∩ (f.excludedVars.map γ).toFinset).card
      ≤ (f.excludedVars.map γ).toFinset.card := card_le_card inter_subset_right
  constructor
  · rintro ⟨hexact, hpos⟩
    rw [hcard, domainSize] at hexact
    rw [domainSize] at hpos
    have hfull : (f.excludedVars.map γ).toFinset.card = (f.excludedVars.map γ).length := by
      rw [List.length_map]
      omega
    have hsub : f.individuals.toFinset ∩ (f.excludedVars.map γ).toFinset
        = (f.excludedVars.map γ).toFinset :=
      eq_of_subset_of_card_le inter_subset_right (by omega)
    refine ⟨Multiset.coe_nodup.mp (Multiset.toFinset_card_eq_card_iff_nodup.mp hfull),
      fun x hx => ?_, by omega⟩
    have hx' : γ x ∈ (f.excludedVars.map γ).toFinset :=
      List.mem_toFinset.mpr (List.mem_map_of_mem hx)
    rw [← hsub] at hx'
    exact Population.mem_toFinset.mp (mem_of_mem_inter_left hx')
  · rintro ⟨hnodup, hmem, hlt⟩
    refine ⟨?_, by rw [domainSize]; omega⟩
    have hsub : (f.excludedVars.map γ).toFinset ⊆ f.individuals.toFinset := by
      intro c hc
      obtain ⟨x, hx, rfl⟩ := List.mem_map.mp (List.mem_toFinset.mp hc)
      exact Population.mem_toFinset.mpr (hmem x hx)
    rw [hcard, inter_eq_right.mpr hsub, List.toFinset_card_of_nodup hnodup, List.length_map,
      domainSize]

end CountingFormula

/-! ## what a constraint keeps a variable from -/

namespace Constraint

theorem ordered_comm (x y : LogVar) : ordered x (.var y) = ordered y (.var x) := by
  rw [ordered_var, ordered_var]
  rcases hxy : compare x y with _ | _ | _
  · have hyx : compare y x ≠ .lt := fun h =>
      SortedSet.not_lt_self (Std.TransCmp.lt_trans h hxy)
    rw [if_neg hyx, if_pos rfl]
  · obtain rfl := Std.LawfulEqOrd.eq_of_compare hxy
    simp
  · rw [if_pos (Std.OrientedCmp.lt_of_gt hxy), if_neg (by decide)]

theorem between_comm (s t : Term) : between s t = between t s := by
  cases s <;> cases t
  · exact congrArg some (ordered_comm _ _)
  · rfl
  · rfl
  · rfl

/-- an inequality of two terms is written with its sides in one order or the other -/
theorem sides_of_between {s t : Term} {k : Constraint} (h : between s t = some k) :
    (.var k.first = s ∧ k.second = t) ∨ (.var k.first = t ∧ k.second = s) := by
  have hordered : ∀ (x : LogVar) (t : Term), (.var (ordered x t).first = Term.var x ∧
      (ordered x t).second = t) ∨ (.var (ordered x t).first = t ∧ (ordered x t).second = .var x) := by
    intro x t
    cases t with
    | const c => exact .inl ⟨rfl, rfl⟩
    | var y =>
      rw [ordered_var]
      split
      · exact .inr ⟨rfl, rfl⟩
      · exact .inl ⟨rfl, rfl⟩
  cases s with
  | var x =>
    cases h
    exact hordered x t
  | const c =>
    cases t with
    | var x =>
      cases h
      exact (hordered x (.const c)).symm
    | const d => cases h

theorem other?_eq_some {c : Constraint} {x : LogVar} {t : Term} : c.other? x = some t
    ↔ (c.first = x ∧ c.second = t) ∨ (c.second = .var x ∧ .var c.first = t) := by
  unfold other?
  constructor
  · intro h
    split at h
    · exact .inl ⟨‹_›, Option.some.inj h⟩
    · split at h
      · exact .inr ⟨‹_›, Option.some.inj h⟩
      · cases h
  · rintro (⟨hx, rfl⟩ | ⟨hx, rfl⟩)
    · exact if_pos hx
    · split
      · rename_i hfirst
        rw [hx, hfirst]
      · rfl

theorem other?_ordered {x : LogVar} {t : Term} (h : t ≠ .var x) :
    (ordered x t).other? x = some t := by
  cases t with
  | const c => exact if_pos rfl
  | var y =>
    have hyx : y ≠ x := fun hyx => h (congrArg _ hyx)
    rw [ordered_var]
    split
    · unfold other?
      rw [if_neg hyx, if_pos rfl]
    · exact if_pos rfl

theorem otherVar?_eq {c : Constraint} {x : LogVar} : c.otherVar? x = (c.other? x).bind Term.var? :=
  rfl

theorem excluded?_eq (c : Constraint) (x : LogVar) :
    c.excluded? x = (c.other? x).bind Term.const? := by
  unfold excluded? other?
  split
  · rfl
  · split <;> rfl

/-- a constraint on `x` keeps it from one other term -/
theorem exists_other? {c : Constraint} {x : LogVar} (hc : c.isContradiction = false)
    (hx : x ∈ c.variables) : ∃ t, t ≠ .var x ∧ c.other? x = some t := by
  rcases cases_of_mem_variables hc hx with ⟨d, hd⟩ | ⟨z, hz, hcz⟩
  · obtain ⟨hfirst, hsecond⟩ := excluded?_eq_some.mp hd
    exact ⟨.const d, nofun, by rw [other?, if_pos hfirst, hsecond]⟩
  · obtain ⟨t, ht, htz⟩ := Option.bind_eq_some_iff.mp hcz
    rw [Term.var?_eq_some] at htz
    exact ⟨t, fun h => hz (Term.var.inj (htz.symm.trans h)), ht⟩

/-- a substitution that fixes `x` works on the term that `x` is kept from -/
theorem apply_of_other? {c : Constraint} {x : LogVar} {t : Term} {s : Substitution}
    (h : c.other? x = some t) (hx : s.apply (.var x) = .var x) :
    c.apply s = some (ordered x (s.apply t)) := by
  unfold other? at h
  rw [Constraint.apply]
  split at h
  · rename_i hfirst
    cases h
    rw [hfirst, hx]
    rfl
  · split at h
    · rename_i hsecond
      cases h
      rw [hsecond, hx, between_comm]
      rfl
    · cases h

end Constraint

namespace SortedSet

theorem perm_insertList {α : Type} [Ord α] [Std.LawfulEqOrd α] {a : α} {l : List α}
    (h : a ∉ l) : (insertList a l).Perm (a :: l) :=
  perm_insertList_of_ne fun _ hb heq => h (Std.LawfulEqOrd.eq_of_compare heq ▸ hb)

theorem nodup_toList {α : Type} [Ord α] [Std.TransOrd α] (s : SortedSet α) :
    s.toList.Nodup :=
  s.increasing.imp fun {a b} h hab => by
    subst hab
    exact SortedSet.not_lt_self h

end SortedSet

namespace CountingFormula

variable {f : CountingFormula} {γ δ : Valuation} {s : Substitution}

/-! ## substitution -/

theorem mem_exclusions {t : Term} :
    t ∈ f.exclusions ↔ ∃ c ∈ f.constraints, c.other? f.bound = some t := by
  rw [exclusions, List.mem_filterMap]
  rfl

theorem mem_excludedVars_iff {x : LogVar} : x ∈ f.excludedVars ↔ .var x ∈ f.exclusions := by
  rw [excludedVars, List.mem_filterMap]
  simp

theorem mem_individuals {c : Constant} :
    c ∈ f.individuals ↔ c ∈ f.bound.population ∧ .const c ∉ f.exclusions := by
  rw [individuals, LogVar.mem_domain, mem_exclusions]
  refine and_congr_right fun _ => ?_
  simp only [not_exists, not_and]
  refine forall₂_congr fun k _ => not_congr ?_
  rw [Constraint.excluded?_eq, Option.bind_eq_some_iff]
  simp

theorem Valid.ne_var_bound (hf : f.Valid) {t : Term} (ht : t ∈ f.exclusions) :
    t ≠ .var f.bound := by
  rintro rfl
  exact hf.ne_bound (mem_excludedVars_iff.mpr ht) rfl

/-- no free variable of the formula becomes the bound one -/
def Avoids (f : CountingFormula) (s : Substitution) : Prop :=
  ∀ x ∈ f.freeVars, s.apply (.var x) ≠ .var f.bound

/-- away from the bound variable the substitution inside a formula is the one outside -/
theorem pull_update (c : Constant) {x : LogVar}
    (hx : x ≠ f.bound → s.apply (.var x) ≠ .var f.bound) :
    (s.without (· = f.bound)).pull (Function.update γ f.bound c) x
      = Function.update (s.pull γ) f.bound c x := by
  by_cases hxb : x = f.bound
  · subst hxb
    rw [Substitution.pull, Substitution.apply_without_self, Term.eval_var, Function.update_self,
      Function.update_self]
  · have hne := hx hxb
    rw [Substitution.pull, Substitution.apply_without_ne s hxb, Function.update_of_ne hxb,
      Substitution.pull]
    cases ht : s.apply (.var x) with
    | const d => rfl
    | var y =>
      rw [ht] at hne
      exact Function.update_of_ne (fun h => hne (congrArg _ h)) _ _

theorem mem_constraints_apply (hf : f.Valid) {k : Constraint} : k ∈ (f.apply s).constraints
    ↔ ∃ t ∈ f.exclusions, k = Constraint.ordered f.bound (s.apply t) := by
  have hfix : (s.without (· = f.bound)).apply (.var f.bound) = .var f.bound :=
    Substitution.apply_without_self s f.bound
  have hother : ∀ t ∈ f.exclusions, (s.without (· = f.bound)).apply t = s.apply t := by
    intro t ht
    cases t with
    | const c => rfl
    | var x => exact Substitution.apply_without_ne s (hf.ne_bound (mem_excludedVars_iff.mpr ht))
  rw [CountingFormula.apply, SortedSet.mem_filterMap]
  constructor
  · rintro ⟨c, hc, hck⟩
    obtain ⟨t, -, hct⟩ := Constraint.exists_other? (hf.satisfiable c hc) (hf.mentions c hc)
    have ht : t ∈ f.exclusions := mem_exclusions.mpr ⟨c, hc, hct⟩
    rw [Constraint.apply_of_other? hct hfix, hother t ht] at hck
    exact ⟨t, ht, (Option.some.inj hck).symm⟩
  · rintro ⟨t, ht, rfl⟩
    obtain ⟨c, hc, hct⟩ := mem_exclusions.mp ht
    exact ⟨c, hc, by rw [Constraint.apply_of_other? hct hfix, hother t ht]⟩

theorem Avoids.ne_bound (hs : f.Avoids s) {t : Term} (ht : t ∈ f.exclusions) :
    s.apply t ≠ .var f.bound := by
  cases t with
  | const c => exact nofun
  | var x => exact hs x (mem_freeVars.mpr (.inr (mem_excludedVars_iff.mpr ht)))

theorem mem_exclusions_apply (hf : f.Valid) (hs : f.Avoids s) {u : Term} :
    u ∈ (f.apply s).exclusions ↔ ∃ t ∈ f.exclusions, s.apply t = u := by
  rw [mem_exclusions]
  constructor
  · rintro ⟨k, hk, hku⟩
    obtain ⟨t, ht, rfl⟩ := (mem_constraints_apply hf).mp hk
    rw [show (f.apply s).bound = f.bound from rfl,
      Constraint.other?_ordered (hs.ne_bound ht)] at hku
    exact ⟨t, ht, Option.some.inj hku⟩
  · rintro ⟨t, ht, rfl⟩
    exact ⟨_, (mem_constraints_apply hf).mpr ⟨t, ht, rfl⟩,
      Constraint.other?_ordered (hs.ne_bound ht)⟩

theorem Valid.apply (hf : f.Valid) (hs : f.Avoids s) : (f.apply s).Valid where
  bound_mem := Atom.mem_variables_apply.mpr
    ⟨f.bound, hf.bound_mem, Substitution.apply_without_self s f.bound⟩
  mentions k hk := by
    obtain ⟨t, -, rfl⟩ := (mem_constraints_apply hf).mp hk
    cases t with
    | const c => exact List.mem_cons_self
    | var x =>
      cases hx : s.apply (.var x) with
      | const c => exact List.mem_cons_self
      | var y => exact Constraint.mem_variables_ordered.mpr (.inl rfl)
  satisfiable k hk := by
    obtain ⟨t, ht, rfl⟩ := (mem_constraints_apply hf).mp hk
    by_contra hcon
    exact hs.ne_bound ht
      (Constraint.isContradiction_ordered.mp (Bool.eq_true_of_not_eq_false hcon))

/-- the group depends on the excluded variables only -/
theorem counted_apply_of_excludedVars (hf : f.Valid)
    (hs : ∀ x ∈ f.excludedVars, s.apply (.var x) ≠ .var f.bound) (γ : Valuation) :
    (f.apply s).counted γ = f.counted (s.pull γ) := by
  ext c
  rw [mem_counted, mem_counted]
  refine and_congr_right fun _ => ?_
  show ConstraintSet.Holds (f.constraints.filterMap _) _ ↔ _
  rw [ConstraintSet.holds_filterMap_apply]
  · exact ConstraintSet.holds_congr fun x hx => pull_update c fun hne =>
      hs x ((hf.mem_variables hx).resolve_left hne)
  · intro k hk hnone
    obtain ⟨t, -, hkt⟩ := Constraint.exists_other? (hf.satisfiable k hk) (hf.mentions k hk)
    rw [Constraint.apply_of_other? hkt (Substitution.apply_without_self s f.bound)] at hnone
    cases hnone

/-- **A substitution that captures nothing keeps the group.** -/
theorem counted_apply (hf : f.Valid) (hs : f.Avoids s) (γ : Valuation) :
    (f.apply s).counted γ = f.counted (s.pull γ) :=
  counted_apply_of_excludedVars hf (fun x hx => hs x (mem_freeVars.mpr (.inr hx))) γ

theorem nodup_excludedVars_apply (hf : f.Valid) (hs : f.Avoids s) :
    (f.apply s).excludedVars.Nodup := by
  rw [excludedVars_eq]
  refine List.pairwise_filterMap.mpr ((SortedSet.nodup_toList _).imp_of_mem ?_)
  rintro k k' hk hk' hne x hx _ hx' rfl
  obtain ⟨t, ht, rfl⟩ := (mem_constraints_apply hf).mp hk
  obtain ⟨t', ht', rfl⟩ := (mem_constraints_apply hf).mp hk'
  have hother : ∀ u ∈ f.exclusions,
      (Constraint.ordered f.bound (s.apply u)).otherVar? (f.apply s).bound = some x →
      s.apply u = .var x := by
    intro u hu h
    rw [Constraint.otherVar?_eq, show (f.apply s).bound = f.bound from rfl,
      Constraint.other?_ordered (hs.ne_bound hu)] at h
    exact Term.var?_eq_some.mp h
  rw [hother t ht hx, hother t' ht' hx'] at hne
  exact hne rfl

theorem length_filterMap_var?_add {α : Type} (g : α → Term) (l : List α) :
    (l.filterMap fun x => (g x).var?).length + (l.filterMap fun x => (g x).const?).length
      = l.length := by
  induction l with
  | nil => rfl
  | cons x l ih =>
    rw [List.filterMap_cons, List.filterMap_cons, List.length_cons, ← ih]
    cases g x with
    | var y => exact Nat.add_right_comm _ _ _
    | const c => rfl

/-- distinct terms have distinct parts -/
theorem nodup_filterMap_apply {α : Type} {part : Term → Option α} {l : List LogVar} (hl : l.Nodup)
    (hinj : ∀ x ∈ l, ∀ y ∈ l, s.apply (.var x) = s.apply (.var y) → x = y)
    (hpart : ∀ t u a, part t = some a → part u = some a → t = u) :
    (l.filterMap fun x => part (s.apply (.var x))).Nodup := by
  refine List.pairwise_filterMap.mpr (hl.imp_of_mem ?_)
  rintro x y hx hy hne a hxa _ hya rfl
  exact hne (hinj x hx y hy (hpart _ _ a hxa hya))

/-- the excluded variables of an instance are those that stay variables -/
theorem perm_excludedVars_apply (hf : f.Valid) (hs : f.Avoids s) (hnodup : f.excludedVars.Nodup)
    (hinj : ∀ x ∈ f.excludedVars, ∀ y ∈ f.excludedVars,
      s.apply (.var x) = s.apply (.var y) → x = y) :
    ((f.apply s).excludedVars).Perm
      (f.excludedVars.filterMap fun x => (s.apply (.var x)).var?) := by
  refine (List.perm_ext_iff_of_nodup (nodup_excludedVars_apply hf hs)
    (nodup_filterMap_apply hnodup hinj fun t u z ht hu =>
      (Term.var?_eq_some.mp ht).trans (Term.var?_eq_some.mp hu).symm)).mpr fun z => ?_
  rw [mem_excludedVars_iff, mem_exclusions_apply hf hs, List.mem_filterMap]
  constructor
  · rintro ⟨t, ht, htz⟩
    cases t with
    | const c => cases htz
    | var x => exact ⟨x, mem_excludedVars_iff.mpr ht, Term.var?_eq_some.mpr htz⟩
  · rintro ⟨x, hx, hxz⟩
    exact ⟨.var x, mem_excludedVars_iff.mp hx, Term.var?_eq_some.mp hxz⟩

/-- an instance counts nobody that an excluded variable has become -/
theorem individuals_apply (hf : f.Valid) (hs : f.Avoids s) :
    (f.apply s).individuals.toFinset = f.individuals.toFinset
      \ (f.excludedVars.filterMap fun x => (s.apply (.var x)).const?).toFinset := by
  ext c
  rw [mem_sdiff, Population.mem_toFinset, Population.mem_toFinset, List.mem_toFinset,
    mem_individuals, mem_individuals, mem_exclusions_apply hf hs, List.mem_filterMap]
  constructor
  · rintro ⟨hpop, hc⟩
    refine ⟨⟨hpop, fun hcf => hc ⟨_, hcf, rfl⟩⟩, ?_⟩
    rintro ⟨x, hx, hxc⟩
    exact hc ⟨.var x, mem_excludedVars_iff.mp hx, Term.const?_eq_some.mp hxc⟩
  · rintro ⟨⟨hpop, hcf⟩, hc⟩
    refine ⟨hpop, ?_⟩
    rintro ⟨t, ht, htc⟩
    cases t with
    | const d =>
      cases htc
      exact hcf ht
    | var x => exact hc ⟨x, mem_excludedVars_iff.mpr ht, Term.const?_eq_some.mpr htc⟩

/-- an excluded variable of an exact formula that becomes an individual leaves the excluded variables
and the domain -/
theorem domainSize_apply_of_exact (hf : f.Valid) (hs : f.Avoids s) (hexact : f.Exact (s.pull γ)) :
    (f.apply s).domainSize = f.domainSize := by
  obtain ⟨hvalues, hmem, hlt⟩ := (exact_iff hf).mp hexact
  have hnodup : f.excludedVars.Nodup := List.Nodup.of_map _ hvalues
  have hinj : ∀ x ∈ f.excludedVars, ∀ y ∈ f.excludedVars,
      s.apply (.var x) = s.apply (.var y) → x = y := by
    intro x hx y hy hxy
    refine List.inj_on_of_nodup_map hvalues hx hy ?_
    rw [Substitution.pull, hxy]
    rfl
  have hconsts : (f.excludedVars.filterMap fun x => (s.apply (.var x)).const?).Nodup :=
    nodup_filterMap_apply hnodup hinj fun t u c ht hu =>
      (Term.const?_eq_some.mp ht).trans (Term.const?_eq_some.mp hu).symm
  have hsub : (f.excludedVars.filterMap fun x => (s.apply (.var x)).const?).toFinset
      ⊆ f.individuals.toFinset := by
    intro c hc
    obtain ⟨x, hx, hxc⟩ := List.mem_filterMap.mp (List.mem_toFinset.mp hc)
    have hval := hmem x hx
    rw [Substitution.pull, Term.const?_eq_some.mp hxc] at hval
    exact Population.mem_toFinset.mpr hval
  have hsize : (f.apply s).individuals.size = f.individuals.size
      - (f.excludedVars.filterMap fun x => (s.apply (.var x)).const?).length := by
    rw [← card_individuals, individuals_apply hf hs, card_sdiff_of_subset hsub, card_individuals,
      List.toFinset_card_of_nodup hconsts]
  have hlength := length_filterMap_var?_add (fun x => s.apply (.var x)) f.excludedVars
  rw [domainSize, domainSize, hsize, (perm_excludedVars_apply hf hs hnodup hinj).length_eq]
  omega

/-- **A substitution that captures nothing keeps the predicted size of a group** that is predicted
right. -/
theorem domainSize_apply (hf : f.Valid) (hs : f.Avoids s) (haccurate : f.Accurate (s.pull γ)) :
    (f.apply s).domainSize = f.domainSize := by
  rcases haccurate.cases with hexact | ⟨hempty, hzero⟩
  · exact domainSize_apply_of_exact hf hs hexact
  · rw [hzero]
    exact domainSize_eq_zero (hf.apply hs) ((counted_apply hf hs γ).trans hempty)

theorem Accurate.apply (hf : f.Valid) (hs : f.Avoids s) (haccurate : f.Accurate (s.pull γ)) :
    (f.apply s).Accurate γ := by
  rw [Accurate, counted_apply hf hs, domainSize_apply hf hs haccurate]
  exact haccurate

theorem Exact.apply (hf : f.Valid) (hs : f.Avoids s) (hexact : f.Exact (s.pull γ)) :
    (f.apply s).Exact γ where
  card := Accurate.apply hf hs hexact.card
  pos := by
    rw [domainSize_apply hf hs hexact.card]
    exact hexact.pos

/-! ## one individual taken out -/

theorem mem_excluding {t : Term} {k : Constraint} : k ∈ (f.excluding t).constraints
    ↔ k = .ordered f.bound t ∨ k ∈ f.constraints := SortedSet.mem_insert

theorem Valid.excluding (hf : f.Valid) {t : Term} (ht : t ≠ .var f.bound) :
    (f.excluding t).Valid where
  bound_mem := hf.bound_mem
  mentions k hk := by
    rcases mem_excluding.mp hk with rfl | hk
    · cases t with
      | const c => exact List.mem_cons_self
      | var x => exact Constraint.mem_variables_ordered.mpr (.inl rfl)
    · exact hf.mentions k hk
  satisfiable k hk := by
    rcases mem_excluding.mp hk with rfl | hk
    · by_contra hcon
      exact ht (Constraint.isContradiction_ordered.mp (Bool.eq_true_of_not_eq_false hcon))
    · exact hf.satisfiable k hk

theorem counted_excluding {t : Term} (ht : t ≠ .var f.bound) (γ : Valuation) :
    (f.excluding t).counted γ = (f.counted γ).erase (t.eval γ) := by
  have heval : ∀ c, t.eval (Function.update γ f.bound c) = t.eval γ := by
    intro c
    cases t with
    | const d => rfl
    | var x => exact Function.update_of_ne (fun h => ht (congrArg _ h)) _ _
  ext c
  rw [mem_erase, mem_counted, mem_counted]
  show _ ∧ ConstraintSet.Holds (f.constraints.insert _) (Function.update γ f.bound c) ↔ _
  rw [ConstraintSet.holds_insert, Constraint.holds_ordered, Function.update_self, heval]
  exact and_left_comm

theorem mem_exclusions_excluding {t u : Term} (ht : t ≠ .var f.bound) :
    u ∈ (f.excluding t).exclusions ↔ u = t ∨ u ∈ f.exclusions := by
  rw [mem_exclusions, mem_exclusions]
  constructor
  · rintro ⟨k, hk, hku⟩
    rcases mem_excluding.mp hk with rfl | hk
    · rw [show (f.excluding t).bound = f.bound from rfl, Constraint.other?_ordered ht] at hku
      exact .inl (Option.some.inj hku).symm
    · exact .inr ⟨k, hk, hku⟩
  · rintro (rfl | ⟨k, hk, hku⟩)
    · exact ⟨_, mem_excluding.mpr (.inl rfl), Constraint.other?_ordered ht⟩
    · exact ⟨k, mem_excluding.mpr (.inr hk), hku⟩

theorem mem_individuals_excluding {t : Term} (ht : t ≠ .var f.bound) {c : Constant} :
    c ∈ (f.excluding t).individuals ↔ c ∈ f.individuals ∧ t ≠ .const c := by
  rw [mem_individuals, mem_individuals, mem_exclusions_excluding ht, not_or, and_assoc,
    and_comm (a := ¬_), ne_comm]
  rfl

/-- an individual that is taken out was one of the listed ones -/
theorem size_individuals_excluding {c : Constant} (hc : c ∈ f.individuals) :
    (f.excluding (.const c)).individuals.size + 1 = f.individuals.size := by
  have herase : (f.excluding (.const c)).individuals.toFinset = f.individuals.toFinset.erase c := by
    have hne : Term.const c ≠ .var f.bound := nofun
    ext d
    rw [mem_erase, Population.mem_toFinset, Population.mem_toFinset,
      mem_individuals_excluding hne, ne_comm, Ne, Term.const.injEq, and_comm]
  rw [← card_individuals, herase, ← card_individuals]
  exact card_erase_add_one (Population.mem_toFinset.mpr hc)

/-- a variable that is taken out leaves the list as it is -/
theorem size_individuals_excluding_var {x : LogVar} (hx : x ≠ f.bound) :
    (f.excluding (.var x)).individuals.size = f.individuals.size := by
  have hsame : (f.excluding (.var x)).individuals.toFinset = f.individuals.toFinset := by
    ext c
    rw [Population.mem_toFinset, Population.mem_toFinset,
      mem_individuals_excluding fun h => hx (Term.var.inj h)]
    exact and_iff_left nofun
  rw [← card_individuals, hsame, card_individuals]

/-- taking out an individual of the domain leaves one less -/
theorem domainSize_excluding {t : Term} (ht : t ≠ .var f.bound)
    (hfree : Constraint.ordered f.bound t ∉ f.constraints)
    (hmem : ∀ c, t = .const c → c ∈ f.individuals) :
    (f.excluding t).domainSize = f.domainSize - 1 := by
  have hvars : ((f.excluding t).excludedVars).Perm (t.var?.toList ++ f.excludedVars) := by
    rw [excludedVars_eq, excludedVars_eq]
    have hperm := (SortedSet.perm_insertList (l := f.constraints.toList) hfree).filterMap
      (·.otherVar? f.bound)
    rw [List.filterMap_cons, Constraint.otherVar?_eq, Constraint.other?_ordered ht] at hperm
    cases t <;> exact hperm
  have hlength := hvars.length_eq
  rw [List.length_append] at hlength
  rw [domainSize, domainSize, hlength]
  cases t with
  | var x =>
    rw [size_individuals_excluding_var fun h => ht (congrArg _ h), Nat.sub_add_eq,
      Nat.sub_right_comm]
    rfl
  | const c =>
    rw [← size_individuals_excluding (hmem c rfl), Nat.sub_right_comm, Nat.add_sub_cancel]
    exact congrArg _ (Nat.zero_add _)

/-- what is left of an exact group is exact, if it is not empty -/
theorem Exact.excluding (hf : f.Valid) (hexact : f.Exact γ) {t : Term} (ht : t ≠ .var f.bound)
    (hfree : Constraint.ordered f.bound t ∉ f.constraints) (hmem : t.eval γ ∈ f.counted γ)
    (hpos : 0 < (f.excluding t).domainSize) : (f.excluding t).Exact γ where
  card := by
    rw [counted_excluding ht, card_erase_of_mem hmem, hexact.card,
      domainSize_excluding ht hfree fun _ hc => by
        rw [hc] at hmem
        exact (hf.mem_counted_iff.mp hmem).1]
  pos := hpos

/-! ## groundings of one more variable -/

section
variable {cs : ConstraintSet} {vars ws : List LogVar}

/-- an individual for the bound variable makes a grounding of one more variable -/
theorem update_mem_solutions (hcs : f.constraints = cs.onVariable f.bound) (hbound : f.bound ∉ vars)
    (hws : ∀ z, z ∈ ws ↔ z = f.bound ∨ z ∈ vars) (hγ : γ ∈ cs.solutions vars) {c : Constant}
    (hc : c ∈ f.counted γ) : Function.update γ f.bound c ∈ cs.solutions ws := by
  have hne : ∀ z ∈ vars, z ≠ f.bound := fun z hz h => hbound (h ▸ hz)
  obtain ⟨hs, hd⟩ := ConstraintSet.mem_solutions.mp hγ
  obtain ⟨hpop, hholds⟩ := mem_counted.mp hc
  refine ConstraintSet.mem_solutions.mpr ⟨⟨fun z hz => ?_, fun k hk hv => ?_⟩, fun z hz => ?_⟩
  · rcases (hws z).mp hz with rfl | hz
    · rwa [Function.update_self]
    · rw [Function.update_of_ne (hne z hz)]
      exact hs.mem z hz
  · by_cases hkb : f.bound ∈ k.variables
    · exact hholds k (hcs ▸ ConstraintSet.mem_onVariable.mpr ⟨hk, hkb⟩)
    · have hvars : ∀ z ∈ k.variables, z ∈ vars := fun z hz =>
        ((hws z).mp (hv z hz)).resolve_left fun h => hkb (h ▸ hz)
      refine (Constraint.holds_congr fun z hz => ?_).mp (hs.holds k hk hvars)
      rw [Function.update_of_ne (hne z (hvars z hz))]
  · rw [Function.update_of_ne fun h => hz ((hws z).mpr (.inl h))]
    exact hd z fun h => hz ((hws z).mpr (.inr h))

/-- without the bound variable it is a grounding of the others -/
theorem forget_mem_solutions (hbound : f.bound ∉ vars) (hws : ∀ z, z ∈ ws ↔ z = f.bound ∨ z ∈ vars)
    (hγ : γ ∈ cs.solutions ws) : Function.update γ f.bound default ∈ cs.solutions vars := by
  have hne : ∀ z ∈ vars, z ≠ f.bound := fun z hz h => hbound (h ▸ hz)
  obtain ⟨hs, hd⟩ := ConstraintSet.mem_solutions.mp hγ
  refine ConstraintSet.mem_solutions.mpr ⟨⟨fun z hz => ?_, fun k hk hv => ?_⟩, fun z hz => ?_⟩
  · rw [Function.update_of_ne (hne z hz)]
    exact hs.mem z ((hws z).mpr (.inr hz))
  · refine (Constraint.holds_congr fun z hz => ?_).mp
      (hs.holds k hk fun z hz => (hws z).mpr (.inr (hv z hz)))
    rw [Function.update_of_ne (hne z (hv z hz))]
  · by_cases hzb : z = f.bound
    · rw [hzb, Function.update_self]
    · rw [Function.update_of_ne hzb]
      exact hd z fun h => ((hws z).mp h).elim hzb hz

/-- the individual of the bound variable is counted -/
theorem apply_bound_mem_counted (hcs : f.constraints = cs.onVariable f.bound)
    (hws : f.bound ∈ ws) (hon : ∀ k ∈ cs, f.bound ∈ k.variables → ∀ z ∈ k.variables, z ∈ ws)
    (hγ : γ ∈ cs.solutions ws) (d : Constant) :
    γ f.bound ∈ f.counted (Function.update γ f.bound d) := by
  have hs := ConstraintSet.solves_of_mem hγ
  refine mem_counted.mpr ⟨hs.mem _ hws, fun k hk => ?_⟩
  obtain ⟨hk, hkb⟩ := ConstraintSet.mem_onVariable.mp (hcs ▸ hk)
  rw [Function.update_idem, Function.update_eq_self]
  exact hs.holds k hk (hon k hk hkb)

/-- **A product over groundings with one more variable** is a product over the groundings without
it, and over the individuals that it has under each of these. -/
theorem prod_solutions_insert {K : Type} [CommMonoid K]
    (hcs : f.constraints = cs.onVariable f.bound) (hbound : f.bound ∉ vars)
    (hws : ∀ z, z ∈ ws ↔ z = f.bound ∨ z ∈ vars)
    (hon : ∀ k ∈ cs, f.bound ∈ k.variables → ∀ z ∈ k.variables, z ∈ ws) (F : Valuation → K) :
    ∏ ε ∈ cs.solutions ws, F ε
      = ∏ γ ∈ cs.solutions vars, ∏ c ∈ f.counted γ, F (Function.update γ f.bound c) := by
  rw [prod_sigma']
  symm
  refine prod_nbij' (fun p => Function.update p.1 f.bound p.2)
    (fun ε => ⟨Function.update ε f.bound default, ε f.bound⟩) ?_ ?_ ?_ ?_ fun _ _ => rfl
  · intro p hp
    obtain ⟨hγ, hc⟩ := mem_sigma.mp hp
    exact update_mem_solutions hcs hbound hws hγ hc
  · intro ε hε
    exact mem_sigma.mpr ⟨forget_mem_solutions hbound hws hε,
      apply_bound_mem_counted hcs ((hws _).mpr (.inl rfl)) hon hε default⟩
  · rintro ⟨γ, c⟩ hp
    have hdefault : γ f.bound = default :=
      (ConstraintSet.mem_solutions.mp (mem_sigma.mp hp).1).2 _ hbound
    simp only [Function.update_idem, Function.update_self]
    rw [← hdefault, Function.update_eq_self]
  · intro ε _
    simp only [Function.update_idem, Function.update_eq_self]

end

end CountingFormula

end LiftedElimination
