import LiftedElimination.Proofs.Expandable
import LiftedElimination.Proofs.Marginalization
import LiftedElimination.Proofs.Operations

/-!
# Regular constraints

When variables go, the groundings of those that stay should extend to equally many groundings of all
variables: only then is one power enough for the whole table.  Inequalities link the variables that
go.  If no split towards the normal form is asked for, linked variables have the same individuals
left, and whatever the groundings of the border of a link are, they are exchanged by a permutation
of these individuals, as long as a grounding gives the variables of the border different individuals.

* `Linked`, `border`      variables that go, and those that stay next to them;
* `solves_iff_domain`     groundings by the individuals that are left;
* `exists_perm`, `Exchanges`   the permutations, one for all variables that are linked;
* `exists_card_above`     what stays extends evenly if the borders differ;
* `exponent_exact`        the exponents of summing out in normal form.
-/

namespace LiftedElimination

open Finset

variable {K : Type}

/-! ## borders -/

namespace ConstraintSet

/-- inequalities between variables that go lead from `x` to `y` -/
def Linked (cs : ConstraintSet) (stay : List LogVar) : LogVar → LogVar → Prop :=
  Relation.ReflTransGen fun x y => x ∉ stay ∧ y ∉ stay ∧ cs.separates x (.var y) = true

open Classical in
/-- the variables that stay and are separated from one linked to `x` -/
noncomputable def border (cs : ConstraintSet) (stay : List LogVar) (x : LogVar) : Finset LogVar :=
  stay.toFinset.filter fun y => ∃ z, cs.Linked stay x z ∧ cs.separates z (.var y) = true

/-- two variables at the border of one that goes have different individuals -/
def BordersDiffer (cs : ConstraintSet) (all stay : List LogVar) : Prop :=
  ∀ x ∈ all, x ∉ stay → ∀ y ∈ cs.border stay x, ∀ z ∈ cs.border stay x, y ≠ z →
    cs.separates y (.var z) = true

/-- separated variables have the same individuals left -/
def SameDomains (cs : ConstraintSet) : Prop :=
  ∀ x y, cs.separates x (.var y) = true → ∀ a, a ∈ x.domain cs ↔ a ∈ y.domain cs

variable {cs : ConstraintSet} {all stay vars : List LogVar} {x y : LogVar} {γ δ : Valuation}

theorem Linked.symm (h : cs.Linked stay x y) : cs.Linked stay y x := by
  induction h with
  | refl => exact .refl
  | tail _ hstep ih =>
    obtain ⟨hx, hy, hsep⟩ := hstep
    exact .head ⟨hy, hx, separates_comm cs _ _ ▸ hsep⟩ ih

theorem mem_border : y ∈ cs.border stay x
    ↔ y ∈ stay ∧ ∃ z, cs.Linked stay x z ∧ cs.separates z (.var y) = true := by
  classical
  rw [border, mem_filter, List.mem_toFinset]

theorem Linked.border_eq (h : cs.Linked stay x y) : cs.border stay x = cs.border stay y := by
  ext z
  rw [mem_border, mem_border]
  refine and_congr_right fun _ => exists_congr fun w => and_congr_left fun _ => ?_
  exact ⟨h.symm.trans, h.trans⟩

/-- variables that are linked have the same individuals left if separated ones have -/
theorem Linked.domain_iff (h : cs.Linked stay x y)
    (hsame : cs.SameDomains) (a : Constant) : a ∈ x.domain cs ↔ a ∈ y.domain cs := by
  induction h with
  | refl => exact Iff.rfl
  | tail _ hstep ih => exact ih.trans (hsame _ _ hstep.2.2 a)

/-! ## groundings by the individuals that are left -/

/-- every variable has an individual that is left for it, and separated variables have different
ones -/
theorem solves_iff_domain (hcs : cs.IsOrdered) : γ.Solves cs vars
    ↔ (∀ x ∈ vars, γ x ∈ x.domain cs)
      ∧ ∀ x ∈ vars, ∀ y ∈ vars, cs.separates x (.var y) = true → γ x ≠ γ y := by
  refine ⟨fun h => ⟨fun x hx => h.mem_domain hx, fun x hx y hy hsep => ?_⟩,
    fun ⟨hdomain, hdiffer⟩ => ⟨fun x hx => (LogVar.mem_domain.mp (hdomain x hx)).1,
      fun c hc hvars => ?_⟩⟩
  · refine (Constraint.holds_ordered x (.var y) γ).mp (h.holds _ (separates_iff.mp hsep) ?_)
    rintro z hz
    rcases Constraint.mem_variables_ordered.mp hz with rfl | hz
    · exact hx
    · cases hz
      exact hy
  · have hfirst := hvars _ (Constraint.mem_variables.mpr (.inl rfl))
    have hmem : Constraint.ordered c.first c.second ∈ cs := (hcs c hc).symm ▸ hc
    cases hsecond : c.second with
    | var y =>
      have hy := hvars y (Constraint.mem_variables.mpr (.inr hsecond))
      rw [hsecond] at hmem
      rw [Constraint.Holds, hsecond]
      exact hdiffer _ hfirst y hy (separates_iff.mpr hmem)
    | const d =>
      rw [Constraint.Holds, hsecond]
      rintro rfl
      exact (LogVar.mem_domain.mp (hdomain _ hfirst)).2 c hc
        (Constraint.excluded?_eq_some.mpr ⟨rfl, hsecond⟩)

end ConstraintSet

/-- some permutation inside of `t` takes one injection of `s` into `t` to another one -/
theorem exists_perm {ι α : Type} [DecidableEq α] {f g : ι → α} (s : Finset ι) (t : Finset α)
    (hf : Set.InjOn f s) (hg : Set.InjOn g s) (hft : ∀ i ∈ s, f i ∈ t) (hgt : ∀ i ∈ s, g i ∈ t) :
    ∃ π : Equiv.Perm α, (∀ i ∈ s, π (f i) = g i) ∧ ∀ a ∈ t, π a ∈ t := by
  classical
  induction s using Finset.induction with
  | empty => exact ⟨1, fun i hi => absurd hi (notMem_empty i), fun a ha => ha⟩
  | insert i s hi ih =>
    rw [coe_insert] at hf hg
    obtain ⟨π, hπ, hπt⟩ := ih (hf.mono (Set.subset_insert i _)) (hg.mono (Set.subset_insert i _))
      (fun j hj => hft j (mem_insert_of_mem hj)) fun j hj => hgt j (mem_insert_of_mem hj)
    have hself : i ∈ insert i (s : Set ι) := Set.mem_insert i _
    -- the image of `f i` so far changes places with `g i`, which no other one has
    refine ⟨Equiv.swap (π (f i)) (g i) * π, fun j hj => ?_, fun a ha => ?_⟩
    · rw [Equiv.Perm.mul_apply]
      rcases mem_insert.mp hj with rfl | hj
      · exact Equiv.swap_apply_left _ _
      have hne : j ≠ i := fun h => hi (h ▸ hj)
      have hmem : j ∈ insert i (s : Set ι) := Set.mem_insert_of_mem i hj
      refine (Equiv.swap_apply_of_ne_of_ne (fun h => hne ?_) fun h => hne ?_).trans (hπ j hj)
      · exact hf hmem hself (π.injective h)
      · exact hg hmem hself ((hπ j hj).symm.trans h)
    · rw [Equiv.Perm.mul_apply, Equiv.swap_apply_def]
      split_ifs
      · exact hgt i (mem_insert_self i s)
      · exact hπt _ (hft i (mem_insert_self i s))
      · exact hπt a ha

namespace ConstraintSet

variable {cs : ConstraintSet} {all stay : List LogVar} {γ δ ε : Valuation}

/-! ## groundings above another one -/

/-- a grounding is different on a border -/
theorem BordersDiffer.injOn (h : cs.BordersDiffer all stay) (hcs : cs.IsOrdered) {x : LogVar}
    (hx : x ∈ all) (hout : x ∉ stay) (hδ : δ ∈ cs.solutions stay) :
    Set.InjOn δ (cs.border stay x) := by
  intro y hy z hz heq
  by_contra hne
  have hdiffer := ((solves_iff_domain hcs).mp (solves_of_mem hδ)).2
  exact hdiffer y (mem_border.mp hy).1 z (mem_border.mp hz).1 (h x hx hout y hy z hz hne) heq

/-- permutations of the individuals, one for all linked variables, that take `δ` to `ε` on the border -/
structure Exchanges (cs : ConstraintSet) (all stay : List LogVar) (δ ε : Valuation)
    (π : LogVar → Equiv.Perm Constant) : Prop where
  linked : ∀ x y, cs.Linked stay x y → π x = π y
  border : ∀ x ∈ all, x ∉ stay → ∀ y ∈ cs.border stay x, π x (δ y) = ε y
  inside : ∀ x ∈ all, x ∉ stay → ∀ a ∈ x.domain cs, π x a ∈ x.domain cs

/-- what stays as `ε` has it, what goes as `γ` has it under the permutations -/
def carry (all stay : List LogVar) (π : LogVar → Equiv.Perm Constant) (ε γ : Valuation) : Valuation :=
  Valuation.restrict (fun x => if x ∈ stay then ε x else π x (γ x)) all

theorem exists_exchanges (hcs : cs.IsOrdered) (hsame : cs.SameDomains)
    (hborders : cs.BordersDiffer all stay) (hδ : δ ∈ cs.solutions stay)
    (hε : ε ∈ cs.solutions stay) : ∃ π, cs.Exchanges all stay δ ε π := by
  have hinside : ∀ {γ : Valuation}, γ ∈ cs.solutions stay → ∀ x, ∀ y ∈ cs.border stay x,
      γ y ∈ (x.domain cs).toFinset := by
    intro γ hγ x y hy
    obtain ⟨hstay, z, hxz, hzy⟩ := mem_border.mp hy
    rw [Population.mem_toFinset, hxz.domain_iff hsame, hsame z y hzy]
    exact (solves_of_mem hγ).mem_domain hstay
  -- one permutation for each border with its individuals
  choose! π hborder hmem using fun (s : Finset LogVar) (t : Finset Constant) => exists_perm
    (f := δ) (g := ε) s t
  refine ⟨fun x => π (cs.border stay x) (x.domain cs).toFinset, fun x y hxy => ?_,
    fun x hx hout => ?_, fun x hx hout a ha => ?_⟩
  · have hdomain : (x.domain cs).toFinset = (y.domain cs).toFinset := by
      ext a
      rw [Population.mem_toFinset, Population.mem_toFinset, hxy.domain_iff hsame]
    exact congrArg₂ π hxy.border_eq hdomain
  · exact hborder _ _ (hborders.injOn hcs hx hout hδ) (hborders.injOn hcs hx hout hε)
      (hinside hδ x) (hinside hε x)
  · refine Population.mem_toFinset.mp (hmem _ _ (hborders.injOn hcs hx hout hδ)
      (hborders.injOn hcs hx hout hε) (hinside hδ x) (hinside hε x) a ?_)
    exact Population.mem_toFinset.mpr ha

namespace Exchanges

variable {π : LogVar → Equiv.Perm Constant}

theorem carry_mem (hπ : cs.Exchanges all stay δ ε π) (hcs : cs.IsOrdered)
    (hall : ∀ x ∈ stay, x ∈ all) (hε : ε ∈ cs.solutions stay) (hγ : γ ∈ cs.above all stay δ) :
    carry all stay π ε γ ∈ cs.above all stay ε := by
  obtain ⟨hγ, hδ⟩ := mem_above.mp hγ
  obtain ⟨hmem, hdiffer⟩ := (solves_iff_domain hcs).mp (solves_of_mem hγ)
  obtain ⟨hεmem, hεdiffer⟩ := (solves_iff_domain hcs).mp (solves_of_mem hε)
  -- a variable that goes next to one that stays
  have hnext : ∀ x ∈ all, x ∉ stay → ∀ y ∈ stay, cs.separates x (.var y) = true →
      π x (γ x) ≠ ε y := by
    intro x hx hout y hy hsep heq
    have hborder := hπ.border x hx hout y (mem_border.mpr ⟨hy, x, .refl, hsep⟩)
    exact hdiffer x hx y (hall y hy) hsep
      ((π x).injective (heq.trans hborder.symm) |>.trans (hδ y hy).symm)
  refine mem_above.mpr ⟨restrict_mem_solutions ((solves_iff_domain hcs).mpr
    ⟨fun x hx => ?_, fun x hx y hy hsep => ?_⟩), fun x hx => ?_⟩
  · by_cases hstay : x ∈ stay
    · rw [if_pos hstay]
      exact hεmem x hstay
    · rw [if_neg hstay]
      exact hπ.inside x hx hstay _ (hmem x hx)
  · by_cases hxs : x ∈ stay <;> by_cases hys : y ∈ stay
    · rw [if_pos hxs, if_pos hys]
      exact hεdiffer x hxs y hys hsep
    · rw [if_pos hxs, if_neg hys]
      exact (hnext y hy hys x hxs (separates_comm cs x y ▸ hsep)).symm
    · rw [if_neg hxs, if_pos hys]
      exact hnext x hx hxs y hys hsep
    · rw [if_neg hxs, if_neg hys, hπ.linked x y (.single ⟨hxs, hys, hsep⟩)]
      exact fun heq => hdiffer x hx y hy hsep ((π y).injective heq)
  · rw [carry, Valuation.restrict_of_mem (hall x hx), if_pos hx]

theorem carry_injOn (π : LogVar → Equiv.Perm Constant) :
    Set.InjOn (carry all stay π ε) (cs.above all stay δ) := by
  intro γ hγ γ' hγ' heq
  obtain ⟨hγ, hδ⟩ := mem_above.mp hγ
  obtain ⟨hγ', hδ'⟩ := mem_above.mp hγ'
  refine eq_of_mem_solutions hγ hγ' fun x hx => ?_
  by_cases hstay : x ∈ stay
  · exact (hδ x hstay).trans (hδ' x hstay).symm
  · have hcarried := congrFun heq x
    rw [carry, carry, Valuation.restrict_of_mem hx, Valuation.restrict_of_mem hx, if_neg hstay,
      if_neg hstay] at hcarried
    exact (π x).injective hcarried

end Exchanges

/-- **Equally many groundings** extend those of the variables that stay, if the borders differ. -/
theorem exists_card_above (hcs : cs.IsOrdered) (hall : ∀ x ∈ stay, x ∈ all) (hsame : cs.SameDomains)
    (hborders : cs.BordersDiffer all stay) :
    ∃ k, ∀ δ ∈ cs.solutions stay, (cs.above all stay δ).card = k := by
  have hle : ∀ {δ ε : Valuation}, δ ∈ cs.solutions stay → ε ∈ cs.solutions stay →
      (cs.above all stay δ).card ≤ (cs.above all stay ε).card := by
    intro δ ε hδ hε
    obtain ⟨π, hπ⟩ := exists_exchanges hcs hsame hborders hδ hε
    exact card_le_card_of_injOn _ (fun γ hγ => hπ.carry_mem hcs hall hε hγ)
      (Exchanges.carry_injOn π)
  rcases (cs.solutions stay).eq_empty_or_nonempty with hempty | ⟨ε, hε⟩
  · exact ⟨0, fun δ hδ => absurd (hempty ▸ hδ) (notMem_empty δ)⟩
  · exact ⟨_, fun δ hδ => le_antisymm (hle hδ hε) (hle hε hδ)⟩

end ConstraintSet

/-! ## exponents in normal form -/

namespace Parfactor

variable {p : Parfactor K} {q : Prv}

/-- in normal form the sides of every inequality have the same individuals left -/
theorem sameDomains_of_violation? (hnormal : p.violation? = none)
    (hmatched : ∀ c ∈ p.constraints, c.IsMatched) : p.constraints.SameDomains := by
  intro x y hsep a
  have hmem := ConstraintSet.separates_iff.mp hsep
  rw [Constraint.ordered_var] at hmem
  split at hmem
  · exact (mem_domain_iff_of_violation? hnormal (hmatched _ hmem) hmem rfl a).symm
  · exact mem_domain_iff_of_violation? hnormal (hmatched _ hmem) hmem rfl a

/-- **In normal form exponents are exact** where the borders of what goes differ: let the builder have
accepted a parfactor whose inequalities relate variables of one population, and let no split towards
the normal form be asked for.  `q` occurs once and mentions all variables, and two variables that stay
and are next to linked ones that go are kept apart.  Then every grounding of what stays extends to
equally many groundings of the parfactor, and as long as the groundings can be counted, the power that
an entry is raised to is this number. -/
theorem exponent_exact [ExactScalar K] (hp : p.Accepted) (hordered : p.constraints.IsOrdered)
    (hmatched : ∀ c ∈ p.constraints, c.IsMatched) (hnormal : p.violation? = none)
    (hone : p.prvs.count q = 1) (hcovers : ∀ x ∈ p.logVars, x ∈ q.freeVars)
    (hborders : p.constraints.BordersDiffer p.logVars (p.staying q)) :
    ∃ k, (∀ δ ∈ (p.constraints.restrictTo (p.staying q)).solutions (p.staying q),
        (p.constraints.above p.logVars (p.staying q) δ).card = k)
      ∧ (p.solutions.card ≤ Cost.limit →
        (p.constraints.solutions (p.staying q)).card ≤ Cost.limit →
        ∃ n m, n = k * m ∧ p.constraints.countGroundings p.logVars = .finite n
          ∧ p.constraints.countGroundings p.prvVars = .finite n
          ∧ p.constraints.countGroundings (p.staying q) = .finite m
          ∧ (m ≠ 0 → ∀ x : K, Scalar.powRatio x (.finite n) (.finite m) = x ^ k)) := by
  obtain ⟨k, hk⟩ := ConstraintSet.exists_card_above hordered (fun _ hx => mem_logVars_of_staying hx)
    (sameDomains_of_violation? hnormal hmatched) hborders
  have hmem : q ∈ p.prvs := List.count_pos_iff.mp (by omega)
  have hprv : p.constraints.solutions p.prvVars = p.solutions := prvSolutions_eq hmem hcovers
  have hcard : p.solutions.card = k * (p.constraints.solutions (p.staying q)).card := by
    rw [Nat.mul_comm]
    exact ConstraintSet.card_solutions_eq (fun _ hx => mem_logVars_of_staying hx) hk
  refine ⟨k, fun δ hδ => hk δ ?_, fun hfew hfew' => ⟨_, _, hcard, ?_, ?_, ?_, fun hm x => ?_⟩⟩
  · rwa [ConstraintSet.solutions_restrictTo fun _ hx => hx] at hδ
  · exact ConstraintSet.countGroundings_eq hordered hp.satisfiable p.nodup_logVars hfew
  · rw [← hprv] at hfew ⊢
    exact ConstraintSet.countGroundings_eq hordered hp.satisfiable (nodup_addVars List.nodup_nil) hfew
  · exact ConstraintSet.countGroundings_eq hordered hp.satisfiable (nodup_addVars List.nodup_nil) hfew'
  · exact powRatio_card hcard hm

end Parfactor

/-! ## meetings -/

open scoped ExactScalar

namespace Epidemic

/-- `Z` meets `V` before `V` meets `X` and `Y` -/
def chance : Prv := .atom ⟨"meet", [.var named, .var visitor, .var person, .var other], .boolean⟩

/-- one sick person infects another one, depending on who has met before -/
def encounters : Parfactor Nat :=
  ⟨.ofList [.ordered person (.var other), .ordered visitor (.var person),
      .ordered visitor (.var other), .ordered named (.var visitor)],
    [chance, .atom (infects (.var person) (.var other))], ⟨#[2, 1, 1, 3]⟩⟩

/-- the same, where the others need not be different people -/
def reunions : Parfactor Nat :=
  ⟨.ofList [.ordered visitor (.var person), .ordered visitor (.var other)],
    [.atom ⟨"meet", [.var visitor, .var person, .var other], .boolean⟩,
      .atom (infects (.var person) (.var other))], ⟨#[1, 2, 3, 2]⟩⟩

theorem accepted_encounters : encounters.Accepted := by
  refine ⟨rfl, fun f hf => ?_, by decide⟩
  simp [encounters, chance] at hf

theorem matched_encounters : ∀ c ∈ encounters.constraints, c.IsMatched := by
  intro c hc y hy
  have hpeople : ∀ c ∈ encounters.constraints, ∀ y ∈ c.second.var?, y.population = people
      ∧ c.first.population = people := by decide
  obtain ⟨hright, hleft⟩ := hpeople c hc y (Term.var?_eq_some.mpr hy)
  exact hright.trans hleft.symm

/-- everything next to what goes are `X` and `Y` -/
theorem bordersDiffer_encounters :
    encounters.constraints.BordersDiffer encounters.logVars (encounters.staying chance) := by
  have hdiffer : ∀ y ∈ encounters.staying chance, ∀ z ∈ encounters.staying chance, y ≠ z →
      encounters.constraints.separates y (.var z) = true := by decide
  exact fun x _ _ y hy z hz => hdiffer y (ConstraintSet.mem_border.mp hy).1 z
    (ConstraintSet.mem_border.mp hz).1

theorem few_encounters {vars : List LogVar}
    (hvars : vars ∈ [encounters.logVars, encounters.staying chance]) :
    (encounters.constraints.solutions vars).card ≤ Cost.limit := by
  have hsearch : ∀ vars ∈ [encounters.logVars, encounters.staying chance], vars.Nodup
      ∧ (Slot.completions (encounters.constraints.slots vars) []).length ≤ Cost.limit := by
    decide
  obtain ⟨hnd, hle⟩ := hsearch vars hvars
  rwa [ConstraintSet.length_completions_eq accepted_encounters.satisfiable hnd] at hle

end Epidemic

/-- two meetings for every two people -/
theorem Epidemic.exponent_exact_encounters :
    (∀ δ ∈ (encounters.constraints.restrictTo (encounters.staying chance)).solutions
        (encounters.staying chance),
      (encounters.constraints.above encounters.logVars (encounters.staying chance) δ).card = 2)
    ∧ ∀ x : Nat, Scalar.powRatio x (encounters.constraints.countGroundings encounters.logVars)
      (encounters.constraints.countGroundings (encounters.staying chance)) = x ^ 2 := by
  have hordered : ∀ c ∈ encounters.constraints, Constraint.ordered c.first c.second = c := by
    decide
  obtain ⟨k, hk, hexact⟩ := Parfactor.exponent_exact (K := Nat) accepted_encounters hordered
    matched_encounters (by decide) (by decide) (by decide)
    bordersDiffer_encounters
  obtain ⟨n, m, hnm, hn, -, hm, hpow⟩ :=
    hexact (few_encounters (by simp)) (few_encounters (by simp))
  have htwelve : encounters.constraints.countGroundings encounters.logVars = .finite 12 := by
    decide
  have hsix : encounters.constraints.countGroundings (encounters.staying chance) = .finite 6 := by
    decide
  obtain rfl : n = 12 := Cost.finite.inj (hn.symm.trans htwelve)
  obtain rfl : m = 6 := Cost.finite.inj (hm.symm.trans hsix)
  obtain rfl : k = 2 := by omega
  exact ⟨hk, fun x => htwelve ▸ hsix ▸ hpow (by decide) x⟩

-- in normal form, but nothing keeps the border apart: 12 groundings over 9
example : Epidemic.reunions.violation? = none
    ∧ Epidemic.reunions.constraints.countGroundings Epidemic.reunions.logVars = .finite 12
    ∧ Epidemic.reunions.constraints.countGroundings [Epidemic.person, Epidemic.other] = .finite 9 := by
  decide

end LiftedElimination
