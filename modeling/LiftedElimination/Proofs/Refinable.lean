import LiftedElimination.Proofs.Schema

/-!
# Refinements can be made

What the comparison of two extents asks for is a variable of the atom and another term of its
population that no constraint keeps apart.  So a refinement is a possible split, a possible
expansion, the split that the expansion still needs, or a conversion; only the expansion of a
formula that excludes variables on a constant can be impossible.

* `Extent.Loose`              what a refinement is about, and `loose_of_refinement?`;
* `Extent.refines_left`, `refines_right`   both sides of a comparison;
* `canSplit_of_regular`       a binding that no constraint excludes is a split;
* `Component.Allows`          an action that can be carried out;
* `Component.chooses_actionOf`, `choosesAmong_nextAction`   the actions that are looked for.
-/

namespace LiftedElimination

variable {K : Type} {s : Schema}

/-! ## loose bindings -/

theorem Constraint.apply_ordered {sigma : Substitution} {x y : LogVar} {t : Term}
    (hx : sigma.apply (.var x) = .var y) :
    (ordered x t).apply sigma = some (ordered y (sigma.apply t)) := by
  cases t with
  | const c =>
    rw [ordered, Constraint.apply, hx]
    rfl
  | var z =>
    rw [ordered_var]
    split
    · show between (sigma.apply (.var z)) (sigma.apply (.var x)) = _
      rw [between_comm, hx]
      rfl
    · show between (sigma.apply (.var x)) (sigma.apply (.var z)) = _
      rw [hx]
      rfl

theorem Constraint.isViolatedBy_ordered {sigma : Substitution} {x : LogVar} {t : Term}
    (h : sigma.apply (.var x) = sigma.apply t) : (ordered x t).isViolatedBy sigma = true := by
  cases t with
  | const c => exact beq_iff_eq.mpr h
  | var y =>
    rw [ordered_var]
    split
    · exact beq_iff_eq.mpr h.symm
    · exact beq_iff_eq.mpr h

namespace Extent

variable {own other a b : Extent} {theta : Substitution} {r : Refinement}

/-- a variable of the atom and another one of it, or an individual, of the same population that no
constraint keeps apart -/
structure Loose (e : Extent) (b : Binding) : Prop extends Binds e.atom.variables b where
  fresh : Constraint.ofBinding b ∉ e.constraints

/-- `r` refines the extent on a loose binding -/
def RefinedBy (e : Extent) (r : Refinement) : Prop :=
  ∃ k, e.Loose k ∧ r = e.refineOn k.source k.target

/-- a constraint of the other side in the own variables is about variables of one population -/
theorem toOwnConstraint_eq_some {vars : List LogVar} {c k : Constraint}
    (hpop : respectsPopulations theta = true) (hkept : c.isViolatedBy theta = false)
    (hmatched : c.IsMatched) (h : toOwnConstraint theta vars c = some k) :
    (∀ x ∈ k.variables, x ∈ vars ∧ x.population = c.first.population)
      ∧ Constraint.ordered k.first k.second = k ∧ k.isContradiction = false := by
  unfold toOwnConstraint at h
  split at h
  · rename_i u v hu hv
    have hfirst : ∀ x, u = .var x → x ∈ vars ∧ x.population = c.first.population := by
      rintro x rfl
      rcases toOwn_eq_some hu with ⟨d, -, hd⟩ | ⟨y, z, hz, hy, hmem, hyz⟩
      · cases hd
      · cases hy
        exact ⟨hmem, (population_image hpop hyz).symm.trans (population_image hpop hz)⟩
    have hsecond : ∀ x, v = .var x → x ∈ vars ∧ x.population = c.first.population := by
      rintro x rfl
      rcases toOwn_eq_some hv with ⟨d, -, hd⟩ | ⟨y, z, hz, hy, hmem, hyz⟩
      · cases hd
      · cases hy
        cases hc : c.second with
        | const d =>
          rw [hc] at hz
          cases hz
        | var w =>
          rw [hc] at hz
          exact ⟨hmem, ((population_image hpop hyz).symm.trans (population_image hpop hz)).trans
            (hmatched w hc)⟩
    refine ⟨fun x hx => ?_, Constraint.ordered_of_between h, ?_⟩
    · exact ((Constraint.mem_variables_between h).mp hx).elim (hfirst x) (hsecond x)
    · refine Bool.eq_false_of_not_eq_true fun hcon => ?_
      have huv : u = v := (Constraint.isContradiction_between h).mp hcon
      have himage : theta.apply (.var c.first) = theta.apply c.second := by
        subst huv
        rcases toOwn_eq_some hu with ⟨d, hd, rfl⟩ | ⟨y, z, hz, rfl, -, hyz⟩ <;>
          rcases toOwn_eq_some hv with ⟨e, he, heq⟩ | ⟨y', z', hz', heq, -, hyz'⟩ <;> cases heq
        · rw [hd, he]
        · rw [hz, hz', ← hyz, hyz']
      rw [Constraint.isViolatedBy, himage, beq_self_eq_true] at hkept
      cases hkept
  · cases h

/-- **A refinement is about a loose binding.** -/
theorem loose_of_refinement? (hpop : respectsPopulations theta = true)
    (hown : ∀ c ∈ own.constraints, c.isViolatedBy theta = false)
    (hother : ∀ c ∈ other.constraints, c.isViolatedBy theta = false ∧ c.IsMatched)
    (h : own.refinement? other theta = some r) : own.RefinedBy r := by
  have hfresh : ∀ {x : LogVar} {t : Term}, theta.apply (.var x) = theta.apply t →
      Constraint.ordered x t ∉ own.constraints := by
    intro x t hxt hmem
    have hkept := hown _ hmem
    rw [Constraint.isViolatedBy_ordered hxt] at hkept
    cases hkept
  obtain ⟨x, c, hx, hxc, rfl⟩ | ⟨x, y, z, hx, hy, hne, hxz, hyz, rfl⟩ | ⟨c, hc, k, hk, hnot, rfl⟩ :=
    refinement?_eq_some h
  · refine ⟨⟨x, .const c⟩, ⟨⟨hx, nofun, fun d hd => ?_, nofun⟩, hfresh hxc⟩, rfl⟩
    cases hd
    rcases population_apply hpop x with ⟨z, hz, -⟩ | ⟨d, hd, hdx⟩
    · rw [hxc] at hz
      cases hz
    · cases Term.const.inj (hxc.symm.trans hd)
      exact hdx
  · refine ⟨⟨x, .var y⟩, ⟨⟨hx, fun h => hne (Term.var.inj h).symm, nofun, fun w hw => ?_⟩,
      hfresh (hxz.trans hyz.symm)⟩, rfl⟩
    cases hw
    exact ⟨hy, (population_image hpop hyz).symm.trans (population_image hpop hxz)⟩
  · obtain ⟨hvars, hordered, hcon⟩ :=
      toOwnConstraint_eq_some hpop (hother c hc).1 (hother c hc).2 hk
    have hfirst := hvars k.first (Constraint.mem_variables.mpr (.inl rfl))
    rw [entails, Bool.or_eq_false_iff] at hnot
    refine ⟨⟨k.first, k.second⟩, ⟨⟨hfirst.1, fun h => ?_, fun d hd => ?_, fun y hy => ?_⟩,
      fun hmem => ?_⟩, rfl⟩
    · exact absurd (Constraint.isContradiction_iff.mpr h) (Bool.eq_false_iff.mp hcon)
    · have hd : k.second = .const d := hd
      simpa [hd] using hnot.2
    · have hy := hvars y (Constraint.mem_variables.mpr (.inr hy))
      exact ⟨hy.1, hy.2.trans hfirst.2.symm⟩
    · rw [Constraint.ofBinding, hordered] at hmem
      exact absurd (SortedSet.contains_iff_mem.mpr hmem) (Bool.eq_false_iff.mp hnot.1)

/-! ### both sides of a comparison -/

theorem keepsPopulations_away (e other : Extent) : (e.away other).KeepsPopulations := by
  intro x y hxy
  obtain ⟨z, hz, hpop⟩ := away_isRenaming e other x
  rw [Term.var.inj (hxy.symm.trans hz)]
  exact hpop

/-- what the left side of a comparison needs -/
theorem refines_left {l : Refinement} {r : Option Refinement} (hb : b.constraints.Matched)
    (h : a.compare b = .overlapping (some l) r) : a.RefinedBy l := by
  obtain ⟨o, ho, hl, -⟩ := compare_eq_overlapping h
  have hover := overlaps_of_overlap? ho
  have hright : o.right.constraints.Matched := by
    rw [hover.right]
    exact hb.filterMap_apply (keepsPopulations_away b a)
  exact loose_of_refinement? hover.populations (fun c hc => hover.kept c (.inl hc))
    (fun c hc => ⟨hover.kept c (.inr hc), hright.matched c hc⟩) hl

theorem rename_eq {sigma : Substitution} {x y : LogVar} (h : sigma.apply (.var x) = .var y) :
    rename sigma x = y := by
  rw [rename, h]
  rfl

/-- the counted variable is renamed with the others -/
theorem counted_apartFrom {x y : LogVar} (hb : ∀ z, b.counted = some z → z ∈ b.atom.variables)
    (hx : x ∈ b.atom.variables) (hxy : (b.away a).apply (.var x) = .var y) :
    (b.apartFrom a).1.counted = some y ↔ b.counted = some x := by
  show b.counted.map (rename (b.away a)) = some y ↔ _
  constructor
  · intro h
    obtain ⟨z, hz, hzy⟩ := Option.map_eq_some_iff.mp h
    obtain ⟨w, hw, -⟩ := away_isRenaming b a z
    rw [rename_eq hw] at hzy
    rw [hz, away_injOn b a z (hb z hz) x hx (hw.trans (hzy ▸ hxy.symm))]
  · intro h
    rw [h, Option.map_some, rename_eq hxy]

/-- `k` is the binding `k'` of `b` with the names that keep `b` apart from `a` -/
structure Primed (a b : Extent) (k' k : Binding) : Prop where
  source : (b.away a).apply (.var k'.source) = .var k.source
  target : (b.away a).apply k'.target = k.target
  source_back : (b.apartFrom a).2.apply (.var k.source) = .var k'.source
  target_back : (b.apartFrom a).2.apply k.target = k'.target

theorem Loose.unprimed {k : Binding} (hk : (b.apartFrom a).1.Loose k) :
    ∃ k', b.Loose k' ∧ Primed a b k' k := by
  have hpre : ∀ {z : LogVar}, z ∈ (b.apartFrom a).1.atom.variables → ∃ x ∈ b.atom.variables,
      (b.away a).apply (.var x) = .var z ∧ (b.apartFrom a).2.apply (.var z) = .var x
        ∧ z.population = x.population := by
    intro z hz
    obtain ⟨x, hx, hxz⟩ := Atom.mem_variables_apply.mp hz
    exact ⟨x, hx, hxz, back_away hx hxz, keepsPopulations_away b a x z hxz⟩
  obtain ⟨x, hx, hxk, hback, hpop⟩ := hpre hk.source_mem
  have htarget : ∃ t, (b.away a).apply t = k.target ∧ (b.apartFrom a).2.apply k.target = t
      ∧ ∀ y, t = .var y → y ∈ b.atom.variables ∧ y.population = x.population := by
    cases ht : k.target with
    | const c => exact ⟨.const c, rfl, rfl, nofun⟩
    | var z =>
      obtain ⟨hz, hzpop⟩ := hk.var z ht
      obtain ⟨y, hy, hyz, hback, hypop⟩ := hpre hz
      refine ⟨.var y, hyz, hback, fun w hw => ?_⟩
      cases hw
      exact ⟨hy, hypop.symm.trans (hzpop.trans hpop)⟩
  obtain ⟨t, htk, hbackt, htvar⟩ := htarget
  refine ⟨⟨x, t⟩, ⟨⟨hx, fun htx => ?_, fun c hc => ?_, htvar⟩, fun hmem => ?_⟩,
    ⟨hxk, htk, hback, hbackt⟩⟩
  · have htx : t = .var x := htx
    rw [htx] at htk
    exact hk.target_ne (htk.symm.trans hxk)
  · have hc : t = .const c := hc
    rw [hc] at htk
    exact hpop ▸ hk.const c htk.symm
  · refine hk.fresh (SortedSet.mem_filterMap.mpr ⟨_, hmem, ?_⟩)
    show (Constraint.ordered x t).apply (b.away a) = _
    rw [Constraint.apply_ordered hxk, htk]
    rfl

/-- a refinement under the names of before -/
theorem Primed.refineOn {k' k : Binding} (h : Primed a b k' k) (hk : b.Loose k')
    (hb : ∀ z, b.counted = some z → z ∈ b.atom.variables) :
    ((b.apartFrom a).1.refineOn k.source k.target).apply (b.apartFrom a).2
      = b.refineOn k'.source k'.target := by
  have hsource := counted_apartFrom hb hk.source_mem h.source
  have htarget : (b.apartFrom a).1.counted.map Term.var = some k.target
      ↔ b.counted.map Term.var = some k'.target := by
    rw [← h.target]
    cases ht : k'.target with
    | const c => simp
    | var y =>
      obtain ⟨z, hz, -⟩ := away_isRenaming b a y
      simpa [hz] using counted_apartFrom hb (hk.var y ht).1 hz
  unfold Extent.refineOn
  by_cases hs : b.counted = some k'.source
  · rw [if_pos (hsource.mpr hs), if_pos hs]
    exact congrArg _ h.target_back
  · rw [if_neg (mt hsource.mp hs), if_neg hs]
    by_cases ht : b.counted.map Term.var = some k'.target
    · rw [if_pos (htarget.mpr ht), if_pos ht]
      exact congrArg _ h.source_back
    · rw [if_neg (mt htarget.mp ht), if_neg ht]
      exact congrArg Refinement.split (congrArg₂ Binding.mk (rename_eq h.source_back) h.target_back)

/-- what the right side of a comparison needs, under its own names -/
theorem refines_right {l : Option Refinement} {r : Refinement} (ha : a.constraints.Matched)
    (hb : ∀ z, b.counted = some z → z ∈ b.atom.variables)
    (h : a.compare b = .overlapping l (some r)) : b.RefinedBy r := by
  obtain ⟨o, ho, -, hr⟩ := compare_eq_overlapping h
  obtain ⟨r₀, hr₀, rfl⟩ := Option.map_eq_some_iff.mp hr
  have hover := overlaps_of_overlap? ho
  obtain ⟨k, hk, rfl⟩ := loose_of_refinement? hover.populations
    (fun c hc => hover.kept c (.inr hc))
    (fun c hc => ⟨hover.kept c (.inl hc), ha.matched c hc⟩) hr₀
  rw [hover.right] at hk ⊢
  obtain ⟨k', hk', hprimed⟩ := hk.unprimed
  exact ⟨k', hk', by rw [back_of_overlap? ho, hprimed.refineOn hk' hb]⟩

theorem Loose.symm {x y : LogVar} (h : a.Loose ⟨x, .var y⟩) : a.Loose ⟨y, .var x⟩ where
  source_mem := (h.var y rfl).1
  target_ne hxy := h.target_ne (congrArg Term.var (Term.var.inj hxy).symm)
  const := nofun
  var z hz := by
    cases hz
    exact ⟨h.source_mem, (h.var y rfl).2.symm⟩
  fresh hmem := h.fresh (by
    rw [Constraint.ofBinding, Constraint.ordered_comm]
    exact hmem)

theorem matched_of {q : Prv} {cs : ConstraintSet} (hcs : cs.Matched)
    (hq : ∀ f, q = .count f → f.constraints.Matched) : (of q cs).constraints.Matched := by
  have hall : (q.constraintsIn cs).Matched → (of q cs).constraints.Matched := fun h =>
    h.mono fun c hc => (ConstraintSet.mem_restrictTo.mp (of_constraints q cs ▸ hc)).1
  apply hall
  cases q with
  | atom a => exact hcs
  | count f =>
    have hf := hq f rfl
    refine ⟨fun c hc => ?_, fun c hc => ?_⟩ <;> rcases SortedSet.mem_union.mp hc with hc | hc
    · exact hcs.ordered c hc
    · exact hf.ordered c hc
    · exact hcs.matched c hc
    · exact hf.matched c hc

/-- a loose binding is fresh for all constraints of the occurrence -/
theorem Loose.notMem {q : Prv} {cs : ConstraintSet} {k : Binding} (h : (of q cs).Loose k) :
    Constraint.ofBinding k ∉ q.constraintsIn cs := by
  intro hmem
  have hfresh := h.fresh
  rw [of_constraints] at hfresh
  refine hfresh (ConstraintSet.mem_restrictTo.mpr ⟨hmem, fun x hx => ?_⟩)
  rw [← of_atom q cs]
  rcases Constraint.mem_variables_ordered.mp hx with rfl | hx
  · exact h.source_mem
  · exact (h.var x hx).1

end Extent

/-! ## splits -/

/-- **A binding that no constraint excludes is a split.** -/
theorem canSplit_of_regular {vars : List LogVar} {cs : ConstraintSet} {b : Binding}
    (hcs : cs.Regular) (hb : Binds vars b) (hfresh : Constraint.ofBinding b ∉ cs) :
    canSplit vars cs b = true := by
  have hpossible : (cs.apply (.single b)).isSome = true := by
    by_contra hnone
    obtain ⟨c, hc, hviolated⟩ :=
      ConstraintSet.apply_eq_none.mp (Option.not_isSome_iff_eq_none.mp hnone)
    have hordered := hcs.ordered c hc
    have hsatisfiable := hcs.satisfiable c hc
    have heq : (Substitution.single b).apply (.var c.first)
        = (Substitution.single b).apply c.second := beq_iff_eq.mp hviolated
    have hsecond : c.second ≠ .var c.first := fun h =>
      absurd (Constraint.isContradiction_iff.mpr h) (Bool.eq_false_iff.mp hsatisfiable)
    have hfix : ∀ t, t ≠ .var b.source → (Substitution.single b).apply t = t := by
      intro t ht
      cases t with
      | const d => rfl
      | var x => exact Substitution.apply_single_ne fun h => ht (congrArg Term.var h)
    by_cases hsource : c.first = b.source
    · rw [hsource, Substitution.apply_single_self, hfix c.second (hsource ▸ hsecond)] at heq
      refine hfresh ?_
      rwa [Constraint.ofBinding, heq, ← hsource, hordered]
    · rw [Substitution.apply_single_ne hsource] at heq
      by_cases htarget : c.second = .var b.source
      · rw [htarget, Substitution.apply_single_self] at heq
        refine hfresh ?_
        rwa [Constraint.ofBinding, ← heq, Constraint.ordered_comm, ← htarget, hordered]
      · rw [hfix c.second htarget] at heq
        exact hsecond heq.symm
  have htrivial : b.isTrivial = false := Bool.eq_false_of_not_eq_true fun h =>
    hb.target_ne (beq_iff_eq.mp h)
  have hcontains : cs.contains (.ofBinding b) = false := Bool.eq_false_of_not_eq_true fun h =>
    hfresh (SortedSet.contains_iff_mem.mp h)
  unfold canSplit
  rw [htrivial, hcontains, hpossible, decide_eq_true hb.source_mem]
  cases ht : b.target with
  | const c => simpa using hb.const c ht
  | var y => simpa using hb.var y ht

namespace Component

variable {c : Component K} {q : Prv}

theorem isSplittable_of_loose {k : Binding} (hcs : c.constraints.Regular)
    (hk : (Extent.of q c.constraints).Loose k) (hsource : k.source ∈ c.logVars)
    (htarget : ∀ y, k.target = .var y → y ∈ c.logVars) : c.isSplittable k = true := by
  have hb : Binds c.logVars k :=
    ⟨hsource, hk.target_ne, hk.const, fun y hy => ⟨htarget y hy, (hk.var y hy).2⟩⟩
  have hfresh : Constraint.ofBinding k ∉ c.constraints := fun hmem => hk.notMem (by
    cases q with
    | atom a => exact hmem
    | count f => exact SortedSet.mem_union.mpr (.inl hmem))
  cases c <;> exact canSplit_of_regular hcs hb hfresh

end Component

/-! ## expansions -/

/-- a constraint in its canonical form is the one on `x` and what `x` differs from by it -/
theorem Constraint.eq_ordered_of_other? {c : Constraint} {x : LogVar} {t : Term}
    (hc : ordered c.first c.second = c) (h : c.other? x = some t) : c = ordered x t := by
  unfold other? at h
  split at h
  · rename_i hfirst
    cases h
    rw [← hfirst, hc]
  · split at h
    · rename_i hsecond
      cases h
      rw [ordered_comm, ← hsecond, hc]
    · cases h

namespace CountingFormula

variable {f : CountingFormula} {t : Term}

theorem mem_of_mem_exclusions (hf : f.constraints.IsOrdered) (h : t ∈ f.exclusions) :
    Constraint.ordered f.bound t ∈ f.constraints := by
  obtain ⟨c, hc, hother⟩ := mem_exclusions.mp h
  exact Constraint.eq_ordered_of_other? (hf c hc) hother ▸ hc

theorem population_of_mem_excludedVars (hf : f.constraints.Matched) {x : LogVar}
    (h : x ∈ f.excludedVars) : x.population = f.bound.population := by
  have hmem := mem_of_mem_exclusions hf.ordered (mem_excludedVars_iff.mp h)
  have hmatched := hf.matched _ hmem
  rw [Constraint.ordered_var] at hmatched
  split at hmatched
  · exact (hmatched f.bound rfl).symm
  · exact hmatched x rfl

/-- a term that no constraint keeps apart from the bound variable can be taken out of the group,
unless it is an individual and some variable is excluded -/
theorem isExpandable_of_loose {cs : ConstraintSet} (hf : f.constraints.IsOrdered)
    (h : (Extent.of (.count f) cs).Loose ⟨f.bound, t⟩) :
    f.isExpandable t = true ∨ (∃ c, t = .const c) ∧ f.excludedVars ≠ [] := by
  have hfresh : Constraint.ordered f.bound t ∉ f.constraints := fun hmem =>
    h.notMem (SortedSet.mem_union.mpr (.inr hmem))
  cases t with
  | const c =>
    by_cases hexcluded : f.excludedVars = []
    · left
      have hc : c ∈ f.individuals := mem_individuals.mpr
        ⟨h.const c rfl, fun hmem => hfresh (mem_of_mem_exclusions hf hmem)⟩
      simp [isExpandable, hexcluded, hc]
    · exact .inr ⟨⟨c, rfl⟩, hexcluded⟩
  | var x =>
    left
    have hne : x ≠ f.bound := fun hx => h.target_ne (congrArg Term.var hx)
    have hseparates : f.constraints.separates f.bound (.var x) = false :=
      Bool.eq_false_of_not_eq_true fun hs => hfresh (ConstraintSet.separates_iff.mp hs)
    have hpop : x.population = f.bound.population := (h.var x rfl).2
    simp [isExpandable, hne, hpop, hseparates]

end CountingFormula

namespace Parfactor

variable {p : Parfactor K} {f : CountingFormula} {t : Term} {b : Binding}

/-- an expansion still needs a split on the term and an excluded one, and one of them is a variable -/
theorem prerequisite?_eq_some (h : p.prerequisite? f t = some b) :
    (∃ y, .var y ∈ f.exclusions ∧ p.separates y t = false ∧ b = ⟨y, t⟩)
      ∨ ∃ c x, .const c ∈ f.exclusions ∧ t = .var x ∧ p.separates x (.const c) = false
        ∧ b = ⟨x, .const c⟩ := by
  obtain ⟨excluded, hexcluded, hb⟩ := List.exists_of_findSome?_eq_some h
  cases excluded with
  | var y =>
    dsimp only at hb
    split at hb
    · cases hb
    · rename_i hseparates
      cases hb
      exact .inl ⟨y, hexcluded, Bool.eq_false_iff.mpr hseparates, rfl⟩
  | const c =>
    cases t with
    | const d => cases hb
    | var x =>
      dsimp only at hb
      split at hb
      · cases hb
      · rename_i hseparates
        cases hb
        exact .inr ⟨c, x, hexcluded, rfl, Bool.eq_false_iff.mpr hseparates, rfl⟩

/-- **The split that an expansion still needs is possible.** -/
theorem isSplittable_of_prerequisite? (hp : (Component.standard p).Regular s)
    (hf : Prv.count f ∈ p.prvs) (ht : f.isExpandable t = true)
    (hvar : ∀ x, t = .var x → x ∈ p.logVars) (h : p.prerequisite? f t = some b) :
    p.isSplittable b = true := by
  have hmatched : f.constraints.Matched := (hp.prvs _ hf).matched f rfl
  have hsplit : Binds p.logVars b → Constraint.ofBinding b ∉ p.constraints →
      p.isSplittable b = true := canSplit_of_regular hp.constraints
  obtain ⟨y, hexcluded, hseparates, rfl⟩ | ⟨c, x, -, rfl, hseparates, rfl⟩ :=
    prerequisite?_eq_some h
  · have hy : y ∈ f.excludedVars := CountingFormula.mem_excludedVars_iff.mpr hexcluded
    cases t with
    | const c =>
      rw [(CountingFormula.isExpandable_const ht).1] at hy
      cases hy
    | var x =>
      obtain ⟨hne, hpop, hfresh⟩ := CountingFormula.isExpandable_var ht
      have hxy : x ≠ y := by
        rintro rfl
        exact hfresh (CountingFormula.mem_of_mem_exclusions hmatched.ordered hexcluded)
      have hymem : y ∈ p.logVars := mem_logVars.mpr
        (.inl ⟨_, hf, CountingFormula.mem_freeVars.mpr (.inr hy)⟩)
      refine hsplit ⟨hymem, fun h => hxy (Term.var.inj h), fun c hc => ?_, fun z hz => ?_⟩
        fun hmem => ?_
      · cases hc
      · cases hz
        exact ⟨hvar x rfl,
          hpop.trans (CountingFormula.population_of_mem_excludedVars hmatched hy).symm⟩
      · have hkept := ConstraintSet.separates_iff.mpr hmem
        simp [separates, hxy, hkept] at hseparates
  · simp only [separates, Bool.or_eq_false_iff, decide_eq_false_iff_not, Decidable.not_not]
      at hseparates
    refine hsplit ⟨hvar x rfl, fun h => ?_, fun d hd => ?_, fun z hz => ?_⟩ fun hmem => ?_
    · cases h
    · cases hd
      exact hseparates.1
    · cases hz
    · exact Bool.eq_false_iff.mp hseparates.2 (ConstraintSet.separates_iff.mpr hmem)

theorem isExpandable_of_prerequisite? (hf : Prv.count f ∈ p.prvs) (ht : f.isExpandable t = true)
    (hvar : ∀ x, t = .var x → x ∈ p.logVars) (h : p.prerequisite? f t = none) :
    p.isExpandable f t = true := by
  unfold isExpandable contains
  rw [decide_eq_true hf, ht, h]
  cases t with
  | const c => rfl
  | var x => simpa using hvar x rfl

/-- a split on an individual that no constraint excludes is possible -/
theorem isSplittable_const (hcs : p.constraints.Regular) {x : LogVar} {k : Constant}
    (hx : x ∈ p.logVars) (hk : k ∈ x.domain p.constraints) :
    p.isSplittable ⟨x, .const k⟩ = true := by
  obtain ⟨hpop, hnot⟩ := LogVar.mem_domain.mp hk
  refine canSplit_of_regular hcs ⟨hx, nofun, fun d hd => ?_, nofun⟩ fun hmem => ?_
  · cases hd
    exact hpop
  · exact hnot _ hmem (Constraint.excluded?_eq_some.mpr ⟨rfl, rfl⟩)

/-- a split towards the normal form of the constraints is possible -/
theorem isSplittable_of_violation? (hcs : p.constraints.Regular)
    (h : p.violation? = some b) : p.isSplittable b = true := by
  obtain ⟨c, hc, hb⟩ := List.exists_of_findSome?_eq_some h
  have hmem : ∀ x ∈ c.variables, x ∈ p.logVars := fun x hx =>
    mem_logVars.mpr (.inr (ConstraintSet.mem_variables.mpr ⟨c, hc, hx⟩))
  have houtsider : ∀ {d e : Population} {k : Constant}, d.outsider? e = some k → k ∈ d := by
    intro d e k hk
    rw [Population.outsider?_eq] at hk
    exact List.mem_of_find?_eq_some hk
  cases hsecond : c.second with
  | const d =>
    rw [hsecond] at hb
    cases hb
  | var y =>
    rw [hsecond] at hb
    dsimp only at hb
    split at hb
    · split at hb
      · rename_i k hk
        cases hb
        exact isSplittable_const hcs (hmem _ (Constraint.mem_variables.mpr (.inl rfl)))
          (houtsider hk)
      · obtain ⟨k, hk, rfl⟩ := Option.map_eq_some_iff.mp hb
        exact isSplittable_const hcs (hmem _ (Constraint.mem_variables.mpr (.inr hsecond)))
          (houtsider hk)
    · cases hb

end Parfactor

/-! ## actions -/

/-- the errors that no guard prevents: a malformed table or its size, and the expansion of a
formula that excludes variables on an individual -/
inductive Error.Unguarded : Error → Prop where
  | bounds : Unguarded .tableBounds
  | overflow : Unguarded .overflow
  | size : Unguarded (.invalidParfactor "factor size overflows")
  | expansion (f : CountingFormula) (c : Constant) (h : f.excludedVars ≠ []) :
    Unguarded (.notExpandable f.text (Term.const c).text)

namespace Component

variable {c : Component K} {q : Prv} {i : Nat} {r : Extent.Refinement}

/-- the action can be carried out on the component -/
def Allows (c : Component K) : Action → Prop
  | .split b => c.isSplittable b = true
  | .expand f t => ∃ p, c = .standard p ∧ p.isExpandable f t = true
  | .convert => ∃ a, c = .aggregation a

/-- what can come of a choice of actions -/
structure Chooses (c : Component K) (x : Except Error Action) : Prop where
  errors : ErrorsIn Error.Unguarded x
  allows : ∀ a, x = .ok a → c.Allows a

theorem Chooses.ok {a : Action} (h : c.Allows a) : c.Chooses (.ok a) :=
  ⟨.ok a, fun b hb => by cases hb; exact h⟩

theorem Chooses.error {e : Error} (h : e.Unguarded) : c.Chooses (.error e) := ⟨.error h, nofun⟩

/-- the refinement of an occurrence of a formula by an expansion -/
theorem chooses_expand [Scalar K] {p : Parfactor K} {f : CountingFormula} {t : Term}
    (hp : (standard p).Regular s) (hi : p.prvs[i]? = some (.count f))
    (hk : (Extent.of (.count f) p.constraints).Loose ⟨f.bound, t⟩) :
    (standard p).Chooses ((standard p).actionOf i (.expand t)) := by
  have hf : Prv.count f ∈ p.prvs := List.mem_of_getElem? hi
  have hvar : ∀ x, t = .var x → x ∈ p.logVars := by
    rintro x rfl
    refine Parfactor.mem_logVars.mpr (.inl ⟨_, hf, CountingFormula.mem_freeVars.mpr (.inl ⟨?_, ?_⟩)⟩)
    · exact (hk.var x rfl).1
    · exact fun hx => hk.target_ne (congrArg Term.var hx)
  unfold actionOf
  dsimp only
  rw [hi]
  dsimp only
  rcases CountingFormula.isExpandable_of_loose ((hp.prvs _ hf).matched f rfl).ordered hk with
    hexpandable | ⟨⟨d, rfl⟩, hexcluded⟩
  · split
    · rename_i hall
      exact .ok ⟨p, rfl, hall⟩
    · rename_i hnot
      split
      · rename_i b hb
        exact .ok (Parfactor.isSplittable_of_prerequisite? hp hf hexpandable hvar hb)
      · rename_i hnone
        exact absurd (Parfactor.isExpandable_of_prerequisite? hf hexpandable hvar hnone) hnot
  · have hnot : f.isExpandable (.const d) ≠ true := fun h =>
      hexcluded (CountingFormula.isExpandable_const h).1
    have hnot' : p.isExpandable f (.const d) ≠ true := fun h =>
      hnot (Parfactor.expandsOn_of_isExpandable h).expandable
    rw [if_neg hnot', if_neg hnot]
    exact .error (.expansion f d hexcluded)

/-- **A refinement leads to an action that can be carried out.** -/
theorem chooses_actionOf [Scalar K] (hc : c.Regular s) (hi : c.prvs[i]? = some q)
    (hr : (Extent.of q c.constraints).RefinedBy r) : c.Chooses (c.actionOf i r) := by
  obtain ⟨k, hk, rfl⟩ := hr
  have hq : q ∈ c.prvs := List.mem_of_getElem? hi
  have hsource : k.source ∈ q.base.variables := Extent.of_atom q _ ▸ hk.source_mem
  have htarget : ∀ y, k.target = .var y → y ∈ q.base.variables := fun y hy =>
    Extent.of_atom q _ ▸ (hk.var y hy).1
  cases c with
  | aggregation a =>
    obtain ⟨d, hd, rfl⟩ := List.mem_map.mp hq
    have hlog : ∀ x ∈ d.variables, x ≠ a.extra → x ∈ a.logVars := fun x hx hne =>
      Aggregation.mem_logVars.mpr ⟨.inl ⟨d, hd, hx⟩, hne⟩
    show (aggregation a).Chooses (.ok (if k.source = a.extra ∨ k.target = .var a.extra then _ else _))
    split
    · exact .ok ⟨a, rfl⟩
    · rename_i hnot
      rw [not_or] at hnot
      refine .ok (isSplittable_of_loose hc.constraints hk (hlog _ hsource hnot.1) fun y hy => ?_)
      exact hlog y (htarget y hy) fun h => hnot.2 (h ▸ hy)
  | standard p =>
    cases q with
    | atom d =>
      have hlog : ∀ x ∈ d.variables, x ∈ p.logVars := fun x hx =>
        Parfactor.mem_logVars.mpr (.inl ⟨_, hq, hx⟩)
      exact .ok (isSplittable_of_loose hc.constraints hk (hlog _ hsource) fun y hy =>
        hlog y (htarget y hy))
    | count f =>
      have hlog : ∀ x ∈ f.inner.variables, x ≠ f.bound → x ∈ p.logVars := fun x hx hne =>
        Parfactor.mem_logVars.mpr (.inl ⟨_, hq, CountingFormula.mem_freeVars.mpr (.inl ⟨hx, hne⟩)⟩)
      obtain ⟨x, t⟩ := k
      unfold Extent.refineOn
      split
      · rename_i hbound
        cases hbound
        exact chooses_expand hc hi hk
      · rename_i hne
        split
        · rename_i hbound
          cases hbound
          exact chooses_expand hc hi hk.symm
        · rename_i hne'
          refine .ok (isSplittable_of_loose hc.constraints hk
            (hlog x hsource fun h => hne (h ▸ rfl)) fun y hy => ?_)
          exact hlog y (htarget y hy) fun h => hne' (by rw [hy, h]; rfl)

end Component

/-! ## the next action -/

variable {cs : List (Component K)} {kept : List PrvSet}

theorem mem_occurrences {o : Occurrence} (h : o ∈ occurrences cs) : ∃ c q,
    cs[o.component]? = some c ∧ c.prvs[o.place]? = some q ∧ o.extent = .of q c.constraints := by
  obtain ⟨⟨c, i⟩, hc, ho⟩ := List.mem_flatMap.mp h
  obtain ⟨⟨q, j⟩, hq, rfl⟩ := List.mem_map.mp ho
  exact ⟨c, q, List.mk_mem_zipIdx_iff_getElem?.mp hc, List.mk_mem_zipIdx_iff_getElem?.mp hq, rfl⟩

/-- the extent of an occurrence in regular components -/
theorem matched_of_mem_occurrences (hcs : ∀ c ∈ cs, c.Regular s) {o : Occurrence}
    (h : o ∈ occurrences cs) : o.extent.constraints.Matched
      ∧ ∀ z, o.extent.counted = some z → z ∈ o.extent.atom.variables := by
  obtain ⟨c, q, hc, hq, hextent⟩ := mem_occurrences h
  have hregular := hcs c (List.mem_of_getElem? hc)
  have hqmem := List.mem_of_getElem? hq
  rw [hextent]
  refine ⟨Extent.matched_of hregular.constraints.toMatched (hregular.prvs q hqmem).matched,
    fun z hz => ?_⟩
  refine Prv.Valid.counted_mem ?_ hz
  cases c with
  | standard p => exact Parfactor.Proper.valid hregular.formed q hqmem
  | aggregation a =>
    obtain ⟨d, -, rfl⟩ := List.mem_map.mp hqmem
    trivial

/-- a comparison asks for the refinement `r` of the occurrence `o`: one with another occurrence, on
either side, or one with a kept set -/
inductive Asked (cs : List (Component K)) (kept : List PrvSet) (o : Occurrence)
    (r : Extent.Refinement) : Prop where
  | left {o' : Occurrence} {x : Option Extent.Refinement} (ho : o ∈ occurrences cs)
    (ho' : o' ∈ occurrences cs) (h : o.extent.compare o'.extent = .overlapping (some r) x)
  | right {o' : Occurrence} {x : Option Extent.Refinement} (ho : o ∈ occurrences cs)
    (ho' : o' ∈ occurrences cs) (h : o'.extent.compare o.extent = .overlapping x (some r))
  | kept {t : PrvSet} {x : Option Extent.Refinement} (ho : o ∈ occurrences cs) (ht : t ∈ kept)
    (h : o.extent.compare (.ofSet t) = .overlapping (some r) x)

theorem Asked.mem {o : Occurrence} {r : Extent.Refinement} (h : Asked cs kept o r) :
    o ∈ occurrences cs := by
  cases h <;> assumption

/-- **A comparison asks for refinements on loose bindings.** -/
theorem Asked.refinedBy {o : Occurrence} {r : Extent.Refinement}
    (hcs : ∀ o ∈ occurrences cs, o.extent.constraints.Matched
      ∧ ∀ z, o.extent.counted = some z → z ∈ o.extent.atom.variables)
    (hkept : ∀ t ∈ kept, (Extent.ofSet t).constraints.Matched) (h : Asked cs kept o r) :
    o.extent.RefinedBy r := by
  cases h with
  | left _ ho' h => exact Extent.refines_left (hcs _ ho').1 h
  | right ho ho' h => exact Extent.refines_right (hcs _ ho').1 (hcs _ ho).2 h
  | kept _ ht h => exact Extent.refines_left (hkept _ ht) h

theorem asked_of_separating? {o₁ o₂ o : Occurrence} {r : Extent.Refinement}
    (h₁ : o₁ ∈ occurrences cs) (h₂ : o₂ ∈ occurrences cs) (h : separating? o₁ o₂ = some (o, r)) :
    Asked cs kept o r := by
  unfold separating? at h
  split at h
  · rename_i hcompare
    cases h
    exact .left h₁ h₂ hcompare
  · rename_i hcompare
    cases h
    exact .right h₂ h₁ hcompare
  · cases h

theorem firstOverlap?_eq_some {earlier os : List Occurrence} {o : Occurrence}
    {r : Extent.Refinement} (h : firstOverlap? earlier os = some (o, r)) :
    ∃ o₁ ∈ earlier ++ os, ∃ o₂ ∈ earlier ++ os, separating? o₁ o₂ = some (o, r) := by
  induction os generalizing earlier with
  | nil => cases h
  | cons a os ih =>
    rw [firstOverlap?] at h
    split at h
    · rename_i hfound
      cases h
      obtain ⟨o₁, h₁, hsep⟩ := List.exists_of_findSome?_eq_some hfound
      exact ⟨o₁, List.mem_append_left _ h₁, a, List.mem_append_right _ List.mem_cons_self, hsep⟩
    · rw [List.append_cons]
      exact ih h

section
variable [Scalar K]

/-- **The next action** is a split towards the normal form of some constraints, or a refinement that
a comparison asks for; or none is needed. -/
theorem nextAction_cases (cs : List (Component K)) (kept : List PrvSet) :
    (∃ i p b, cs[i]? = some (.standard p) ∧ p.violation? = some b
      ∧ nextAction cs kept = .ok (some (i, .split b)))
    ∨ (∃ o r, Asked cs kept o r ∧ nextAction cs kept = (o.action cs r).map some)
    ∨ nextAction cs kept = .ok none := by
  unfold nextAction
  split
  · rename_i next hviolation
    obtain ⟨⟨c, j⟩, hmem, hbind⟩ := List.exists_of_findSome?_eq_some hviolation
    obtain ⟨b, hb, rfl⟩ := Option.map_eq_some_iff.mp hbind
    have hc := List.mk_mem_zipIdx_iff_getElem?.mp hmem
    cases c with
    | standard p => exact .inl ⟨j, p, b, hc, hb, rfl⟩
    | aggregation d => cases hb
  · dsimp only
    split
    · rename_i o r hoverlap
      obtain ⟨o₁, h₁, o₂, h₂, hsep⟩ := firstOverlap?_eq_some hoverlap
      exact .inr (.inl ⟨o, r, asked_of_separating? h₁ h₂ hsep, rfl⟩)
    · split
      · rename_i o r hinside
        obtain ⟨o', ho', hfound⟩ := List.exists_of_findSome?_eq_some hinside
        obtain ⟨e, he, hcompare⟩ := List.exists_of_findSome?_eq_some hfound
        obtain ⟨t, ht, rfl⟩ := List.mem_map.mp he
        split at hcompare
        · rename_i hl
          cases hcompare
          exact .inr (.inl ⟨_, _, .kept ho' ht hl, rfl⟩)
        · cases hcompare
      · exact .inr (.inr rfl)

/-- the choice of an action on one of the components -/
structure ChoosesAmong (cs : List (Component K)) (x : Except Error (Option (Nat × Action))) :
    Prop where
  errors : ErrorsIn Error.Unguarded x
  allows : ∀ i a, x = .ok (some (i, a)) → ∃ c, cs[i]? = some c ∧ c.Allows a

theorem choosesAmong_action (hcs : ∀ c ∈ cs, c.Regular s) {o : Occurrence}
    {r : Extent.Refinement} (ho : o ∈ occurrences cs) (hr : o.extent.RefinedBy r) :
    ChoosesAmong cs ((o.action cs r).map some) := by
  obtain ⟨c, q, hc, hq, hextent⟩ := mem_occurrences ho
  have hchooses := Component.chooses_actionOf (hcs c (List.mem_of_getElem? hc)) hq (hextent ▸ hr)
  unfold Occurrence.action
  rw [hc]
  refine ⟨hchooses.errors.map.map, fun i a hia => ?_⟩
  obtain ⟨_, hpair, heq⟩ := map_ok hia
  cases heq
  obtain ⟨b, hb, heq⟩ := map_ok hpair
  cases heq
  exact ⟨c, hc, hchooses.allows _ hb⟩

/-- **The next action can be carried out**, unless a formula that excludes variables had to be
expanded on an individual. -/
theorem choosesAmong_nextAction (hcs : ∀ c ∈ cs, c.Regular s) (hkept : ∀ t ∈ kept, t.Follows s) :
    ChoosesAmong cs (nextAction cs kept) := by
  rcases nextAction_cases cs kept with ⟨i, p, b, hc, hb, heq⟩ | ⟨o, r, hasked, heq⟩ | heq <;> rw [heq]
  · refine ⟨.ok _, fun j a hja => ?_⟩
    cases hja
    have hregular := hcs _ (List.mem_of_getElem? hc)
    exact ⟨_, hc, Parfactor.isSplittable_of_violation? hregular.constraints hb⟩
  · exact choosesAmong_action hcs hasked.mem (hasked.refinedBy
      (fun _ ho => matched_of_mem_occurrences hcs ho)
      fun t ht => Extent.matched_of (hkept t ht).constraints (hkept t ht).prv.matched)
  · exact ⟨.ok _, nofun⟩

end

end LiftedElimination
