import LiftedElimination.Proofs.Unifier
import LiftedElimination.Proofs.Renaming
import LiftedElimination.Extent

/-!
# Extents

An extent stands for the set of its instances.  The comparison of two extents is syntactic: it
unifies the atoms, with the variables of one side renamed apart, and looks for a constraint that is
missing.  Here it is read as a statement about the instances.

* `apartFrom_instances`     renaming apart does not change the instances;
* `disjoint_of_overlap?`    extents that do not unify have no common instance, if every argument
                            position of a functor has one population;
* `subset_of_compare`       a side that needs no refinement has only instances of the other side.
-/

namespace LiftedElimination

namespace Extent

/-! ## names apart -/

theorem length_prime (name : String) : (name ++ "'").length = name.length + 1 :=
  String.length_append name "'"

/-- only longer names can be in the way, and every prime passes one of them -/
theorem primed_notMem {taken : List String} {n : Nat} {name : String}
    (h : (taken.filter fun t => name.length < t.length).length ≤ n) :
    primed taken n name ∉ taken := by
  induction n generalizing name with
  | zero =>
    intro hmem
    have hnil := List.length_eq_zero_iff.mp (Nat.le_zero.mp h)
    refine absurd (decide_eq_true ?_) (List.filter_eq_nil_iff.mp hnil _ hmem)
    rw [primed, length_prime]
    exact Nat.lt_succ_self _
  | succ n ih =>
    rw [primed]
    split
    · rename_i hmem
      refine ih ?_
      have hsub : taken.filter (fun t => (name ++ "'").length < t.length)
          = (taken.filter fun t => name.length < t.length).filter
              fun t => (name ++ "'").length < t.length := by
        rw [List.filter_filter]
        refine List.filter_congr fun t _ => ?_
        rw [length_prime]
        by_cases ht : name.length + 1 < t.length
        · simp [ht, Nat.lt_of_succ_lt ht]
        · simp [ht]
      have hlt : ((taken.filter fun t => name.length < t.length).filter
          fun t => (name ++ "'").length < t.length).length
            < (taken.filter fun t => name.length < t.length).length := by
        refine List.length_filter_lt_length_iff_exists.mpr ⟨name ++ "'", ?_, by simp⟩
        refine List.mem_filter.mpr ⟨hmem, decide_eq_true ?_⟩
        rw [length_prime]
        exact Nat.lt_succ_self _
      rw [hsub]
      omega
    · assumption

theorem freshName_notMem (taken : List String) (name : String) :
    freshName taken name ∉ taken := primed_notMem (List.length_filter_le _ _)

/-- what the pairs of a renaming apart satisfy -/
structure FreshPairs (others taken : List String) (vars : List LogVar)
    (pairs : List (LogVar × LogVar)) : Prop where
  sources : (pairs.map Prod.fst).Sublist vars
  source_iff : ∀ x ∈ vars, x ∈ pairs.map Prod.fst ↔ x.name ∈ others
  population : ∀ p ∈ pairs, p.2.population = p.1.population
  fresh : ∀ p ∈ pairs, p.2.name ∉ taken
  names : (pairs.map fun p => p.2.name).Nodup

theorem freshPairs (others taken : List String) (vars : List LogVar) :
    FreshPairs others taken vars (freshVars others taken vars) := by
  induction vars generalizing taken with
  | nil =>
    exact ⟨.slnil, fun x hx => absurd hx List.not_mem_nil, fun p hp => absurd hp List.not_mem_nil,
      fun p hp => absurd hp List.not_mem_nil, .nil⟩
  | cons x xs ih =>
    rw [freshVars]
    split
    · rename_i hx
      have h := ih (taken ++ [freshName taken x.name])
      refine ⟨h.sources.cons_cons _, fun y hy => ?_, fun p hp => ?_, fun p hp => ?_, ?_⟩
      · rw [List.map_cons, List.mem_cons]
        rcases List.mem_cons.mp hy with rfl | hy
        · exact iff_of_true (.inl rfl) hx
        · rw [h.source_iff y hy]
          exact or_iff_right_of_imp fun hyx => by rw [hyx]; exact hx
      · rcases List.mem_cons.mp hp with rfl | hp
        · rfl
        · exact h.population p hp
      · rcases List.mem_cons.mp hp with rfl | hp
        · exact freshName_notMem taken x.name
        · exact fun hmem => h.fresh p hp (List.mem_append_left _ hmem)
      · refine List.nodup_cons.mpr ⟨fun hmem => ?_, h.names⟩
        obtain ⟨p, hp, hname⟩ := List.mem_map.mp hmem
        exact h.fresh p hp (hname ▸ List.mem_append_right _ (List.mem_singleton_self _))
    · rename_i hx
      have h := ih taken
      refine ⟨h.sources.cons _, fun y hy => ?_, h.population, h.fresh, h.names⟩
      rcases List.mem_cons.mp hy with rfl | hy
      · refine iff_of_false (fun hmem => ?_) hx
        by_cases hyxs : y ∈ xs
        · exact hx ((h.source_iff y hyxs).mp hmem)
        · exact hyxs (h.sources.subset hmem)
      · exact h.source_iff y hy

/-- the bindings of a renaming, of several for one variable the first -/
theorem get?_replacing (pairs : List (LogVar × LogVar)) (x : LogVar) :
    (replacing pairs).get? x = (pairs.find? (·.1 = x)).map (.var ·.2) := by
  have hgen : ∀ s : Substitution,
      (pairs.foldl (fun s p => s.bindNew ⟨p.1, .var p.2⟩) s).get? x
        = (s.get? x).or ((pairs.find? (·.1 = x)).map (.var ·.2)) := by
    induction pairs with
    | nil =>
      intro s
      rw [List.foldl_nil, List.find?_nil, Option.map_none, Option.or_none]
    | cons p pairs ih =>
      intro s
      rw [List.foldl_cons, ih, Substitution.get?_bindNew, List.find?_cons]
      by_cases hp : p.1 = x
      · cases s.get? x <;> simp [hp]
      · cases s.get? x <;> simp [hp, Ne.symm hp]
  exact hgen .identity

/-- the renaming of the variables of `e` away from those of `other` -/
def away (e other : Extent) : Substitution :=
  replacing (freshVars other.names (other.names ++ e.names) e.atom.variables)

theorem get?_away {e other : Extent} {x : LogVar} {t : Term}
    (h : (e.away other).get? x = some t) : x ∈ e.atom.variables ∧ ∃ z : LogVar, t = .var z ∧
      (x, z) ∈ freshVars other.names (other.names ++ e.names) e.atom.variables := by
  rw [away, get?_replacing, Option.map_eq_some_iff] at h
  obtain ⟨p, hp, rfl⟩ := h
  have hmem := List.mem_of_find?_eq_some hp
  have hx : p.1 = x := by simpa using List.find?_some hp
  subst hx
  have hsources := (freshPairs other.names (other.names ++ e.names) e.atom.variables).sources
  exact ⟨hsources.subset (List.mem_map_of_mem hmem), p.2, rfl, hmem⟩

theorem away_isRenaming (e other : Extent) : (e.away other).IsRenaming := by
  refine Substitution.isRenaming_of_get? fun x t h => ?_
  obtain ⟨-, z, rfl, hz⟩ := get?_away h
  exact ⟨z, rfl, (freshPairs other.names _ _).population _ hz⟩

theorem name_mem {e : Extent} {x : LogVar} (h : x ∈ e.atom.variables) : x.name ∈ e.names :=
  List.mem_map_of_mem h

/-- a variable of `e` gets a fresh name, or has one that `other` does not use -/
theorem away_cases {e : Extent} (other : Extent) {x : LogVar} (hx : x ∈ e.atom.variables) :
    ((e.away other).apply (.var x) = .var x ∧ x.name ∉ other.names)
      ∨ ∃ z : LogVar, (e.away other).apply (.var x) = .var z ∧ z.name ∉ other.names
        ∧ z.name ∉ e.names
        ∧ (x, z) ∈ freshVars other.names (other.names ++ e.names) e.atom.variables := by
  have hpairs := freshPairs other.names (other.names ++ e.names) e.atom.variables
  cases hg : (e.away other).get? x with
  | some t =>
    obtain ⟨-, z, rfl, hz⟩ := get?_away hg
    have hfresh := hpairs.fresh _ hz
    exact .inr ⟨z, Substitution.apply_of_mem (Substitution.get?_eq_some.mp hg),
      fun h => hfresh (List.mem_append_left _ h), fun h => hfresh (List.mem_append_right _ h), hz⟩
  | none =>
    refine .inl ⟨Substitution.apply_of_get?_none hg, fun hname => ?_⟩
    obtain ⟨p, hp, hpx⟩ := List.mem_map.mp ((hpairs.source_iff x hx).mpr hname)
    rw [away, get?_replacing, Option.map_eq_none_iff, List.find?_eq_none] at hg
    exact hg p hp (decide_eq_true hpx)

theorem away_injOn (e other : Extent) : (e.away other).InjOn e.atom.variables := by
  intro x hx y hy h
  rcases away_cases other hx with ⟨hxx, -⟩ | ⟨z, hz, -, hfresh, hp⟩ <;>
    rcases away_cases other hy with ⟨hyy, -⟩ | ⟨w, hw, -, hfresh', hq⟩
  · rw [hxx, hyy] at h
    exact Term.var.inj h
  · rw [hxx, hw] at h
    exact absurd (Term.var.inj h ▸ name_mem hx) hfresh'
  · rw [hz, hyy] at h
    exact absurd (Term.var.inj h ▸ name_mem hy) hfresh
  · rw [hz, hw] at h
    have hnames := (freshPairs other.names (other.names ++ e.names) e.atom.variables).names
    have hname : z.name = w.name := congrArg LogVar.name (Term.var.inj h)
    exact congrArg Prod.fst (List.inj_on_of_nodup_map hnames hp hq hname)

/-- the variables of the two sides are apart -/
theorem notMem_of_mem_apartFrom {e other : Extent} {z : LogVar}
    (hz : z ∈ (e.apartFrom other).1.atom.variables) : z ∉ other.atom.variables := by
  obtain ⟨x, hx, hxz⟩ := Atom.mem_variables_apply.mp hz
  rcases away_cases other hx with ⟨h, hname⟩ | ⟨w, h, hname, -⟩
  · cases Term.var.inj (h.symm.trans hxz)
    exact fun hmem => hname (name_mem hmem)
  · cases Term.var.inj (h.symm.trans hxz)
    exact fun hmem => hname (name_mem hmem)

/-! ## instances -/

/-- the constraints are about variables of the atom -/
def IsClosed (e : Extent) : Prop := ∀ x ∈ e.constraints.variables, x ∈ e.atom.variables

/-- the ground atoms that the extent stands for -/
def instances (e : Extent) : Set GroundAtom :=
  {g | ∃ γ : Valuation, γ.Solves e.constraints e.atom.variables ∧ e.atom.ground γ = g}

theorem isClosed_apartFrom {e other : Extent} (h : e.IsClosed) :
    (e.apartFrom other).1.IsClosed := by
  intro z hz
  obtain ⟨d, hd, hzd⟩ := ConstraintSet.mem_variables.mp hz
  obtain ⟨c, hc, hca⟩ := SortedSet.mem_filterMap.mp hd
  obtain ⟨x, hx, hxz⟩ := (Constraint.mem_variables_of_apply hca).mp hzd
  exact Atom.mem_variables_apply.mpr ⟨x, h x (ConstraintSet.mem_variables.mpr ⟨c, hc, hx⟩), hxz⟩

theorem solves_apartFrom {e other : Extent} (h : e.IsClosed) {γ : Valuation} :
    γ.Solves (e.apartFrom other).1.constraints (e.apartFrom other).1.atom.variables
      ↔ ((e.away other).pull γ).Solves e.constraints e.atom.variables :=
  Substitution.solves_renamed (away_isRenaming e other) h fun _ => Atom.mem_variables_apply

/-- **Renaming apart keeps the instances.** -/
theorem apartFrom_instances {e : Extent} (other : Extent) (h : e.IsClosed) :
    (e.apartFrom other).1.instances = e.instances := by
  ext g
  constructor
  · rintro ⟨γ, hγ, rfl⟩
    exact ⟨(e.away other).pull γ, (solves_apartFrom h).mp hγ, (Atom.ground_apply _ _ _).symm⟩
  · rintro ⟨γ, hγ, rfl⟩
    obtain ⟨δ, hδ⟩ := Substitution.exists_pull (away_isRenaming e other) (away_injOn e other) γ
    refine ⟨δ, (solves_apartFrom h).mpr (hγ.congr fun x hx => (hδ x hx).symm), ?_⟩
    exact (Atom.ground_apply _ _ _).trans (Atom.ground_congr hδ)

/-! ## common instances -/

theorem respectsPopulations_iff {theta : Substitution} : respectsPopulations theta = true ↔
    (∀ x c, theta.get? x = some (.const c) → c ∈ x.population)
      ∧ ∀ x y, theta.get? x = some (.var y) → y.population = x.population := by
  rw [respectsPopulations, List.all_eq_true]
  constructor
  · intro h
    refine ⟨fun x c hx => ?_, fun x y hx => ?_⟩
    · simpa using h _ (Substitution.get?_eq_some.mp hx)
    · simpa using h _ (Substitution.get?_eq_some.mp hx)
  · rintro ⟨hc, hv⟩ ⟨x, t⟩ hb
    cases t with
    | const c => exact decide_eq_true (hc x c (Substitution.get?_eq_some.mpr hb))
    | var y => exact beq_iff_eq.mpr (hv x y (Substitution.get?_eq_some.mpr hb))

/-- the unifier gives a variable a variable of its population or an individual of it -/
theorem population_apply {theta : Substitution} (h : respectsPopulations theta = true)
    (x : LogVar) : (∃ z, theta.apply (.var x) = .var z ∧ z.population = x.population)
      ∨ ∃ c, theta.apply (.var x) = .const c ∧ c ∈ x.population := by
  obtain ⟨hc, hv⟩ := respectsPopulations_iff.mp h
  cases hg : theta.get? x with
  | none => exact .inl ⟨x, Substitution.apply_of_get?_none hg, rfl⟩
  | some t =>
    have ht : theta.apply (.var x) = t := Substitution.apply_of_mem (Substitution.get?_eq_some.mp hg)
    cases t with
    | var z => exact .inl ⟨z, ht, hv x z hg⟩
    | const c => exact .inr ⟨c, ht, hc x c hg⟩

/-- a variable keeps its population under the unifier -/
theorem population_image {theta : Substitution} (h : respectsPopulations theta = true) {x z : LogVar}
    (hx : theta.apply (.var x) = .var z) : z.population = x.population := by
  rcases population_apply h x with ⟨w, hw, hpop⟩ | ⟨c, hc, -⟩
  · cases Term.var.inj (hx.symm.trans hw)
    exact hpop
  · rw [hx] at hc
    cases hc

/-- what it takes for two extents to overlap -/
structure Overlaps (a b : Extent) (o : Overlap) : Prop where
  right : o.right = (b.apartFrom a).1
  functor : a.atom.functor = o.right.atom.functor
  terms : a.atom.terms.map o.theta.apply = o.right.atom.terms.map o.theta.apply
  populations : respectsPopulations o.theta = true
  kept : ∀ c, c ∈ a.constraints ∨ c ∈ o.right.constraints → c.isViolatedBy o.theta = false

theorem overlaps_of_overlap? {a b : Extent} {o : Overlap} (h : a.overlap? b = some o) :
    Overlaps a b o := by
  simp only [overlap?] at h
  split at h
  · split at h
    · cases h
    · rename_i theta hmgu
      obtain ⟨hf, ht⟩ := Atom.mgu_sound hmgu
      split at h
      · rename_i hpop
        split at h
        · cases h
        · rename_i merged happly
          split at h
          · cases h
            refine ⟨rfl, hf, ht, hpop, fun c hc => ?_⟩
            by_contra hv
            have hnone := ConstraintSet.apply_eq_none.mpr
              ⟨c, SortedSet.mem_union.mpr hc, Bool.eq_true_of_not_eq_false hv⟩
            rw [happly] at hnone
            cases hnone
          · cases h
      · cases h
  · cases h

/-- a common instance gives one valuation for the variables of both sides -/
theorem exists_common {a b : Extent} (hb : b.IsClosed) {g : GroundAtom} (ha : g ∈ a.instances)
    (hg : g ∈ b.instances) : ∃ γ : Valuation, γ.Solves a.constraints a.atom.variables
      ∧ γ.Solves (b.apartFrom a).1.constraints (b.apartFrom a).1.atom.variables
      ∧ a.atom.ground γ = (b.apartFrom a).1.atom.ground γ := by
  rw [← apartFrom_instances a hb] at hg
  obtain ⟨γ, hγ, hga⟩ := ha
  obtain ⟨δ, hδ, hgb⟩ := hg
  have hδ' : ∀ z ∈ (b.apartFrom a).1.atom.variables,
      δ z = if z ∈ a.atom.variables then γ z else δ z := fun z hz =>
    (if_neg (notMem_of_mem_apartFrom hz)).symm
  have hγ' : ∀ x ∈ a.atom.variables, γ x = if x ∈ a.atom.variables then γ x else δ x :=
    fun x hx => (if_pos hx).symm
  refine ⟨fun x => if x ∈ a.atom.variables then γ x else δ x, hγ.congr hγ', hδ.congr hδ', ?_⟩
  rw [← Atom.ground_congr hγ', ← Atom.ground_congr hδ', hga, hgb]

theorem isOver_apply {sig : Signature} {a : Atom} {s : Substitution} (ha : a.IsOver sig)
    (hs : ∀ x y, s.apply (.var x) = .var y → y.population = x.population) :
    (a.apply s).IsOver sig := by
  intro i y hy
  rw [show (a.apply s).terms = a.terms.map s.apply from rfl, List.getElem?_map,
    Option.map_eq_some_iff] at hy
  obtain ⟨t, ht, hty⟩ := hy
  cases t with
  | const c => cases hty
  | var x => rw [hs x y hty, ha i x ht, Atom.apply_functor]

/-- the unifier of a common instance stays inside the populations, if no variable meets one of
another population -/
theorem respectsPopulations_of_pull {a b : Atom} {γ : Valuation} {theta : Substitution}
    (h : a.mgu b = some theta)
    (hvar : ∀ x y, theta.get? x = some (.var y) → y.population = x.population)
    (hpull : theta.pull γ = γ)
    (hγ : ∀ x, x ∈ a.variables ∨ x ∈ b.variables → γ x ∈ x.population) :
    respectsPopulations theta = true := by
  refine respectsPopulations_iff.mpr ⟨fun x c hx => ?_, hvar⟩
  have hxc : γ x = c := by
    rw [← hpull, Substitution.pull,
      Substitution.apply_of_mem (Substitution.get?_eq_some.mp hx), Term.eval_const]
  rw [← hxc]
  exact hγ x (Atom.mem_of_mgu h (Option.isSome_iff_exists.mpr ⟨_, hx⟩))

/-- a valuation that does not change under the unifier satisfies the merged constraints -/
theorem solves_merged {a : Atom} {cs merged : ConstraintSet} {theta : Substitution} {γ : Valuation}
    (hrespects : respectsPopulations theta = true) (happly : cs.apply theta = some merged)
    (hpull : theta.pull γ = γ) (hγ : ∀ x ∈ a.variables, γ x ∈ x.population) (hcs : cs.Holds γ) :
    γ.Solves merged (a.apply theta).variables where
  mem z hz := by
    obtain ⟨x, hx, hxz⟩ := Atom.mem_variables_apply.mp hz
    have hval : γ z = γ x := by
      conv_rhs => rw [← hpull, Substitution.pull, hxz]
      rfl
    have hpop : z.population = x.population := by
      rcases population_apply hrespects x with ⟨w, hw, hpop⟩ | ⟨c, hc, -⟩
      · cases Term.var.inj (hxz.symm.trans hw)
        exact hpop
      · rw [hxz] at hc
        cases hc
    rw [hval, hpop]
    exact hγ x hx
  holds c hc _ := (ConstraintSet.holds_apply happly γ).mpr (hpull.symm ▸ hcs) c hc

/-- extents with a common instance overlap, if unification mixes no populations: the instance
unifies the atoms, and satisfies the constraints of both sides -/
theorem exists_overlap {a b : Extent} (hcla : a.IsClosed) (hclb : b.IsClosed) {g : GroundAtom}
    (hga : g ∈ a.instances) (hgb : g ∈ b.instances)
    (hvar : ∀ theta, a.atom.mgu (b.apartFrom a).1.atom = some theta →
      ∀ x y, theta.get? x = some (.var y) → y.population = x.population) :
    ∃ o, a.overlap? b = some o := by
  obtain ⟨γ, hγa, hγb, hground⟩ := exists_common hclb hga hgb
  obtain ⟨theta, hmgu, hpull⟩ := Atom.mgu_complete hground
  have hrespects := respectsPopulations_of_pull hmgu (hvar theta hmgu) hpull
    fun x hx => hx.elim (hγa.mem x) (hγb.mem x)
  have hunion : ConstraintSet.Holds (a.constraints.union (b.apartFrom a).1.constraints) γ :=
    ConstraintSet.holds_union.mpr ⟨((Valuation.solves_iff_holds hcla).mp hγa).2,
      ((Valuation.solves_iff_holds (isClosed_apartFrom hclb)).mp hγb).2⟩
  have hfunctor : a.atom.functor = b.atom.functor := congrArg GroundAtom.functor hground
  simp only [overlap?, if_pos hfunctor, hmgu, if_pos hrespects]
  split
  · rename_i hnone
    exact absurd (hpull.symm ▸ hunion) (ConstraintSet.not_holds_of_apply_none hnone γ)
  · rename_i merged happly
    rw [if_pos (ConstraintSet.satisfiable_of_solves (Atom.nodup_variables _)
      (solves_merged hrespects happly hpull hγa.mem hunion))]
    exact ⟨_, rfl⟩

/-- **Disjoint extents have no common instance**, if every argument position of a functor has one
population. -/
theorem disjoint_of_overlap? {sig : Signature} {a b : Extent} (ha : a.atom.IsOver sig)
    (hb : b.atom.IsOver sig) (hcla : a.IsClosed) (hclb : b.IsClosed) (h : a.overlap? b = none) :
    Disjoint a.instances b.instances := by
  refine Set.disjoint_left.mpr fun g hga hgb => ?_
  have hover : (b.apartFrom a).1.atom.IsOver sig := by
    refine isOver_apply hb fun x y hxy => ?_
    obtain ⟨z, hz, hpop⟩ := away_isRenaming b a x
    cases Term.var.inj (hxy.symm.trans hz)
    exact hpop
  obtain ⟨o, ho⟩ := exists_overlap hcla hclb hga hgb fun theta hmgu x y hx =>
    (Atom.mgu_populations hmgu ha hover x _ hx x y rfl rfl).symm
  rw [h] at ho
  cases ho

/-! ## refinements that are not needed -/

theorem constantImage?_eq_none {theta : Substitution} {vars : List LogVar}
    (h : constantImage? theta vars = none) : ∀ x ∈ vars, ∃ z, theta.apply (.var x) = .var z := by
  intro x hx
  have hnone := List.findSome?_eq_none_iff.mp h x hx
  cases ht : theta.apply (.var x) with
  | var z => exact ⟨z, rfl⟩
  | const c =>
    rw [ht] at hnone
    cases hnone

theorem sharedImage?_eq_none {theta : Substitution} {earlier ys : List LogVar}
    (he : theta.InjOn earlier) (h : sharedImage? theta earlier ys = none) :
    theta.InjOn (earlier ++ ys) := by
  induction ys generalizing earlier with
  | nil => rwa [List.append_nil]
  | cons y ys ih =>
    rw [sharedImage?] at h
    split at h
    · cases h
    · rename_i hfind
      have hne : ∀ x ∈ earlier, theta.apply (.var x) ≠ theta.apply (.var y) := fun x hx => by
        simpa using List.find?_eq_none.mp hfind x hx
      rw [List.append_cons]
      refine ih (fun a ha b hb hab => ?_) h
      rcases List.mem_append.mp ha with ha | ha <;> rcases List.mem_append.mp hb with hb | hb
      · exact he a ha b hb hab
      · rw [List.mem_singleton.mp hb] at hab
        exact absurd hab (hne a ha)
      · rw [List.mem_singleton.mp ha] at hab
        exact absurd hab.symm (hne b hb)
      · rw [List.mem_singleton.mp ha, List.mem_singleton.mp hb]

theorem constantImage?_eq_some {theta : Substitution} {vars : List LogVar} {x : LogVar} {c : Constant}
    (h : constantImage? theta vars = some (x, c)) : x ∈ vars ∧ theta.apply (.var x) = .const c := by
  obtain ⟨y, hy, hyc⟩ := List.exists_of_findSome?_eq_some h
  obtain ⟨d, hd, hdc⟩ := Option.map_eq_some_iff.mp hyc
  cases hdc
  exact ⟨hy, Term.const?_eq_some.mp hd⟩

theorem sharedImage?_eq_some {theta : Substitution} {earlier ys : List LogVar} {x y : LogVar}
    (hnodup : (earlier ++ ys).Nodup) (h : sharedImage? theta earlier ys = some (x, y)) :
    x ∈ earlier ++ ys ∧ y ∈ earlier ++ ys ∧ x ≠ y
      ∧ theta.apply (.var x) = theta.apply (.var y) := by
  induction ys generalizing earlier with
  | nil => cases h
  | cons z zs ih =>
    rw [sharedImage?] at h
    split at h
    · rename_i w hfind
      cases h
      have hw := List.mem_of_find?_eq_some hfind
      have hz : y ∈ y :: zs := List.mem_cons_self
      exact ⟨List.mem_append_left _ hw, List.mem_append_right _ hz,
        (List.nodup_append.mp hnodup).2.2 _ hw _ hz, by simpa using List.find?_some hfind⟩
    · rw [List.append_cons] at hnodup ⊢
      exact ih hnodup h

theorem refinement?_eq_none {own other : Extent} {theta : Substitution}
    (h : own.refinement? other theta = none) :
    (∀ x ∈ own.atom.variables, ∃ z, theta.apply (.var x) = .var z)
      ∧ theta.InjOn own.atom.variables
      ∧ ∀ c ∈ other.constraints, ∀ k,
        toOwnConstraint theta own.atom.variables c = some k → own.entails k = true := by
  simp only [refinement?] at h
  split at h
  · cases h
  · rename_i hconst
    split at h
    · cases h
    · rename_i hshared
      refine ⟨constantImage?_eq_none hconst,
        sharedImage?_eq_none (fun x hx => absurd hx List.not_mem_nil) hshared,
        fun c hc k hk => ?_⟩
      have hnone := List.findSome?_eq_none_iff.mp (Option.map_eq_none_iff.mp h) c hc
      rw [hk] at hnone
      simpa using hnone

/-- a refinement is about a variable with the image of an individual, about two variables with one
image, or about an inequality that is not entailed -/
theorem refinement?_eq_some {own other : Extent} {theta : Substitution} {r : Refinement}
    (h : own.refinement? other theta = some r) :
    (∃ x c, x ∈ own.atom.variables ∧ theta.apply (.var x) = .const c
        ∧ r = own.refineOn x (.const c))
      ∨ (∃ x y z, x ∈ own.atom.variables ∧ y ∈ own.atom.variables ∧ x ≠ y
        ∧ theta.apply (.var x) = .var z ∧ theta.apply (.var y) = .var z
        ∧ r = own.refineOn x (.var y))
      ∨ ∃ c ∈ other.constraints, ∃ k, toOwnConstraint theta own.atom.variables c = some k
        ∧ own.entails k = false ∧ r = own.refineOn k.first k.second := by
  unfold refinement? at h
  dsimp only at h
  split at h
  · rename_i x c hconstant
    cases h
    obtain ⟨hx, hxc⟩ := constantImage?_eq_some hconstant
    exact .inl ⟨x, c, hx, hxc, rfl⟩
  · rename_i hconstant
    split at h
    · rename_i x y hshared
      cases h
      have hnodup : ([] ++ own.atom.variables).Nodup := Atom.nodup_variables own.atom
      obtain ⟨hx, hy, hne, hxy⟩ := sharedImage?_eq_some hnodup hshared
      obtain ⟨z, hz⟩ := constantImage?_eq_none hconstant x hx
      exact .inr (.inl ⟨x, y, z, hx, hy, hne, hz, hxy ▸ hz, rfl⟩)
    · obtain ⟨k, hk, rfl⟩ := Option.map_eq_some_iff.mp h
      obtain ⟨c, hc, hck⟩ := List.exists_of_findSome?_eq_some hk
      obtain ⟨hown, hnot⟩ := Option.filter_eq_some_iff.mp hck
      rw [Bool.not_eq_true'] at hnot
      exact .inr (.inr ⟨c, hc, k, hown, hnot, rfl⟩)

/-- a term of the own variables with the given image -/
theorem toOwn_eq_some {theta : Substitution} {vars : List LogVar} {t u : Term}
    (h : toOwn theta vars t = some u) :
    (∃ c, t = .const c ∧ u = .const c)
      ∨ ∃ x z, t = .var z ∧ u = .var x ∧ x ∈ vars ∧ theta.apply (.var x) = .var z := by
  cases t with
  | const c =>
    cases h
    exact .inl ⟨c, rfl, rfl⟩
  | var z =>
    obtain ⟨x, hx, hxu⟩ := Option.map_eq_some_iff.mp h
    exact .inr ⟨x, z, rfl, hxu.symm, List.mem_of_find?_eq_some hx, by simpa using List.find?_some hx⟩

/-- a term of the own atom is found again from its image -/
theorem toOwn_apply {theta : Substitution} {vars : List LogVar}
    (hvar : ∀ x ∈ vars, ∃ z, theta.apply (.var x) = .var z) (hinj : theta.InjOn vars) {t : Term}
    (ht : ∀ x, t = .var x → x ∈ vars) : toOwn theta vars (theta.apply t) = some t := by
  cases t with
  | const c => rfl
  | var x =>
    have hx := ht x rfl
    obtain ⟨z, hz⟩ := hvar x hx
    rw [hz, toOwn]
    cases hf : vars.find? (fun y => theta.apply (.var y) = .var z) with
    | none =>
      have := List.find?_eq_none.mp hf x hx
      simp [hz] at this
    | some y =>
      have hy : theta.apply (.var y) = .var z := by simpa using List.find?_some hf
      rw [hinj y (List.mem_of_find?_eq_some hf) x hx (hy.trans hz.symm)]
      rfl

/-- the constraint holds for the instance -/
theorem holds_of_entails {own : Extent} {k : Constraint} {γ : Valuation}
    (h : own.entails k = true) (hγ : γ.Solves own.constraints own.atom.variables)
    (hk : ∀ x ∈ k.variables, x ∈ own.atom.variables) : k.Holds γ := by
  rw [entails, Bool.or_eq_true] at h
  rcases h with h | h
  · exact hγ.holds k (SortedSet.contains_iff_mem.mp h) hk
  · cases hs : k.second with
    | var y =>
      rw [hs] at h
      cases h
    | const c =>
      rw [hs] at h
      have hfirst := hγ.mem k.first (hk _ (Constraint.mem_variables.mpr (.inl rfl)))
      rw [Constraint.Holds, hs]
      intro heq
      rw [heq] at hfirst
      exact of_decide_eq_true h hfirst

/-- `own` is unified with `other` by `theta` and needs no refinement -/
structure Covered (own other : Extent) (theta : Substitution) : Prop where
  functor : own.atom.functor = other.atom.functor
  terms : own.atom.terms.map theta.apply = other.atom.terms.map theta.apply
  populations : respectsPopulations theta = true
  kept : ∀ c ∈ other.constraints, c.isViolatedBy theta = false
  closed : ∀ x ∈ other.constraints.variables, x ∈ other.atom.variables
  var : ∀ x ∈ own.atom.variables, ∃ z, theta.apply (.var x) = .var z
  injOn : theta.InjOn own.atom.variables
  entailed : ∀ c ∈ other.constraints, ∀ k,
    toOwnConstraint theta own.atom.variables c = some k → own.entails k = true

namespace Covered

variable {own other : Extent} {theta : Substitution}

/-- the value of a unified term under an instance of `own` -/
def unifiedValue (own : Extent) (theta : Substitution) (γ : Valuation) (v : Term) : Constant :=
  ((toOwn theta own.atom.variables v).map (Term.eval γ)).getD default

/-- the instance of the other side that goes with an instance of `own` -/
def carry (own : Extent) (theta : Substitution) (γ : Valuation) : Valuation :=
  fun y => unifiedValue own theta γ (theta.apply (.var y))

theorem toOwn_own (h : Covered own other theta) {t : Term} (ht : t ∈ own.atom.terms) :
    toOwn theta own.atom.variables (theta.apply t) = some t :=
  toOwn_apply h.var h.injOn fun _ hx => Atom.mem_variables.mpr (hx ▸ ht)

/-- every term over the other side's variables is matched by one over the own variables -/
theorem exists_partner (h : Covered own other theta) {u : Term}
    (hu : ∀ y, u = .var y → y ∈ other.atom.variables) (γ : Valuation) :
    ∃ t, toOwn theta own.atom.variables (theta.apply u) = some t ∧ theta.apply t = theta.apply u
      ∧ (∀ x, t = .var x → x ∈ own.atom.variables)
      ∧ u.eval (carry own theta γ) = t.eval γ := by
  cases u with
  | const c => exact ⟨.const c, rfl, rfl, nofun, rfl⟩
  | var y =>
    have hy := List.mem_map_of_mem (f := theta.apply) (Atom.mem_variables.mp (hu y rfl))
    rw [← h.terms] at hy
    obtain ⟨t, ht, htu⟩ := List.mem_map.mp hy
    have htoOwn := h.toOwn_own ht
    rw [htu] at htoOwn
    refine ⟨t, htoOwn, htu, fun x hx => Atom.mem_variables.mpr (hx ▸ ht), ?_⟩
    rw [Term.eval_var, carry, unifiedValue, htoOwn]
    rfl

theorem carry_mem (h : Covered own other theta) {γ : Valuation}
    (hγ : γ.Solves own.constraints own.atom.variables) {y : LogVar}
    (hy : y ∈ other.atom.variables) : carry own theta γ y ∈ y.population := by
  obtain ⟨t, -, htu, hmem, heval⟩ :=
    h.exists_partner (u := .var y) (fun z hz => Term.var.inj hz ▸ hy) γ
  rw [Term.eval_var] at heval
  rw [heval]
  cases t with
  | const c =>
    rcases population_apply h.populations y with ⟨z, hz, -⟩ | ⟨d, hd, hdy⟩
    · rw [hz] at htu
      cases htu
    · rw [hd] at htu
      cases htu
      exact hdy
  | var x =>
    have hx := hγ.mem x (hmem x rfl)
    obtain ⟨z, hz⟩ := h.var x (hmem x rfl)
    rcases population_apply h.populations x with ⟨z, hz, hxz⟩ | ⟨d, hd, -⟩
    · rcases population_apply h.populations y with ⟨w, hw, hyw⟩ | ⟨d, hd, -⟩
      · cases Term.var.inj (hz.symm.trans (htu.trans hw))
        rw [← hyw, hxz]
        exact hx
      · rw [hz, hd] at htu
        cases htu
    · rw [hz] at hd
      cases hd

theorem holds_carry (h : Covered own other theta) {γ : Valuation}
    (hγ : γ.Solves own.constraints own.atom.variables) {c : Constraint}
    (hc : c ∈ other.constraints) : c.Holds (carry own theta γ) := by
  have hcv : ∀ x ∈ c.variables, x ∈ other.atom.variables := fun x hx =>
    h.closed x (ConstraintSet.mem_variables.mpr ⟨c, hc, hx⟩)
  obtain ⟨s, hs, hsu, hsv, hse⟩ := h.exists_partner (u := .var c.first)
    (fun z hz => Term.var.inj hz ▸ hcv _ (Constraint.mem_variables.mpr (.inl rfl))) γ
  obtain ⟨t, ht, htu, htv, hte⟩ := h.exists_partner (u := c.second)
    (fun z hz => hcv _ (Constraint.mem_variables.mpr (.inr hz))) γ
  rw [Constraint.Holds, ← Term.eval_var (carry own theta γ), hse, hte]
  cases hk : Constraint.between s t with
  | none =>
    obtain ⟨⟨d, rfl⟩, e, rfl⟩ := Constraint.between_eq_none.mp hk
    have hviolated := h.kept c hc
    rw [Constraint.isViolatedBy, ← hsu, ← htu, beq_eq_false_iff_ne] at hviolated
    exact fun heq => hviolated (congrArg Term.const heq)
  | some k =>
    have hentails := h.entailed c hc k (by rw [toOwnConstraint, hs, ht]; exact hk)
    refine (Constraint.holds_between hk γ).mp (holds_of_entails hentails hγ fun x hx => ?_)
    rcases (Constraint.mem_variables_between hk).mp hx with hx | hx
    · exact hsv x hx
    · exact htv x hx

theorem ground_carry (h : Covered own other theta) (γ : Valuation) :
    other.atom.ground (carry own theta γ) = own.atom.ground γ := by
  refine congrArg₂ GroundAtom.mk h.functor.symm ?_
  calc other.atom.terms.map (·.eval (carry own theta γ))
      = (other.atom.terms.map theta.apply).map (unifiedValue own theta γ) := by
        rw [List.map_map]
        exact List.map_congr_left fun u _ => by cases u <;> rfl
    _ = (own.atom.terms.map theta.apply).map (unifiedValue own theta γ) := by rw [h.terms]
    _ = own.atom.terms.map (·.eval γ) := by
        rw [List.map_map]
        refine List.map_congr_left fun t ht => ?_
        rw [Function.comp_apply, unifiedValue, h.toOwn_own ht]
        rfl

/-- **A side that needs no refinement lies inside the other.** -/
theorem subset (h : Covered own other theta) : own.instances ⊆ other.instances := by
  rintro g ⟨γ, hγ, rfl⟩
  exact ⟨carry own theta γ, ⟨fun y hy => h.carry_mem hγ hy, fun c hc _ => h.holds_carry hγ hc⟩,
    h.ground_carry γ⟩

end Covered

/-! ## the comparison -/

theorem compare_eq_disjoint {a b : Extent} (h : a.compare b = .disjoint) : a.overlap? b = none := by
  unfold compare at h
  split at h
  · assumption
  · cases h

theorem compare_eq_overlapping {a b : Extent} {l r : Option Refinement}
    (h : a.compare b = .overlapping l r) : ∃ o, a.overlap? b = some o
      ∧ a.refinement? o.right o.theta = l
      ∧ (o.right.refinement? a o.theta).map (Refinement.apply o.back) = r := by
  unfold compare at h
  split at h
  · cases h
  · rename_i o ho
    cases h
    exact ⟨o, ho, rfl, rfl⟩

/-- the left side is covered by the right one, and the other way round -/
theorem Overlaps.covered {a b : Extent} {o : Overlap} (ho : Overlaps a b o) (hb : b.IsClosed)
    (h : a.refinement? o.right o.theta = none) : Covered a o.right o.theta := by
  obtain ⟨hvar, hinj, hent⟩ := refinement?_eq_none h
  exact ⟨ho.functor, ho.terms, ho.populations, fun c hc => ho.kept c (.inr hc),
    ho.right ▸ isClosed_apartFrom hb, hvar, hinj, hent⟩

theorem Overlaps.covered_right {a b : Extent} {o : Overlap} (ho : Overlaps a b o) (ha : a.IsClosed)
    (h : o.right.refinement? a o.theta = none) : Covered o.right a o.theta := by
  obtain ⟨hvar, hinj, hent⟩ := refinement?_eq_none h
  exact ⟨ho.functor.symm, ho.terms.symm, ho.populations, fun c hc => ho.kept c (.inl hc), ha, hvar,
    hinj, hent⟩

/-- no refinement on the left: every instance of the left side is one of the right side -/
theorem subset_of_compare {a b : Extent} (hb : b.IsClosed) {r : Option Refinement}
    (h : a.compare b = .overlapping none r) : a.instances ⊆ b.instances := by
  obtain ⟨o, ho, hl, -⟩ := compare_eq_overlapping h
  have hover := overlaps_of_overlap? ho
  rw [← apartFrom_instances a hb, ← hover.right]
  exact (hover.covered hb hl).subset

/-- no refinement at all: the sides have the same instances -/
theorem eq_of_compare {a b : Extent} (ha : a.IsClosed) (hb : b.IsClosed)
    (h : a.compare b = .overlapping none none) : a.instances = b.instances := by
  obtain ⟨o, ho, -, hr⟩ := compare_eq_overlapping h
  have hover := overlaps_of_overlap? ho
  refine Set.Subset.antisymm (subset_of_compare hb h) ?_
  rw [← apartFrom_instances a hb, ← hover.right]
  exact (hover.covered_right ha (Option.map_eq_none_iff.mp hr)).subset

end Extent

end LiftedElimination
