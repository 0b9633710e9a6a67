import LiftedElimination.Proofs.Descent

/-!
# Components over a schema

A schema fixes the populations of the argument positions and the range of every functor.  The atoms
of a regular component follow it, its inequalities relate variables of one population, none of them
is an `X ≠ X`, and the component has the form that the builders check.  Every rewriting keeps
components regular.

* `ConstraintSet.Matched`, `ConstraintSet.Regular`   inequalities within one population;
* `Atom.Follows`, `Prv.Follows`   atoms and formulas of a schema;
* `Component.Regular`             a component over a schema, in the form of the builders;
* `Regular.normalize`, `Regular.perform`, `Regular.squared`   normal forms, pieces and squares.
-/

namespace LiftedElimination

variable {K : Type}

/-- the populations of the argument positions of every functor, and its range -/
structure Schema where
  populations : Signature
  range : String → Range

variable {s : Schema} {sigma : Substitution}

/-! ## inequalities -/

/-- the sides of an inequality of two variables draw from one population -/
def Constraint.IsMatched (c : Constraint) : Prop :=
  ∀ y, c.second = .var y → y.population = c.first.population

namespace Constraint

theorem isMatched_ordered {x : LogVar} {t : Term}
    (h : ∀ y, t = .var y → y.population = x.population) : (ordered x t).IsMatched := by
  intro z hz
  cases t with
  | const c => cases hz
  | var y =>
    have hyx := h y rfl
    rw [ordered_var] at hz ⊢
    split at hz
    · cases hz
      rw [if_pos ‹_›]
      exact hyx.symm
    · cases hz
      rw [if_neg ‹_›]
      exact hyx

theorem IsMatched.apply {c d : Constraint} (hc : c.IsMatched) (hs : sigma.KeepsPopulations)
    (h : c.apply sigma = some d) : d.IsMatched := by
  unfold Constraint.apply at h
  cases hfirst : sigma.apply (.var c.first) with
  | var a =>
    rw [hfirst] at h
    cases h
    refine isMatched_ordered fun b hb => ?_
    cases hsecond : c.second with
    | const k =>
      rw [hsecond] at hb
      cases hb
    | var y =>
      rw [hsecond] at hb
      rw [hs y b hb, hs c.first a hfirst, hc y hsecond]
  | const k =>
    rw [hfirst] at h
    cases hsecond : sigma.apply c.second with
    | var b =>
      rw [hsecond] at h
      cases h
      exact isMatched_ordered nofun
    | const e =>
      rw [hsecond] at h
      cases h

end Constraint

namespace ConstraintSet

variable {cs ds : ConstraintSet}

/-- inequalities within one population each, in the canonical way -/
structure Matched (cs : ConstraintSet) : Prop where
  ordered : cs.IsOrdered
  matched : ∀ c ∈ cs, c.IsMatched

/-- none of the inequalities is an `X ≠ X` -/
structure Regular (cs : ConstraintSet) : Prop extends Matched cs where
  satisfiable : ∀ c ∈ cs, c.isContradiction = false

theorem Matched.mono (h : cs.Matched) (hsub : ∀ c ∈ ds, c ∈ cs) : ds.Matched :=
  ⟨fun c hc => h.ordered c (hsub c hc), fun c hc => h.matched c (hsub c hc)⟩

theorem Matched.filterMap_apply (h : cs.Matched) (hs : sigma.KeepsPopulations) :
    Matched (cs.filterMap (·.apply sigma)) := by
  refine ⟨fun d hd => ?_, fun d hd => ?_⟩ <;>
    obtain ⟨c, hc, hcd⟩ := SortedSet.mem_filterMap.mp hd
  · exact Constraint.ordered_of_between hcd
  · exact (h.matched c hc).apply hs hcd

theorem Matched.insert (h : cs.Matched) {x : LogVar} {t : Term}
    (ht : ∀ y, t = .var y → y.population = x.population) :
    Matched (cs.insert (.ordered x t)) := by
  refine ⟨fun c hc => ?_, fun c hc => ?_⟩ <;> rcases SortedSet.mem_insert.mp hc with rfl | hc
  · exact Constraint.ordered_ordered x t
  · exact h.ordered c hc
  · exact Constraint.isMatched_ordered ht
  · exact h.matched c hc

namespace Regular

theorem mono (h : cs.Regular) (hsub : ∀ c ∈ ds, c ∈ cs) : ds.Regular :=
  ⟨h.toMatched.mono hsub, fun c hc => h.satisfiable c (hsub c hc)⟩

theorem apply (h : cs.Regular) (hs : sigma.KeepsPopulations) (happly : cs.apply sigma = some ds) :
    ds.Regular := by
  refine ⟨⟨isOrdered_of_apply happly, fun d hd => ?_⟩,
    fun d hd => not_isContradiction_of_apply happly hd⟩
  obtain ⟨c, hc, hcd⟩ := (mem_of_apply happly).mp hd
  exact (h.matched c hc).apply hs hcd

theorem insert (h : cs.Regular) {b : Binding} (hne : b.target ≠ .var b.source)
    (hvar : ∀ y, b.target = .var y → y.population = b.source.population) :
    Regular (cs.insert (.ofBinding b)) := by
  refine ⟨h.toMatched.insert hvar, fun c hc => ?_⟩
  rcases SortedSet.mem_insert.mp hc with rfl | hc
  · exact Bool.eq_false_of_not_eq_true fun hcon => hne (Constraint.isContradiction_ordered.mp hcon)
  · exact h.satisfiable c hc

end Regular

end ConstraintSet

/-! ## atoms and formulas -/

/-- the variables of the atom have the populations of their positions, and its range is that of its
functor -/
structure Atom.Follows (s : Schema) (a : Atom) : Prop where
  isOver : a.IsOver s.populations
  range : a.range = s.range a.functor

theorem Atom.Follows.apply {a : Atom} (h : a.Follows s) (hs : sigma.KeepsPopulations) :
    (a.apply sigma).Follows s := ⟨Extent.isOver_apply h.isOver hs, h.range⟩

/-- the atom follows the schema, and a formula excludes variables of the counted population only -/
structure Prv.Follows (s : Schema) (q : Prv) : Prop where
  base : q.base.Follows s
  matched : ∀ f, q = .count f → f.constraints.Matched

namespace Prv.Follows

theorem apply {q : Prv} (h : q.Follows s) (hs : sigma.KeepsPopulations) :
    (q.apply sigma).Follows s := by
  cases q with
  | atom a => exact ⟨h.base.apply hs, nofun⟩
  | count f =>
    refine ⟨h.base.apply (hs.without f.bound), fun g hg => ?_⟩
    cases hg
    exact (h.matched f rfl).filterMap_apply (hs.without f.bound)

variable {f : CountingFormula} {t : Term}

theorem instantiate (h : Prv.Follows s (.count f))
    (ht : ∀ y, t = .var y → y.population = f.bound.population) :
    Prv.Follows s (.atom (f.instantiate t)) :=
  ⟨h.base.apply (keepsPopulations_single ht), nofun⟩

theorem excluding (h : Prv.Follows s (.count f))
    (ht : ∀ y, t = .var y → y.population = f.bound.population) :
    Prv.Follows s (.count (f.excluding t)) := by
  refine ⟨h.base, fun g hg => ?_⟩
  cases hg
  exact (h.matched f rfl).insert ht

end Prv.Follows

/-- whatever is done to constraints and random variables stays within the schema -/
theorem hereditary_follows (s : Schema) : Hereditary ConstraintSet.Regular (Prv.Follows s) where
  subset h hsub := h.mono hsub
  insert h hne hvar := h.insert hne hvar
  apply h hs happly := h.apply hs happly
  substituted h hs := h.apply hs
  instantiate h ht := h.instantiate ht
  excluding h ht := h.excluding ht
  counted h ha := ⟨ha.base, fun g hg => by
    cases hg
    exact h.toMatched.mono fun c hc => (ConstraintSet.mem_onVariable.mp hc).1⟩

/-- a set of the schema -/
structure PrvSet.Follows (s : Schema) (t : PrvSet) : Prop where
  prv : t.prv.Follows s
  constraints : t.constraints.Matched

/-! ## components -/

namespace Component

/-- the constraints are regular, and the random variables follow the schema -/
abbrev Typed (s : Schema) (c : Component K) : Prop := c.Meets ConstraintSet.Regular (Prv.Follows s)

/-- what the builders check of the form of a component -/
def Formed : Component K → Prop
  | standard p => p.Proper
  | aggregation a => a.Formed

/-- a component over the schema, in the form that the builders check -/
structure Regular (s : Schema) (c : Component K) : Prop extends
    Component.Meets ConstraintSet.Regular (Prv.Follows s) c where
  formed : c.Formed

variable {c d : Component K}

theorem Regular.proper (h : c.Regular s) : c.Proper := by
  cases c with
  | standard p => exact h.formed
  | aggregation a => trivial

section
variable [Scalar K]

theorem Regular.squared (h : c.Regular s) : c.squared.Regular s := by
  refine ⟨h.toMeets.squared, ?_⟩
  cases c with
  | standard p => exact Proper.squared (c := .standard p) h.formed
  | aggregation a =>
    have ha : a.Formed := h.formed
    exact ⟨ha.extra_mem, ha.child, ha.context, ha.range, (Factor.size_map _ _).trans ha.size⟩

/-- accepted components of the schema are regular -/
theorem Accepted.regular (h : c.Accepted) (hc : c.Typed s) : c.Regular s := by
  refine ⟨hc, ?_⟩
  cases c with
  | standard p => exact h.proper
  | aggregation a =>
    have ha : a.Accepted := h
    exact ha.formed

end

end Component

/-! ## parfactors -/

namespace Parfactor

variable {p q : Parfactor K} {b : Binding}

/-- an instance under a binding within the populations -/
theorem regular_instance (hp : (Component.standard p).Regular s) (hb : Binds p.logVars b)
    (h : p.apply (.single b) = some q) : (Component.standard q).Regular s :=
  ⟨(hereditary_follows s).parfactor_apply hp.toMeets
      (keepsPopulations_single fun y hy => (hb.var y hy).2) h,
    Parfactor.Proper.apply hp.formed (Parfactor.Proper.admits hp.formed hb) h⟩

theorem regular_residual (hp : (Component.standard p).Regular s) (hb : Binds p.logVars b) :
    (Component.standard { p with constraints := p.constraints.insert (.ofBinding b) }).Regular s :=
  ⟨⟨hp.constraints.insert hb.target_ne fun y hy => (hb.var y hy).2, hp.prvs⟩,
    Parfactor.Proper.residual hp.formed hb⟩

theorem regular_expand {f : CountingFormula} {t : Term} (hp : (Component.standard p).Regular s)
    (h : p.expand f t = .ok q) : (Component.standard q).Regular s :=
  ⟨(hereditary_follows s).expand hp.toMeets h, (bulk_expand hp.formed h).1⟩

theorem regular_normalize (hp : (Component.standard p).Regular s)
    (h : p.normalize = .ok (some q)) : (Component.standard q).Regular s :=
  ⟨(hereditary_follows s).parfactor_normalize hp.toMeets h, (normalize_eq_or_lt hp.formed h).1⟩

end Parfactor

/-! ## aggregation parfactors -/

namespace Aggregation

variable {a a' : Aggregation K} {b : Binding}

theorem regular_instance (ha : (Component.aggregation a).Regular s) (hb : Binds a.logVars b)
    (h : a.apply (.single b) = some a') : (Component.aggregation a').Regular s := by
  have hmeets := (hereditary_follows s).aggregation_apply ha.toMeets
    (keepsPopulations_single fun y hy => (hb.var y hy).2) h
  have hsource : b.source ≠ a.extra := fun h => a.extra_notMem_logVars (h ▸ hb.source_mem)
  have hfix : (Substitution.single b).apply (.var a.extra) = .var a.extra :=
    Substitution.apply_single_ne hsource.symm
  have hformed : a.Formed := ha.formed
  have hout : ∀ {c : Atom}, a.extra ∉ c.variables →
      a.extra ∉ (c.apply (.single b)).variables := by
    intro c hc hmem
    obtain ⟨x, hx, hxe⟩ := Atom.mem_variables_apply.mp hmem
    exact avoids hb (fun h => hc (h ▸ hx)) hxe
  obtain ⟨ds, hds, rfl⟩ := apply_single hb h
  refine ⟨hmeets, ⟨Atom.mem_variables_apply.mpr ⟨_, hformed.extra_mem, hfix⟩,
    fun z hz => ⟨?_, ?_⟩, fun c hc => ?_, hformed.range, ?_⟩⟩
  · obtain ⟨x, hx, hxz⟩ := Atom.mem_variables_apply.mp hz
    exact Atom.mem_variables_apply.mpr ⟨x, (hformed.child x hx).1, hxz⟩
  · rintro rfl
    exact hout (fun hmem => (hformed.child _ hmem).2 rfl) hz
  · obtain ⟨c', hc', rfl⟩ := List.mem_map.mp hc
    exact hout (hformed.context c' hc')
  · rw [hformed.size, expectedSize, expectedSize, List.foldl_map]
    rfl

theorem regular_residual (ha : (Component.aggregation a).Regular s) (hb : Binds a.logVars b) :
    (Component.aggregation { a with
      constraints := a.constraints.insert (.ofBinding b) }).Regular s := by
  have hformed : a.Formed := ha.formed
  exact ⟨⟨ha.constraints.insert hb.target_ne fun y hy => (hb.var y hy).2, ha.prvs⟩,
    ⟨hformed.extra_mem, hformed.child, hformed.context, hformed.range, hformed.size⟩⟩

theorem regular_normalize (ha : (Component.aggregation a).Regular s)
    (h : a.normalize = .ok (some a')) : (Component.aggregation a').Regular s :=
  (groundSingletons_ok (I := fun o => ∀ q, o = some q → (Component.aggregation q).Regular s)
    (fun _ _ _ => nofun)
    (fun q x c hq hx hc r hr => regular_instance (hq q rfl) (binds_of_individuals_eq hc hx) hr)
    (fun q hq => by cases hq; exact ha) h).1 a' rfl

/-- the parfactors of an aggregation parfactor -/
theorem regular_toParfactors [Scalar K] {l : List (Parfactor K)}
    (ha : (Component.aggregation a).Regular s) (h : a.toParfactors = .ok l) :
    ∀ p ∈ l, (Component.standard p).Regular s := fun p hp =>
  ⟨(hereditary_follows s).toParfactors ha.toMeets h p hp, (bulk_toParfactors h).1 p hp⟩

end Aggregation

/-! ## pieces and lists of components -/

namespace Component

variable {c d : Component K}

theorem Regular.normalize (hc : c.Regular s) (h : c.normalize = .ok (some d)) : d.Regular s := by
  cases c with
  | standard p =>
    obtain ⟨o, ho, hod⟩ := map_ok h
    obtain ⟨q, rfl, rfl⟩ := Option.map_eq_some_iff.mp hod
    exact Parfactor.regular_normalize hc ho
  | aggregation a =>
    obtain ⟨o, ho, hod⟩ := map_ok h
    obtain ⟨q, rfl, rfl⟩ := Option.map_eq_some_iff.mp hod
    exact Aggregation.regular_normalize hc ho

theorem Regular.pieces [Scalar K] {l : List (Component K)} (hc : c.Regular s) (h : c.Pieces l) :
    ∀ d ∈ l, d.Regular s := by
  cases h with
  | split h =>
    obtain ⟨hs, hfragment, hresidual⟩ := Parfactor.split_ok h
    intro d hd
    simp only [List.mem_cons, List.not_mem_nil, or_false] at hd
    rcases hd with rfl | rfl
    · exact Parfactor.regular_instance hc hs.binds hfragment
    · rw [hresidual]
      exact Parfactor.regular_residual hc hs.binds
  | aggregationSplit h =>
    obtain ⟨hs, hfragment, hresidual⟩ := Aggregation.split_ok h
    intro d hd
    simp only [List.mem_cons, List.not_mem_nil, or_false] at hd
    rcases hd with rfl | rfl
    · exact Aggregation.regular_instance hc hs.binds hfragment
    · rw [hresidual]
      exact Aggregation.regular_residual hc hs.binds
  | expand h => exact fun d hd => List.mem_singleton.mp hd ▸ Parfactor.regular_expand hc h
  | convert h =>
    intro d hd
    obtain ⟨p, hp, rfl⟩ := List.mem_map.mp hd
    exact Aggregation.regular_toParfactors hc h p hp

theorem Regular.perform [Scalar K] {a : Action} {l : List (Component K)} (hc : c.Regular s)
    (h : c.perform a = .ok l) : ∀ d ∈ l, d.Regular s := by
  obtain ⟨pieces, normal, hp, hn, rfl⟩ := perform_ok h
  intro d hd
  obtain ⟨p, hpmem, hpd⟩ := mem_of_normalized hn hd
  exact (hc.pieces (pieces_ok hp) p hpmem).normalize hpd

end Component

end LiftedElimination
