import LiftedElimination.Proofs.Inherited

/-!
# The checks of the builder hold on every run

The builder of parfactors refuses an inequality `X ≠ X` and a formula whose bound variable is free
in the parfactor.  The engine makes its parfactors without the builder, but none of them would be
refused, as long as no elimination renames a variable onto the bound one of a formula.

* `ConstraintSet.Irreflexive`   no inequality has one variable on both sides;
* `Component.closed_irreflexive`   every step keeps this of parfactors, and a conversion checks it;
* `Operation.irreflexive_aligned`  so does the renaming to a set;
* `Engine.make_of_steps`        the builder accepts what a run reaches.
-/

namespace LiftedElimination

variable {K : Type}

/-! ## inequalities with one variable on both sides -/

/-- no inequality of the set is an `X ≠ X` -/
def ConstraintSet.Irreflexive (cs : ConstraintSet) : Prop := ∀ c ∈ cs, c.isContradiction = false

theorem hereditary_irreflexive : Hereditary ConstraintSet.Irreflexive fun _ => True where
  subset h hsub c hc := h c (hsub c hc)
  insert {cs b} h hne _ := by
    intro c hc
    rcases SortedSet.mem_insert.mp hc with rfl | hc
    · exact Bool.eq_false_of_not_eq_true fun hcon =>
        hne (Constraint.isContradiction_ordered.mp hcon)
    · exact h c hc
  apply _ _ happly _ hd := ConstraintSet.not_isContradiction_of_apply happly hd
  substituted _ _ := trivial
  instantiate _ _ := trivial
  excluding _ _ := trivial
  counted _ _ := trivial

/-- a parfactor has no inequality `X ≠ X`; aggregation parfactors are not checked for them -/
def Component.Irreflexive : Component K → Prop
  | standard p => p.constraints.Irreflexive
  | aggregation _ => True

theorem Component.irreflexive_standard {p : Parfactor K} : (standard p).Irreflexive
    ↔ (standard p).Meets ConstraintSet.Irreflexive fun _ => True :=
  ⟨fun h => ⟨h, fun _ _ => trivial⟩, fun h => h.constraints⟩

theorem Component.isAggregation_of_normalize {a : Aggregation K} {d : Component K}
    (h : (aggregation a).normalize = .ok (some d)) : ∃ b, d = .aggregation b := by
  obtain ⟨o, -, hod⟩ := map_ok h
  obtain ⟨b, -, rfl⟩ := Option.map_eq_some_iff.mp hod
  exact ⟨b, rfl⟩

theorem Component.isStandard_of_normalize {p : Parfactor K} {d : Component K}
    (h : (standard p).normalize = .ok (some d)) : ∃ q, d = .standard q := by
  obtain ⟨o, -, hod⟩ := map_ok h
  obtain ⟨q, -, rfl⟩ := Option.map_eq_some_iff.mp hod
  exact ⟨q, rfl⟩

section
variable [Scalar K]

/-- a conversion asks the builder -/
theorem Aggregation.irreflexive_of_toParfactors {a : Aggregation K} {l : List (Parfactor K)}
    (h : a.toParfactors = .ok l) : ∀ p ∈ l, p.constraints.Irreflexive := by
  have hmade : ∀ {cs : ConstraintSet} {prvs : List Prv} {t : Option (Factor K)} {p : Parfactor K},
      Parfactor.make cs prvs t = .ok p → p.constraints.Irreflexive := fun h =>
    (Parfactor.make_ok h).1.constraints_eq ▸ (Parfactor.make_ok h).1.satisfiable
  obtain ⟨weighed, f, aggregate, rfl, hw, -, haggregate⟩ := toParfactors_ok h
  intro p hp
  rcases List.mem_append.mp hp with hp | hp
  · rcases hw with ⟨-, rfl⟩ | ⟨q, hq, rfl⟩
    · cases hp
    · exact List.mem_singleton.mp hp ▸ hmade hq
  · exact List.mem_singleton.mp hp ▸ hmade haggregate

/-- **Every step keeps parfactors free of `X ≠ X`.** -/
theorem Component.closed_irreflexive :
    Component.Closed (Component.Irreflexive : Component K → Prop) where
  squared {c} hc := by
    cases c with
    | standard p => exact hc
    | aggregation a => trivial
  normalize {c d} hc hd := by
    cases c with
    | standard p =>
      obtain ⟨q, rfl⟩ := isStandard_of_normalize hd
      exact (hereditary_irreflexive.normalize (irreflexive_standard.mp hc) hd).constraints
    | aggregation a =>
      obtain ⟨b, rfl⟩ := isAggregation_of_normalize hd
      trivial
  pieces {c l} hc hl := by
    cases hl with
    | split h =>
      intro d hd
      have hmeets := hereditary_irreflexive.pieces (irreflexive_standard.mp hc) (.split h) d hd
      simp only [List.mem_cons, List.not_mem_nil, or_false] at hd
      rcases hd with rfl | rfl <;> exact hmeets.constraints
    | aggregationSplit h =>
      intro d hd
      simp only [List.mem_cons, List.not_mem_nil, or_false] at hd
      rcases hd with rfl | rfl <;> trivial
    | expand h =>
      intro d hd
      rw [List.mem_singleton.mp hd]
      exact (hereditary_irreflexive.expand (irreflexive_standard.mp hc) h).constraints
    | convert h =>
      intro d hd
      obtain ⟨p, hp, rfl⟩ := List.mem_map.mp hd
      exact Aggregation.irreflexive_of_toParfactors h p hp
  count hp hq := (hereditary_irreflexive.count (irreflexive_standard.mp hp) hq).constraints
  multiply hp hq hr := (Hereditary.multiply (irreflexive_standard.mp hp)
    (irreflexive_standard.mp hq) hr).constraints
  sumOut hp hq := (hereditary_irreflexive.sumOut (irreflexive_standard.mp hp) hq).constraints

/-- substitution refuses to make an `X ≠ X` -/
theorem Operation.irreflexive_aligned {m : Marginal K} {s : PrvSet} {e : SetElimination K}
    (h : sumOut? m s = some e) : ∀ p ∈ e.aligned, p.constraints.Irreflexive := by
  obtain ⟨pairs, hpairs, -, rfl⟩ := sumOut?_ok h
  intro p hp
  obtain ⟨y, hy, rfl⟩ := List.mem_map.mp hp
  obtain ⟨q, k, -, -, -, halign⟩ := (alignAll?_ok hpairs).2 y hy
  obtain ⟨t, rho, renamed, -, -, -, happly, -, -, -, heq⟩ := alignAt?_ok halign
  obtain ⟨cs, hcs, rfl⟩ := Parfactor.apply_eq_some happly
  rw [heq]
  exact fun c hc => ConstraintSet.not_isContradiction_of_apply hcs hc

/-! ## runs -/

/-- **The builder accepts what a run reaches.**  If the builders have accepted the components, and no
elimination that is chosen on the way captures a variable, then no parfactor that the engine reaches
has an inequality `X ≠ X` or a formula whose bound variable is free in a random variable or in a
constraint, so that the builder accepts it with every table of its size. -/
theorem Engine.make_of_steps {es : Nat → Engine K} {n : Nat} (hm : (es 0).marginal.Accepted)
    (hsteps : ∀ i < n, ∃ kind cost, (es i).step = (.ok (.applied kind cost), es (i + 1)))
    (hfree : ∀ i < n, ∀ op, (choose (es i).config (es i).marginal).outcome = .ok (some op) →
      op.CaptureFree) {i : Nat} (hi : i ≤ n) {p : Parfactor K}
    (hp : .standard p ∈ (es i).marginal.distribution.toList) :
    (∀ c ∈ p.constraints, c.isContradiction = false)
      ∧ (∀ f, Prv.count f ∈ p.prvs → (∀ q ∈ p.prvs, f.bound ∉ q.freeVars)
        ∧ f.bound ∉ p.constraints.variables)
      ∧ ∀ t : Factor K, Parfactor.expectedSize p.prvs = .ok t.size →
        Parfactor.make p.constraints p.prvs (some t) = .ok ⟨p.constraints, p.prvs, t⟩ := by
  have hstart : ∀ c ∈ (es 0).marginal.distribution.toList, c.Irreflexive := by
    intro c hc
    cases c with
    | standard q =>
      have hq : q.Accepted := hm _ hc
      exact (Parfactor.make_ok hq.made).1.satisfiable
    | aggregation a => trivial
  obtain ⟨hproper, hirreflexive⟩ := Engine.forall_of_steps (I := fun m => m.Proper
      ∧ ∀ c ∈ m.distribution.toList, c.Irreflexive) ⟨hm.proper, hstart⟩ hsteps
    (fun j hj op m hop heligible hrun ⟨hproper, hirreflexive⟩ =>
      ⟨(Operation.bulk_run hproper heligible (hfree j hj op hop) hrun).1,
        Component.closed_irreflexive.run hirreflexive heligible (fun e he q hq => by
          subst he
          obtain ⟨-, r, -, s, -, -, hsum⟩ := heligible
          exact Operation.irreflexive_aligned hsum q hq) hrun⟩) i hi
  have hproper : p.Proper := hproper _ hp
  have hcs : ∀ c ∈ p.constraints, c.isContradiction = false := hirreflexive _ hp
  have hbound : ∀ f, Prv.count f ∈ p.prvs → (∀ q ∈ p.prvs, f.bound ∉ q.freeVars)
      ∧ f.bound ∉ p.constraints.variables := fun f hf =>
    ⟨fun q hq hx => hproper.bound f hf (Parfactor.mem_logVars.mpr (.inl ⟨q, hq, hx⟩)),
      fun hx => hproper.bound f hf (Parfactor.mem_logVars.mpr (.inr hx))⟩
  exact ⟨hcs, hbound, fun t ht =>
    Parfactor.make_of_made ⟨rfl, rfl, Parfactor.expectedSize_ok ht, hcs, hbound⟩⟩

end

/-! ## the counted epidemic -/

open scoped ExactScalar

/-- what is left after seven steps would be accepted -/
theorem Epidemic.make_of_steps_counted : (engine 0).marginal.Accepted
    ∧ (∀ i < 7, ∃ kind cost, (engine i).step = (.ok (.applied kind cost), engine (i + 1)))
    ∧ ∀ i ≤ 7, ∀ p, .standard p ∈ (engine i).marginal.distribution.toList →
      ∀ t : Factor Nat, Parfactor.expectedSize p.prvs = .ok t.size →
        Parfactor.make p.constraints p.prvs (some t) = .ok ⟨p.constraints, p.prvs, t⟩ :=
  ⟨accepted_counted, engine_steps, fun _ hi _ hp =>
    (Engine.make_of_steps accepted_counted engine_steps
      (fun _ hj _ hop => engine_captureFree hj hop) hi hp).2.2⟩

end LiftedElimination
