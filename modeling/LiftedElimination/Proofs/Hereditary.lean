import LiftedElimination.Proofs.Steps

/-!
# What refinement hands down

A property of the constraints and one of the random variables pass from a component to everything
that is made of it, if they survive the few things that are ever done to constraints and random
variables.  `Hereditary` lists these, and the rest follows for all refinements at once.

* `KeepsPopulations`     substitutions that turn variables into variables of their population;
* `shatter_forall`       what shattering keeps of the components;
* `Hereditary`           the closure properties;
* `Component.Meets`      both properties hold in a component;
* `Hereditary.normalize`, `Hereditary.pieces`, `Hereditary.perform`   refinements hand them down;
* `Hereditary.shatter_list`   and so does shattering.
-/

namespace LiftedElimination

variable {K : Type}

/-! ## substitutions within the populations -/

/-- variables become variables of their population -/
def Substitution.KeepsPopulations (s : Substitution) : Prop :=
  ∀ x y, s.apply (.var x) = .var y → y.population = x.population

theorem Substitution.KeepsPopulations.without {s : Substitution} (h : s.KeepsPopulations)
    (z : LogVar) : (s.without (· = z)).KeepsPopulations := by
  intro x y hxy
  by_cases hx : x = z
  · subst hx
    rw [apply_without_self] at hxy
    rw [Term.var.inj hxy]
  · rw [apply_without_ne s hx] at hxy
    exact h x y hxy

theorem keepsPopulations_single {b : Binding}
    (h : ∀ y, b.target = .var y → y.population = b.source.population) :
    (Substitution.single b).KeepsPopulations := by
  intro x y hxy
  rcases Substitution.apply_single_eq_var.mp hxy with ⟨heq, -⟩ | ⟨heq, ht⟩
  · rw [Term.var.inj heq]
  · rw [Term.var.inj heq]
    exact h y ht

theorem keepsPopulations_const (x : LogVar) (c : Constant) :
    (Substitution.single ⟨x, .const c⟩).KeepsPopulations :=
  keepsPopulations_single nofun

theorem SplitsOn.keepsPopulations {vars : List LogVar} {cs : ConstraintSet} {b : Binding}
    (h : SplitsOn vars cs b) : (Substitution.single b).KeepsPopulations :=
  keepsPopulations_single fun y hy => (h.var y hy).2

theorem Parfactor.soleAtom?_eq_some {f : CountingFormula} {a : Atom} (h : soleAtom? f = some a) :
    f.excludedVars = [] ∧ ∃ c, f.individuals.get? 0 = some c ∧ a = f.instantiate (.const c) := by
  unfold soleAtom? at h
  split at h
  · rename_i hex
    obtain ⟨c, hc, rfl⟩ := Option.map_eq_some_iff.mp h
    exact ⟨List.isEmpty_iff.mp hex, c, hc, rfl⟩
  · cases h

/-- the components that a list of normal forms leaves -/
theorem Component.mem_of_normalized {pieces : List (Component K)}
    {normal : List (Option (Component K))}
    (h : List.Forall₂ (fun p r => p.normalize = .ok r) pieces normal) {d : Component K}
    (hd : d ∈ normal.filterMap id) : ∃ p ∈ pieces, p.normalize = .ok (some d) := by
  obtain ⟨r, hr, hrd⟩ := List.mem_filterMap.mp hd
  rw [id_eq] at hrd
  subst hrd
  induction h with
  | nil => cases hr
  | cons hpr _ ih =>
    rcases List.mem_cons.mp hr with rfl | hr
    · exact ⟨_, List.mem_cons_self, hpr⟩
    · obtain ⟨p, hp, hpd⟩ := ih (List.mem_filterMap.mpr ⟨_, hr, rfl⟩) hr
      exact ⟨p, List.mem_cons_of_mem _ hp, hpd⟩

/-! ## lists of components -/

section
variable [Scalar K]

/-- no two components of the list are the same -/
def Distinct (l : List (Component K)) : Prop := l.Pairwise fun c d => c.same d = false

theorem Component.same_comm (c d : Component K) : c.same d = d.same c := by
  rw [same, same, (Std.OrientedCmp.eq_swap : compare c d = (compare d c).swap)]
  cases compare d c <;> rfl

theorem Distinct.pushFolded {l : List (Component K)} (h : Distinct l) (c : Component K) :
    Distinct (Distribution.pushFolded l c) := by
  refine pushFolded_induct (P := fun l _ m => Distinct l → Distinct m)
    (fun l c hnew hl => ?_) (fun l c i d _ _ ih hl => ih (hl.sublist (List.eraseIdx_sublist l i)))
    l c h
  refine List.pairwise_append.mpr ⟨hl, List.pairwise_singleton _ _, fun d hd e he => ?_⟩
  rw [List.mem_singleton.mp he, d.same_comm]
  exact hnew d hd

theorem Distinct.foldl_pushFolded {l : List (Component K)} (h : Distinct l)
    (m : List (Component K)) : Distinct (m.foldl Distribution.pushFolded l) := by
  induction m generalizing l with
  | nil => exact h
  | cons c m ih => exact ih (h.pushFolded c)

/-- the list that shattering ends with: its components are different, and have what normal forms
have and refinements and squares keep -/
theorem shatter_forall {m s : Marginal K} {P : Component K → Prop}
    (hsquared : ∀ c, P c → P c.squared)
    (hnormal : ∀ c ∈ m.distribution.toList, ∀ d, c.normalize = .ok (some d) → P d)
    (hperform : ∀ c a l, P c → c.perform a = .ok l → ∀ d ∈ l, P d) (h : m.shatter = .ok s) :
    ∃ cs : List (Component K), (∀ c ∈ cs, P c) ∧ Distinct cs ∧ refineRound m.kept cs = .ok none
      ∧ s = m.withDistribution (.ofList cs) := by
  obtain ⟨cs, hcs, hdone, hs⟩ := shatter_ok (P := fun cs => (∀ c ∈ cs, P c) ∧ Distinct cs)
    (fun normal hn => ⟨forall_mem_foldl_pushFolded hsquared (fun d hd => by
        obtain ⟨c, hc, hcd⟩ := Component.mem_of_normalized hn hd
        exact hnormal c hc d hcd) fun d hd => absurd hd List.not_mem_nil,
      Distinct.foldl_pushFolded .nil _⟩)
    (fun cs i c a pieces hcs hc hp => ⟨forall_mem_foldl_pushFolded hsquared
        (hperform c a pieces (hcs.1 c (List.mem_of_getElem? hc)) hp)
        fun d hd => hcs.1 d (List.mem_of_mem_eraseIdx hd),
      Distinct.foldl_pushFolded (hcs.2.sublist (List.eraseIdx_sublist cs i)) _⟩) h
  exact ⟨cs, hcs.1, hcs.2, hdone, hs⟩

end

/-! ## closure -/

/-- `C` and `Q` survive what refinement does to constraints and to random variables -/
structure Hereditary (C : ConstraintSet → Prop) (Q : Prv → Prop) : Prop where
  subset : ∀ {cs ds : ConstraintSet}, C cs → (∀ c ∈ ds, c ∈ cs) → C ds
  insert : ∀ {cs : ConstraintSet} {b : Binding}, C cs → b.target ≠ .var b.source →
    (∀ y, b.target = .var y → y.population = b.source.population) → C (cs.insert (.ofBinding b))
  apply : ∀ {cs ds : ConstraintSet} {s : Substitution}, C cs → s.KeepsPopulations →
    cs.apply s = some ds → C ds
  substituted : ∀ {q : Prv} {s : Substitution}, Q q → s.KeepsPopulations → Q (q.apply s)
  instantiate : ∀ {f : CountingFormula} {t : Term}, Q (.count f) →
    (∀ y, t = .var y → y.population = f.bound.population) → Q (.atom (f.instantiate t))
  excluding : ∀ {f : CountingFormula} {t : Term}, Q (.count f) →
    (∀ y, t = .var y → y.population = f.bound.population) → Q (.count (f.excluding t))
  counted : ∀ {cs : ConstraintSet} {x : LogVar} {a : Atom}, C cs → Q (.atom a) →
    Q (.count ⟨x, a, cs.onVariable x⟩)

/-- the constraints have one property, and all random variables the other one -/
structure Component.Meets (C : ConstraintSet → Prop) (Q : Prv → Prop) (c : Component K) : Prop where
  constraints : C c.constraints
  prvs : ∀ q ∈ c.prvs, Q q

/-- the same random variables under the same constraints -/
def Component.Alike (c d : Component K) : Prop := c.constraints = d.constraints ∧ c.prvs = d.prvs

theorem Component.squared_alike [Scalar K] (c : Component K) : c.squared.Alike c := by
  cases c with
  | standard p => exact ⟨rfl, rfl⟩
  | aggregation a => exact ⟨rfl, rfl⟩

theorem Component.Alike.trans {c d e : Component K} (h : c.Alike d) (h' : d.Alike e) : c.Alike e :=
  ⟨h.1.trans h'.1, h.2.trans h'.2⟩

section
variable {C : ConstraintSet → Prop} {Q : Prv → Prop}

theorem Component.Alike.meets {c d : Component K} (h : d.Alike c) (hc : c.Meets C Q) :
    d.Meets C Q := ⟨h.1 ▸ hc.constraints, fun q hq => hc.prvs q (h.2 ▸ hq)⟩

theorem Component.Meets.squared [Scalar K] {c : Component K} (h : c.Meets C Q) :
    c.squared.Meets C Q := c.squared_alike.meets h

/-- an aggregation parfactor has atoms only -/
theorem Aggregation.meets_iff {a : Aggregation K} : (Component.aggregation a).Meets C Q
    ↔ C a.constraints ∧ ∀ b ∈ a.atoms, Q (.atom b) := by
  constructor
  · exact fun h => ⟨h.constraints, fun b hb => h.prvs _ (List.mem_map_of_mem hb)⟩
  · rintro ⟨hcs, hatoms⟩
    refine ⟨hcs, fun q hq => ?_⟩
    obtain ⟨b, hb, rfl⟩ := List.mem_map.mp hq
    exact hatoms b hb

/-- a new table over other random variables -/
theorem Parfactor.meets_rebuild {cs : ConstraintSet} {prvs : List Prv}
    {f : List Nat → Except Error K} {q : Parfactor K} (hcs : C cs) (hprvs : ∀ r ∈ prvs, Q r)
    (h : rebuild cs prvs f = .ok q) : (Component.standard q).Meets C Q := by
  obtain ⟨hcs', hprvs', -⟩ := rebuild_ok h
  exact ⟨show C q.constraints from hcs' ▸ hcs, fun r hr => hprvs r (hprvs' ▸ hr)⟩

namespace Hereditary

variable (h : Hereditary C Q) {p q : Parfactor K} {a a' : Aggregation K} {c d : Component K}
  {s : Substitution}
include h

/-! ## substitution -/

theorem parfactor_apply (hp : (Component.standard p).Meets C Q) (hs : s.KeepsPopulations)
    (happly : p.apply s = some q) : (Component.standard q).Meets C Q := by
  obtain ⟨cs, hcs, rfl⟩ := Parfactor.apply_eq_some happly
  refine ⟨h.apply hp.constraints hs hcs, fun r hr => ?_⟩
  obtain ⟨r', hr', rfl⟩ := List.mem_map.mp hr
  exact h.substituted (hp.prvs r' hr') hs

theorem aggregation_apply (ha : (Component.aggregation a).Meets C Q) (hs : s.KeepsPopulations)
    (happly : a.apply s = some a') : (Component.aggregation a').Meets C Q := by
  obtain ⟨hcs, hatoms⟩ := Aggregation.meets_iff.mp ha
  obtain ⟨cs, hds, rfl⟩ := Aggregation.apply_eq_some happly
  have hs' := hs.without a.extra
  have hsub : ∀ b ∈ a.atoms, Q (.atom (b.apply (s.without (· = a.extra)))) := fun b hb =>
    h.substituted (hatoms b hb) hs'
  refine Aggregation.meets_iff.mpr ⟨h.apply hcs hs' hds, fun b hb => ?_⟩
  simp only [Aggregation.atoms, List.mem_cons, List.mem_map] at hb
  rcases hb with rfl | rfl | ⟨b, hb, rfl⟩
  · exact hsub _ List.mem_cons_self
  · exact hsub _ (List.mem_cons_of_mem _ List.mem_cons_self)
  · exact hsub b (List.mem_cons_of_mem _ (List.mem_cons_of_mem _ hb))

/-! ## normal forms -/

theorem simplifyRound (hp : (Component.standard p).Meets C Q)
    (hq : p.simplifyRound = .ok (some q)) : (Component.standard q).Meets C Q := by
  obtain ⟨i, f, hf, ⟨-, hdrop⟩ | ⟨-, a, hsole, rfl⟩⟩ := Parfactor.simplifyRound_ok hq
  · exact Parfactor.meets_rebuild hp.constraints
      (fun r hr => hp.prvs r (List.mem_of_mem_eraseIdx hr)) hdrop
  · refine ⟨hp.constraints, fun r hr => ?_⟩
    rcases List.mem_or_eq_of_mem_set hr with hr | rfl
    · exact hp.prvs r hr
    · obtain ⟨-, c, -, rfl⟩ := Parfactor.soleAtom?_eq_some hsole
      exact h.instantiate (hp.prvs _ (List.mem_of_getElem? hf)) nofun

omit h in
theorem mergeRound (hp : (Component.standard p).Meets C Q)
    (hq : p.mergeRound = .ok (some q)) : (Component.standard q).Meets C Q := by
  obtain ⟨i, j, r, -, -, -, hmerge⟩ := Parfactor.mergeRound_ok hq
  exact Parfactor.meets_rebuild hp.constraints
    (fun r hr => hp.prvs r (List.mem_of_mem_eraseIdx hr)) hmerge

theorem parfactor_ground (hp : (Component.standard p).Meets C Q)
    (hq : groundSingletons Parfactor.logVars Parfactor.constraints Parfactor.apply p
      = .ok (some q)) : (Component.standard q).Meets C Q :=
  (groundSingletons_ok (I := fun o => ∀ q, o = some q → (Component.standard q).Meets C Q)
    (fun _ _ _ => nofun)
    (fun p x c hp _ _ q hq => h.parfactor_apply (hp p rfl) (keepsPopulations_const x c) hq)
    (fun q hq => by cases hq; exact hp) hq).1 q rfl

theorem parfactor_normalize (hp : (Component.standard p).Meets C Q)
    (hq : p.normalize = .ok (some q)) : (Component.standard q).Meets C Q := by
  obtain ⟨g, hg, ⟨-, hr⟩ | ⟨r, t, u, rfl, ht, hu, hqu⟩⟩ := Parfactor.normalize_ok hq
  · cases hr
  cases hqu
  have hground := h.parfactor_ground hp hg
  have hsimple := (settle_ok (p := fun q : Parfactor K => (Component.standard q).Meets C Q)
    (fun _ _ ha hab => h.simplifyRound ha hab) hground ht).1
  exact (settle_ok (p := fun q : Parfactor K => (Component.standard q).Meets C Q)
    (fun _ _ ha hab => mergeRound ha hab) hsimple hu).1

theorem aggregation_normalize (ha : (Component.aggregation a).Meets C Q)
    (ha' : a.normalize = .ok (some a')) : (Component.aggregation a').Meets C Q :=
  (groundSingletons_ok (I := fun o => ∀ q, o = some q → (Component.aggregation q).Meets C Q)
    (fun _ _ _ => nofun)
    (fun p x c hp _ _ q hq => h.aggregation_apply (hp p rfl) (keepsPopulations_const x c) hq)
    (fun q hq => by cases hq; exact ha) ha').1 a' rfl

theorem normalize (hc : c.Meets C Q) (hd : c.normalize = .ok (some d)) : d.Meets C Q := by
  cases c with
  | standard p =>
    obtain ⟨o, ho, hod⟩ := map_ok hd
    obtain ⟨q, rfl, rfl⟩ := Option.map_eq_some_iff.mp hod
    exact h.parfactor_normalize hc ho
  | aggregation a =>
    obtain ⟨o, ho, hod⟩ := map_ok hd
    obtain ⟨q, rfl, rfl⟩ := Option.map_eq_some_iff.mp hod
    exact h.aggregation_normalize hc ho

/-! ## refinements -/

theorem expand {f : CountingFormula} {t : Term} (hp : (Component.standard p).Meets C Q)
    (hq : p.expand f t = .ok q) : (Component.standard q).Meets C Q := by
  obtain ⟨i, hi, hon, hcases⟩ := Parfactor.expand_ok hq
  have hf := hp.prvs _ (List.mem_of_getElem? hi)
  have ht : ∀ y, t = .var y → y.population = f.bound.population := fun y hy =>
    (CountingFormula.isExpandable_var (hy ▸ hon.expandable)).2.1
  have hbefore : ∀ r ∈ p.prvs.take i, Q r := fun r hr => hp.prvs r (List.mem_of_mem_take hr)
  have hbehind : ∀ r ∈ p.prvs.drop (i + 1), Q r := fun r hr => hp.prvs r (List.mem_of_mem_drop hr)
  rcases hcases with ⟨-, hq⟩ | ⟨-, hq⟩ <;>
    refine Parfactor.meets_rebuild hp.constraints (fun r hr => ?_) hq <;>
    simp only [List.mem_append, List.mem_cons] at hr
  · rcases hr with hr | rfl | rfl | hr
    · exact hbefore r hr
    · exact h.instantiate hf ht
    · exact h.excluding hf ht
    · exact hbehind r hr
  · rcases hr with hr | rfl | hr
    · exact hbefore r hr
    · exact h.instantiate hf ht
    · exact hbehind r hr

section
variable [Scalar K]

theorem toParfactors {l : List (Parfactor K)} (ha : (Component.aggregation a).Meets C Q)
    (hl : a.toParfactors = .ok l) : ∀ p ∈ l, (Component.standard p).Meets C Q := by
  obtain ⟨hcs, hatoms⟩ := Aggregation.meets_iff.mp ha
  have hparent := hatoms a.parent List.mem_cons_self
  obtain ⟨weighed, f, agg, rfl, hw, hf, hagg⟩ := Aggregation.toParfactors_ok hl
  obtain ⟨rfl, -, -⟩ := CountingFormula.make_ok hf
  have hmade : ∀ {ds : ConstraintSet} {prvs : List Prv} {t : Option (Factor K)} {p : Parfactor K},
      C ds → (∀ r ∈ prvs, Q r) → Parfactor.make ds prvs t = .ok p →
      (Component.standard p).Meets C Q := by
    intro ds prvs t p hds hprvs hp
    have hmade := (Parfactor.make_ok hp).1
    exact ⟨show C p.constraints from hmade.constraints_eq ▸ hds,
      fun r hr => hprvs r (hmade.prvs_eq ▸ hr)⟩
  intro p hp
  rcases List.mem_append.mp hp with hp | hp
  · rcases hw with ⟨-, rfl⟩ | ⟨q, hq, rfl⟩
    · cases hp
    · obtain rfl := List.mem_singleton.mp hp
      refine hmade hcs (fun r hr => ?_) hq
      rcases List.mem_cons.mp hr with rfl | hr
      · exact hparent
      · obtain ⟨b, hb, rfl⟩ := List.mem_map.mp hr
        exact hatoms b (List.mem_cons_of_mem _ (List.mem_cons_of_mem _ hb))
  · obtain rfl := List.mem_singleton.mp hp
    refine hmade (h.subset hcs fun c hc => (ConstraintSet.mem_notOnVariable.mp hc).1)
      (fun r hr => ?_) hagg
    simp only [List.mem_cons, List.not_mem_nil, or_false] at hr
    rcases hr with rfl | rfl
    · exact h.counted hcs hparent
    · exact hatoms a.child (List.mem_cons_of_mem _ List.mem_cons_self)

theorem pieces {l : List (Component K)} (hc : c.Meets C Q) (hl : c.Pieces l) :
    ∀ d ∈ l, d.Meets C Q := by
  cases hl with
  | split hl =>
    obtain ⟨hs, hfragment, hresidual⟩ := Parfactor.split_ok hl
    intro d hd
    simp only [List.mem_cons, List.not_mem_nil, or_false] at hd
    rcases hd with rfl | rfl
    · exact h.parfactor_apply hc hs.keepsPopulations hfragment
    · rw [hresidual]
      exact ⟨h.insert hc.constraints hs.target_ne fun y hy => (hs.var y hy).2, hc.prvs⟩
  | aggregationSplit hl =>
    obtain ⟨hs, hfragment, hresidual⟩ := Aggregation.split_ok hl
    intro d hd
    simp only [List.mem_cons, List.not_mem_nil, or_false] at hd
    rcases hd with rfl | rfl
    · exact h.aggregation_apply hc hs.keepsPopulations hfragment
    · rw [hresidual]
      exact ⟨h.insert hc.constraints hs.target_ne fun y hy => (hs.var y hy).2, hc.prvs⟩
  | expand hl => exact fun d hd => List.mem_singleton.mp hd ▸ h.expand hc hl
  | convert hl =>
    intro d hd
    obtain ⟨p, hp, rfl⟩ := List.mem_map.mp hd
    exact h.toParfactors hc hl p hp

theorem perform {b : Action} {l : List (Component K)} (hc : c.Meets C Q)
    (hl : c.perform b = .ok l) : ∀ d ∈ l, d.Meets C Q := by
  obtain ⟨pieces, normal, hp, hn, rfl⟩ := Component.perform_ok hl
  intro d hd
  obtain ⟨p, hpmem, hpd⟩ := Component.mem_of_normalized hn hd
  exact h.normalize (h.pieces hc (Component.pieces_ok hp) p hpmem) hpd

/-! ## shattering -/

/-- the components of a shattered marginal -/
theorem shatter_list {m s : Marginal K} (hm : ∀ c ∈ m.distribution.toList, c.Meets C Q)
    (hs : m.shatter = .ok s) : ∃ cs : List (Component K), (∀ c ∈ cs, c.Meets C Q)
      ∧ Distinct cs ∧ refineRound m.kept cs = .ok none
      ∧ s = m.withDistribution (.ofList cs) :=
  shatter_forall (fun _ hc => hc.squared) (fun c hc _ hcd => h.normalize (hm c hc) hcd)
    (fun _ _ _ hc hl => h.perform hc hl) hs

end

end Hereditary

end

end LiftedElimination
