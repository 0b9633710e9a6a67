import LiftedElimination.Proofs.Conversion
import LiftedElimination.Proofs.Expandable

/-!
# Splits divide the ground instances

A component stands for its ground instances, one for each grounding.  A split deals them out to its
two parts: the residual has the groundings that give the source and the target of the binding
different values, and the fragment those that give them the same value, without the source.

* `GroundInstance`           what a component says under one grounding;
* `Component.instances`      the ground instances of a component, with repetitions;
* `Component.Partitions`     how the groundings of two parts make up those of a component;
* `Partitions.instances_eq`  nothing is gained, lost or doubled;
* `split_partitions`         every split that is possible divides the groundings in this way.
-/

namespace LiftedElimination

open Finset

variable {K : Type}

/-! ## ground instances -/

/-- what a random variable stands for under one grounding: a ground random variable, or the
individuals that a formula counts, each with the ground random variable that it is counted by -/
inductive GroundPrv where
  | single (v : RandomVariable)
  | group (range : Range) (members : Finset (Constant × RandomVariable))

def Prv.ground (γ : Valuation) : Prv → GroundPrv
  | .atom a => .single (a.groundVar γ)
  | .count f => .group f.inner.range ((f.counted γ).image fun c => (c, f.member γ c))

/-- what a component says under one grounding; the parents of an aggregation are given with the
individuals that the extra variable may take -/
inductive GroundInstance (K : Type) where
  | standard (prvs : List GroundPrv) (factor : Factor K)
  | aggregation (parents : GroundPrv) (child : RandomVariable) (context : List RandomVariable)
      (operator : Operator) (factor : Factor K)

def Parfactor.ground (p : Parfactor K) (γ : Valuation) : GroundInstance K :=
  .standard (p.prvs.map (·.ground γ)) p.factor

def Aggregation.ground (a : Aggregation K) (γ : Valuation) : GroundInstance K :=
  .aggregation ((Prv.count a.formula).ground γ) (a.child.groundVar γ)
    (a.context.map (·.groundVar γ)) a.operator a.factor

namespace Prv

variable {q : Prv} {γ δ : Valuation} {s : Substitution}

theorem ground_congr (hq : q.Valid) (h : ∀ x ∈ q.freeVars, γ x = δ x) : q.ground γ = q.ground δ := by
  cases q with
  | atom a => exact congrArg GroundPrv.single (Atom.groundVar_congr h)
  | count f =>
    refine congrArg (GroundPrv.group f.inner.range) ?_
    rw [CountingFormula.Valid.counted_congr hq h]
    exact image_congr fun c _ => congrArg (Prod.mk c) (CountingFormula.member_congr h c)

/-- **The instance of an instance** is the instance at the pulled valuation. -/
theorem ground_apply (hq : q.Valid) (hs : q.Avoids s) : (q.apply s).ground γ = q.ground (s.pull γ) := by
  cases q with
  | atom a => exact congrArg GroundPrv.single (Atom.groundVar_apply a s γ)
  | count f =>
    refine congrArg (GroundPrv.group f.inner.range) ?_
    rw [CountingFormula.counted_apply hq hs]
    exact image_congr fun c _ => congrArg (Prod.mk c) (CountingFormula.member_apply hs γ c)

end Prv

namespace Parfactor

variable {p q : Parfactor K} {s : Substitution} {γ δ : Valuation}

theorem ground_congr (hp : ∀ r ∈ p.prvs, r.Valid) (h : ∀ x ∈ p.logVars, γ x = δ x) :
    p.ground γ = p.ground δ := by
  refine congrArg (GroundInstance.standard · p.factor) (List.map_congr_left fun r hr => ?_)
  exact Prv.ground_congr (hp r hr) fun x hx => h x (mem_logVars.mpr (.inl ⟨r, hr, hx⟩))

theorem ground_apply (hp : p.Proper) (hs : p.Admits s) (h : p.apply s = some q) (γ : Valuation) :
    q.ground γ = p.ground (s.pull γ) := by
  obtain ⟨ds, -, rfl⟩ := apply_eq_some h
  refine congrArg (GroundInstance.standard · p.factor) ?_
  rw [List.map_map]
  exact List.map_congr_left fun r hr => Prv.ground_apply (hp.valid r hr) (hs.avoids hr)

end Parfactor

namespace Aggregation

variable {a a' : Aggregation K} {b : Binding} {γ δ : Valuation}

theorem ground_congr (ha : a.Formed) (hf : a.formula.Valid) (h : ∀ x ∈ a.logVars, γ x = δ x) :
    a.ground γ = a.ground δ := by
  have hparents : (Prv.count a.formula).ground γ = (Prv.count a.formula).ground δ :=
    Prv.ground_congr hf fun x hx => h x (freeVars_subset hf hx)
  have hchild : a.child.groundVar γ = a.child.groundVar δ := by
    refine Atom.groundVar_congr fun x hx => h x (mem_logVars.mpr ⟨.inl ⟨_, a.child_mem_atoms, hx⟩, ?_⟩)
    exact (ha.child x hx).2
  have hcontext : a.context.map (·.groundVar γ) = a.context.map (·.groundVar δ) := by
    refine List.map_congr_left fun c hc => Atom.groundVar_congr fun x hx => h x ?_
    exact mem_logVars.mpr ⟨.inl ⟨c, context_mem_atoms hc, hx⟩, fun he => ha.context c hc (he ▸ hx)⟩
  rw [ground, hparents, hchild, hcontext]
  rfl

theorem ground_apply (hf : a.formula.Valid) (hb : Binds a.logVars b)
    (h : a.apply (.single b) = some a') (γ : Valuation) :
    a'.ground γ = a.ground ((Substitution.single b).pull γ) := by
  have hparents : (Prv.count a'.formula).ground γ
      = (Prv.count a.formula).ground ((Substitution.single b).pull γ) := by
    rw [formula_apply hb h]
    exact Prv.ground_apply (q := .count a.formula) hf (formula_avoids hf hb)
  rw [ground, hparents]
  obtain ⟨ds, -, rfl⟩ := apply_single hb h
  rw [ground, ← Atom.groundVar_apply, List.map_map]
  simp only [← Atom.groundVar_apply]
  rfl

end Aggregation

namespace Component

def ground : Component K → Valuation → GroundInstance K
  | standard p => p.ground
  | aggregation a => a.ground

/-- the ground instances, as often as there are groundings for them -/
def instances (c : Component K) : Multiset (GroundInstance K) := c.solutions.val.map c.ground

/-! ## parts -/

/-- the groundings of the residual give source and target different values, those of the fragment
are the others without the source, and all say what they said before -/
structure Partitions (c : Component K) (b : Binding) (s : Split (Component K)) : Prop where
  residualVars : ∀ x, x ∈ s.residual.logVars ↔ x ∈ c.logVars
  fragmentVars : ∀ x, x ∈ s.fragment.logVars ↔ x ∈ c.logVars ∧ x ≠ b.source
  residual : s.residual.solutions = c.solutions.filter fun γ => ¬ γ b.source = b.target.eval γ
  fragment : Set.BijOn (fun γ : Valuation => γ.restrict s.fragment.logVars)
    ↑(c.solutions.filter fun γ => γ b.source = b.target.eval γ) ↑s.fragment.solutions
  ground_residual : ∀ γ, s.residual.ground γ = c.ground γ
  ground_fragment : ∀ γ, γ b.source = b.target.eval γ →
    s.fragment.ground (γ.restrict s.fragment.logVars) = c.ground γ

variable {c : Component K} {b : Binding} {s : Split (Component K)}

/-- **No ground instance is gained, lost or doubled.** -/
theorem Partitions.instances_eq (h : c.Partitions b s) :
    c.instances = s.fragment.instances + s.residual.instances := by
  classical
  have hfragment : s.fragment.instances
      = (c.solutions.filter fun γ => γ b.source = b.target.eval γ).val.map c.ground := by
    have himage : s.fragment.solutions = (c.solutions.filter fun γ =>
        γ b.source = b.target.eval γ).image fun γ => γ.restrict s.fragment.logVars := by
      rw [← coe_inj, coe_image, h.fragment.image_eq]
    rw [instances, himage, image_val_of_injOn h.fragment.injOn, Multiset.map_map]
    exact Multiset.map_congr rfl fun γ hγ => h.ground_fragment γ (mem_filter.mp hγ).2
  have hresidual : s.residual.instances
      = (c.solutions.filter fun γ => ¬ γ b.source = b.target.eval γ).val.map c.ground := by
    rw [instances, h.residual]
    exact Multiset.map_congr rfl fun γ _ => h.ground_residual γ
  rw [hfragment, hresidual, ← Multiset.map_add, filter_val, filter_val, Multiset.filter_add_not]
  rfl

end Component

/-! ## splits -/

namespace Parfactor

variable {p : Parfactor K} {b : Binding}

theorem split_partitions (hp : p.Proper) (h : p.isSplittable b = true) : ∃ s, p.split b = .ok s
    ∧ (Component.standard p).Partitions b ⟨.standard s.fragment, .standard s.residual⟩ := by
  obtain ⟨s, hs⟩ := (errorsIn_split (P := fun _ => False) fun hnot => by
    rw [h] at hnot
    cases hnot).exists_ok
  obtain ⟨hon, hfragment, hresidual⟩ := split_ok hs
  have hb := hon.binds
  have hws := hp.mem_logVars_instance hb hfragment
  refine ⟨s, hs, ?_, hws, ?_, ?_, fun γ => ?_, fun γ hγ => ?_⟩
  · rw [hresidual]
    exact fun x => mem_logVars_residual hb
  · rw [hresidual]
    exact solutions_residual hb
  · obtain ⟨ds, hds, hq⟩ := apply_eq_some hfragment
    have hbij := hb.bijOn_restrict hws hds (confined p _ b)
    have hcs : s.fragment.constraints = ds := by rw [hq]
    rwa [← hcs] at hbij
  · rw [hresidual]
    rfl
  · refine (ground_apply hp (hp.admits hb) hfragment _).trans ?_
    exact ground_congr hp.valid fun x hx => hb.pull_restrict hws hγ hx

end Parfactor

/-- where no constraint is violated, none is an `X ≠ X` -/
theorem ConstraintSet.irreflexive_of_apply {cs ds : ConstraintSet} {s : Substitution}
    (h : cs.apply s = some ds) : cs.Irreflexive := by
  refine fun c hc => Bool.eq_false_of_not_eq_true fun hcon => ?_
  have hviolated : c.isViolatedBy s = true := by
    rw [Constraint.isViolatedBy, Constraint.isContradiction_iff.mp hcon]
    exact beq_self_eq_true _
  rw [apply_eq_none.mpr ⟨c, hc, hviolated⟩] at h
  cases h

namespace Aggregation

variable {a : Aggregation K} {b : Binding}

theorem split_partitions [Scalar K] (ha : a.Accepted) (h : a.isSplittable b = true) :
    ∃ s, a.split b = .ok s
      ∧ (Component.aggregation a).Partitions b ⟨.aggregation s.fragment, .aggregation s.residual⟩ := by
  obtain ⟨s, hs⟩ := (errorsIn_split (P := fun _ => False) fun hnot => by
    rw [h] at hnot
    cases hnot).exists_ok
  obtain ⟨hon, hfragment, hresidual⟩ := split_ok hs
  have hb := hon.binds
  have hws := fun z => mem_logVars_apply hb hfragment (z := z)
  obtain ⟨ds, hds, hq⟩ := apply_single hb hfragment
  have hf := ha.valid_formula (ConstraintSet.irreflexive_of_apply hds)
  refine ⟨s, hs, ?_, hws, ?_, ?_, fun γ => ?_, fun γ hγ => ?_⟩
  · rw [hresidual]
    exact fun x => mem_logVars_residual hb
  · rw [hresidual]
    exact solutions_residual hb
  · have hextra : a.extra ∉ s.fragment.logVars := fun hx =>
      a.extra_notMem_logVars ((hws _).mp hx).1
    have hbij := hb.bijOn_restrict hws hds (confined a hextra hb)
    have hcs : s.fragment.constraints = ds := by rw [hq]
    rwa [← hcs] at hbij
  · rw [hresidual]
    show Aggregation.ground { a with constraints := a.constraints.insert (.ofBinding b) } γ = _
    rw [ground, formula_residual hb]
    rfl
  · refine (ground_apply hf hb hfragment _).trans ?_
    exact ground_congr ha.formed hf fun x hx => hb.pull_restrict hws hγ hx

end Aggregation

/-- **A split divides the ground instances**: let the builder have accepted a component, and let a
binding be one that it can be split on.  Then the split succeeds.  The residual has just the groundings
that give source and target different values.  The fragment has just those that give them the same
value, restricted to the other variables, each of them once.  Under corresponding groundings the
ground random variables, the counted individuals, the parents with the individuals of the extra
variable and the table are the same, so that the ground instances of both parts together are those of
the component. -/
theorem Component.split_divides [Scalar K] {c : Component K} {b : Binding} (hc : c.Accepted)
    (h : c.isSplittable b = true) : ∃ s, c.split b = .ok s ∧ c.Partitions b s
      ∧ c.instances = s.fragment.instances + s.residual.instances := by
  cases c with
  | standard p =>
    obtain ⟨s, hs, hparts⟩ := Parfactor.split_partitions (Parfactor.Accepted.proper hc) h
    refine ⟨_, ?_, hparts, hparts.instances_eq⟩
    show (p.split b).map _ = _
    rw [hs]
    rfl
  | aggregation a =>
    obtain ⟨s, hs, hparts⟩ := Aggregation.split_partitions hc h
    refine ⟨_, ?_, hparts, hparts.instances_eq⟩
    show (a.split b).map _ = _
    rw [hs]
    rfl

/-! ## meetings -/

open scoped ExactScalar

namespace Epidemic

/-- a visitor, who is not somebody named, is sick, by the number of sources of another person -/
def meetings : Parfactor Nat :=
  ⟨.ofList [.ordered visitor (.var named)],
    [.atom (sick (.var visitor)), .count sources, .atom epidemic],
    ⟨#[5, 1, 2, 3, 1, 4, 2, 1, 1, 6, 3, 2]⟩⟩

theorem accepted_meetings : meetings.Accepted := by
  refine ⟨rfl, fun f hf => ?_, by decide⟩
  obtain rfl : f = sources := by simpa [meetings] using hf
  rfl

/-- the person who may be infected is the visitor or is not -/
def meeting : Binding := ⟨other, .var visitor⟩

end Epidemic

/-- the visitor takes part in the formula and its exclusion, and the parents of the visitor are those
of the person -/
theorem Epidemic.split_divides_meetings :
    (∃ s, (Component.standard meetings).split meeting = .ok s
      ∧ (Component.standard meetings).Partitions meeting s
      ∧ (Component.standard meetings).instances = s.fragment.instances + s.residual.instances)
    ∧ ∃ s, (Component.aggregation exposure).split meeting = .ok s
      ∧ (Component.aggregation exposure).Partitions meeting s
      ∧ (Component.aggregation exposure).instances
        = s.fragment.instances + s.residual.instances :=
  ⟨Component.split_divides (c := .standard meetings) accepted_meetings (by decide),
    Component.split_divides (c := .aggregation exposure) ⟨rfl, by decide⟩ (by decide)⟩

end LiftedElimination
