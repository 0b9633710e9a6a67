import LiftedElimination.Proofs.Extent
import LiftedElimination.Proofs.Hereditary
import LiftedElimination.Proofs.Exact

/-!
# What shattering separates

* `Prv.instances`          the ground atoms that an occurrence of a random variable denotes;
* `Marginal.IsOver`        every argument position of a functor has one population;
* `hereditary_isOver`      refinements keep the populations;
* `eq_or_disjoint_of_separating?`   two occurrences that nothing separates any more;
* `separated_of_nextAction`   a list that needs no refinement has only extents that are equal or
                           disjoint, and that lie inside or outside of the kept sets;
* `shatter_separates`      so has the result of shattering.
-/

namespace LiftedElimination

variable {K : Type}

/-! ## the ground atoms of an occurrence -/

namespace Prv

/-- the constraints of the parfactor, and those of a formula on its bound variable -/
def constraintsIn : Prv → ConstraintSet → ConstraintSet
  | atom _, cs => cs
  | count f, cs => cs.union f.constraints

/-- the ground atoms that an occurrence denotes: the instances of its atom under the constraints
that mention only variables of the atom -/
def instances (q : Prv) (cs : ConstraintSet) : Set GroundAtom :=
  {g | ∃ γ : Valuation, γ.Solves (q.constraintsIn cs) q.base.variables ∧ q.base.ground γ = g}

end Prv

namespace PrvSet

/-- the ground atoms of the set -/
def instances (s : PrvSet) : Set GroundAtom := s.prv.instances s.constraints

end PrvSet

namespace Extent

theorem of_atom (q : Prv) (cs : ConstraintSet) : (of q cs).atom = q.base := by
  cases q <;> rfl

theorem of_constraints (q : Prv) (cs : ConstraintSet) :
    (of q cs).constraints = (q.constraintsIn cs).restrictTo q.base.variables := by
  cases q <;> rfl

theorem isClosed_of (q : Prv) (cs : ConstraintSet) : (of q cs).IsClosed := by
  intro x hx
  rw [of_constraints] at hx
  obtain ⟨c, hc, hxc⟩ := ConstraintSet.mem_variables.mp hx
  rw [of_atom]
  exact (ConstraintSet.mem_restrictTo.mp hc).2 x hxc

theorem instances_of (q : Prv) (cs : ConstraintSet) : (of q cs).instances = q.instances cs := by
  ext g
  rw [instances, of_atom, of_constraints]
  exact exists_congr fun γ => and_congr_left' (Valuation.solves_restrictTo fun _ h => h)

end Extent

/-! ## one population for every position -/

/-- every atom of the component has variables of the right populations -/
def Component.IsOver (sig : Signature) (c : Component K) : Prop :=
  ∀ q ∈ c.prvs, q.base.IsOver sig

/-- every argument position of a functor has one population, in the components and the kept sets -/
def Marginal.IsOver [Scalar K] (sig : Signature) (m : Marginal K) : Prop :=
  (∀ c ∈ m.distribution.toList, c.IsOver sig) ∧ ∀ s ∈ m.kept, s.prv.base.IsOver sig

theorem Prv.isOver_apply {sig : Signature} {q : Prv} {s : Substitution} (h : q.base.IsOver sig)
    (hs : s.KeepsPopulations) : (q.apply s).base.IsOver sig := by
  cases q with
  | atom a => exact Extent.isOver_apply h hs
  | count f => exact Extent.isOver_apply h (hs.without f.bound)

/-- whatever is done to a random variable stays within the populations -/
theorem hereditary_isOver (sig : Signature) :
    Hereditary (fun _ => True) fun q => q.base.IsOver sig where
  subset _ _ := trivial
  insert _ _ _ := trivial
  apply _ _ _ := trivial
  substituted := Prv.isOver_apply
  instantiate h ht := Extent.isOver_apply h (keepsPopulations_single ht)
  excluding h _ := h
  counted _ h := h

theorem Component.isOver_iff {sig : Signature} {c : Component K} :
    c.IsOver sig ↔ c.Meets (fun _ => True) fun q => q.base.IsOver sig :=
  ⟨fun h => ⟨trivial, h⟩, fun h => h.prvs⟩

section
variable [Scalar K]

namespace Distribution

theorem alike_of_mem_absorb (s : SortedSet (Component K)) (c : Component K) :
    ∀ d ∈ (absorb s c).toList, d.Alike c ∨ d ∈ s.toList := by
  induction s, c using absorb.induct with
  | case1 s c h _ ih =>
    rw [absorb, dif_pos h]
    exact fun d hd => (ih d hd).imp (fun h => h.trans c.squared_alike)
      fun h => (List.mem_filter.mp h).1
  | case2 s c h =>
    rw [absorb, dif_neg h]
    exact SortedSet.forall_insertList (.inl ⟨rfl, rfl⟩) fun b hb => .inr hb

theorem alike_of_mem_ofList (l : List (Component K)) :
    ∀ d ∈ (ofList l).toList, ∃ c ∈ l, d.Alike c := by
  have hgen : ∀ (e : Distribution K), ∀ d ∈ (e.addAll l).toList,
      (∃ c ∈ l, d.Alike c) ∨ d ∈ e.toList := by
    induction l with
    | nil => exact fun e d hd => .inr hd
    | cons c l ih =>
      intro e d hd
      rcases ih (e.add c) d hd with ⟨c', hc', h⟩ | h
      · exact .inl ⟨c', List.mem_cons_of_mem _ hc', h⟩
      · exact (alike_of_mem_absorb e.components c d h).imp_left
          fun h => ⟨c, List.mem_cons_self, h⟩
  exact fun d hd => (hgen empty d hd).resolve_right List.not_mem_nil

end Distribution

/-! ## what needs no refinement -/

theorem separating?_eq_none {o₁ o₂ : Occurrence} (h : separating? o₁ o₂ = none) :
    o₁.extent.compare o₂.extent = .disjoint
      ∨ o₁.extent.compare o₂.extent = .overlapping none none := by
  unfold separating? at h
  split at h
  · cases h
  · cases h
  · rename_i hfirst hsecond
    cases hc : o₁.extent.compare o₂.extent with
    | disjoint => exact .inl rfl
    | overlapping l r =>
      cases l with
      | some l => exact absurd hc (hfirst l r)
      | none =>
        cases r with
        | some r => exact absurd hc (hsecond r)
        | none => exact .inr rfl

theorem firstOverlap?_eq_none {earlier os : List Occurrence}
    (he : earlier.Pairwise fun o₁ o₂ => separating? o₁ o₂ = none)
    (h : firstOverlap? earlier os = none) :
    (earlier ++ os).Pairwise fun o₁ o₂ => separating? o₁ o₂ = none := by
  induction os generalizing earlier with
  | nil => rwa [List.append_nil]
  | cons o os ih =>
    rw [firstOverlap?] at h
    split at h
    · cases h
    · rename_i hnone
      rw [List.append_cons]
      refine ih (List.pairwise_append.mpr ⟨he, List.pairwise_singleton _ _, ?_⟩) h
      intro a ha b hb
      rw [List.mem_singleton.mp hb]
      exact List.findSome?_eq_none_iff.mp hnone a ha

theorem firstKept?_eq_none {kept : List Extent} {os : List Occurrence}
    (h : firstKept? kept os = none) : ∀ o ∈ os, ∀ q ∈ kept,
      o.extent.compare q = .disjoint ∨ ∃ r, o.extent.compare q = .overlapping none r := by
  intro o ho q hq
  have hnone := List.findSome?_eq_none_iff.mp (List.findSome?_eq_none_iff.mp h o ho) q hq
  split at hnone
  · cases hnone
  · rename_i hleft
    cases hc : o.extent.compare q with
    | disjoint => exact .inl rfl
    | overlapping l r =>
      cases l with
      | some l => exact absurd hc (hleft l r)
      | none => exact .inr ⟨r, rfl⟩

theorem nextAction_eq_none {cs : List (Component K)} {kept : List PrvSet}
    (h : nextAction cs kept = .ok none) :
    firstOverlap? [] (occurrences cs) = none
      ∧ firstKept? (kept.map Extent.ofSet) (occurrences cs) = none := by
  have haction : ∀ {o : Occurrence} {r}, (o.action cs r).map some ≠ .ok none := by
    intro o r hmap
    obtain ⟨a, -, ha⟩ := map_ok hmap
    cases ha
  unfold nextAction at h
  split at h
  · cases h
  · dsimp only at h
    split at h
    · exact absurd h haction
    · rename_i hoverlap
      split at h
      · exact absurd h haction
      · rename_i hkept
        exact ⟨hoverlap, hkept⟩

/-- an action is on one of the components -/
theorem getElem?_of_nextAction {cs : List (Component K)} {kept : List PrvSet} {i : Nat} {a : Action}
    (h : nextAction cs kept = .ok (some (i, a))) : ∃ c, cs[i]? = some c := by
  have haction : ∀ {o : Occurrence} {r}, (o.action cs r).map some = .ok (some (i, a)) →
      ∃ c, cs[i]? = some c := by
    intro o r hmap
    obtain ⟨b, hb, hbi⟩ := map_ok hmap
    cases hbi
    unfold Occurrence.action at hb
    split at hb
    · cases hb
    · rename_i c hc
      obtain ⟨_, -, hpair⟩ := map_ok hb
      cases hpair
      exact ⟨c, hc⟩
  unfold nextAction at h
  split at h
  · rename_i b hviolation
    cases h
    obtain ⟨⟨c, j⟩, hmem, hbind⟩ := List.exists_of_findSome?_eq_some hviolation
    obtain ⟨b, -, hpair⟩ := Option.map_eq_some_iff.mp hbind
    cases hpair
    exact ⟨c, List.mk_mem_zipIdx_iff_getElem?.mp hmem⟩
  · dsimp only at h
    split at h
    · exact haction h
    · split at h
      · exact haction h
      · cases h

/-- where no refinement is left, none is needed -/
theorem nextAction_of_refineRound {cs : List (Component K)} {kept : List PrvSet}
    (h : refineRound kept cs = .ok none) : nextAction cs kept = .ok none := by
  rcases refineRound_eq_none h with hnext | ⟨i, a, hnext, hi⟩
  · exact hnext
  · obtain ⟨c, hc⟩ := getElem?_of_nextAction hnext
    rw [hc] at hi
    cases hi

omit [Scalar K] in
theorem exists_occurrence {cs : List (Component K)} {c : Component K} (hc : c ∈ cs) {q : Prv}
    (hq : q ∈ c.prvs) : ∃ o ∈ occurrences cs, o.extent = .of q c.constraints := by
  obtain ⟨i, hi⟩ := List.mem_iff_getElem?.mp hc
  obtain ⟨j, hj⟩ := List.mem_iff_getElem?.mp hq
  refine ⟨⟨i, j, .of q c.constraints⟩, List.mem_flatMap.mpr
    ⟨(c, i), List.mk_mem_zipIdx_iff_getElem?.mpr hi, ?_⟩, rfl⟩
  exact List.mem_map.mpr ⟨(q, j), List.mk_mem_zipIdx_iff_getElem?.mpr hj, rfl⟩

omit [Scalar K] in
theorem disjoint_instances_of_compare {sig : Signature} {p q : Prv} {cs ds : ConstraintSet}
    (hp : p.base.IsOver sig) (hq : q.base.IsOver sig)
    (h : (Extent.of p cs).compare (.of q ds) = .disjoint) :
    Disjoint (p.instances cs) (q.instances ds) := by
  rw [← Extent.instances_of, ← Extent.instances_of]
  exact Extent.disjoint_of_overlap? (Extent.of_atom p cs ▸ hp) (Extent.of_atom q ds ▸ hq)
    (Extent.isClosed_of _ _) (Extent.isClosed_of _ _) (Extent.compare_eq_disjoint h)

omit [Scalar K] in
/-- two occurrences that nothing separates any more -/
theorem eq_or_disjoint_of_separating? {sig : Signature} {p q : Prv} {cs ds : ConstraintSet}
    {o o' : Occurrence} (hp : p.base.IsOver sig) (hq : q.base.IsOver sig)
    (ho : o.extent = .of p cs) (ho' : o'.extent = .of q ds) (h : separating? o o' = none) :
    p.instances cs = q.instances ds ∨ Disjoint (p.instances cs) (q.instances ds) := by
  rcases separating?_eq_none h with hcompare | hcompare
  · rw [ho, ho'] at hcompare
    exact .inr (disjoint_instances_of_compare hp hq hcompare)
  · rw [ho, ho'] at hcompare
    rw [← Extent.instances_of, ← Extent.instances_of]
    exact .inl (Extent.eq_of_compare (Extent.isClosed_of _ _) (Extent.isClosed_of _ _) hcompare)

omit [Scalar K] in
/-- the comparisons are made for one order of two occurrences only -/
theorem separating?_eq_none_of_mem {cs : List (Component K)} {o o' : Occurrence}
    (h : firstOverlap? [] (occurrences cs) = none) (ho : o ∈ occurrences cs)
    (ho' : o' ∈ occurrences cs) :
    o = o' ∨ separating? o o' = none ∨ separating? o' o = none := by
  let R : Occurrence → Occurrence → Prop := fun o₁ o₂ =>
    o₁ = o₂ ∨ separating? o₁ o₂ = none ∨ separating? o₂ o₁ = none
  have : Std.Symm R := ⟨fun _ _ h => h.imp Eq.symm Or.symm⟩
  have hpairs : (occurrences cs).Pairwise R :=
    (firstOverlap?_eq_none .nil h).imp fun h => .inr (.inl h)
  exact hpairs.forall_of_forall (fun _ _ => .inl rfl) ho ho'

/-- a list that needs no refinement has only equal or disjoint sets of ground atoms, inside or
outside of the kept ones -/
theorem separated_of_nextAction {sig : Signature} {cs : List (Component K)} {kept : List PrvSet}
    (h : nextAction cs kept = .ok none) (hcs : ∀ c ∈ cs, c.IsOver sig)
    (hkept : ∀ k ∈ kept, k.prv.base.IsOver sig) {c : Component K} (hc : c ∈ cs) {q : Prv}
    (hq : q ∈ c.prvs) :
    (∀ d ∈ cs, ∀ r ∈ d.prvs, q.instances c.constraints = r.instances d.constraints
        ∨ Disjoint (q.instances c.constraints) (r.instances d.constraints))
      ∧ ∀ k ∈ kept, q.instances c.constraints ⊆ k.instances
        ∨ Disjoint (q.instances c.constraints) k.instances := by
  obtain ⟨hoverlap, hinside⟩ := nextAction_eq_none h
  obtain ⟨o, ho, hoq⟩ := exists_occurrence hc hq
  have hqover := hcs c hc q hq
  constructor
  · intro d hd r hr
    obtain ⟨o', ho', hor⟩ := exists_occurrence hd hr
    have hrover := hcs d hd r hr
    rcases separating?_eq_none_of_mem hoverlap ho ho' with rfl | hnone | hnone
    · left
      rw [← Extent.instances_of, ← Extent.instances_of, ← hoq, ← hor]
    · exact eq_or_disjoint_of_separating? hqover hrover hoq hor hnone
    · exact (eq_or_disjoint_of_separating? hrover hqover hor hoq hnone).imp Eq.symm fun h => h.symm
  · intro k hk
    rcases firstKept?_eq_none hinside o ho _ (List.mem_map_of_mem hk) with hcompare | ⟨r, hcompare⟩
    · rw [hoq] at hcompare
      exact .inr (disjoint_instances_of_compare hqover (hkept k hk) hcompare)
    · rw [hoq] at hcompare
      left
      rw [← Extent.instances_of, PrvSet.instances, ← Extent.instances_of]
      exact Extent.subset_of_compare (Extent.isClosed_of _ _) hcompare

namespace Marginal

/-- **Shattering separates**: if every argument position of a functor has one population, the sets
of ground atoms of any two occurrences are equal or disjoint afterwards, and each lies inside or
outside of every kept set. -/
theorem shatter_separates {sig : Signature} {m s : Marginal K} (hm : m.IsOver sig)
    (h : m.shatter = .ok s) {c : Component K} (hc : c ∈ s.distribution.toList) {q : Prv}
    (hq : q ∈ c.prvs) :
    (∀ d ∈ s.distribution.toList, ∀ r ∈ d.prvs,
        q.instances c.constraints = r.instances d.constraints
          ∨ Disjoint (q.instances c.constraints) (r.instances d.constraints))
      ∧ ∀ k ∈ s.kept, q.instances c.constraints ⊆ k.instances
        ∨ Disjoint (q.instances c.constraints) k.instances := by
  obtain ⟨cs, hcs, -, hnone, rfl⟩ := (hereditary_isOver sig).shatter_list
    (fun c hc => Component.isOver_iff.mp (hm.1 c hc)) h
  have hnext := nextAction_of_refineRound hnone
  obtain ⟨c', hc', hcc⟩ := Distribution.alike_of_mem_ofList cs c hc
  obtain ⟨hpairs, hkept⟩ :=
    separated_of_nextAction hnext (fun c hc => (hcs c hc).prvs) hm.2 hc' (hcc.2 ▸ hq)
  rw [hcc.1]
  refine ⟨fun d hd r hr => ?_, hkept⟩
  obtain ⟨d', hd', hdd⟩ := Distribution.alike_of_mem_ofList cs d hd
  rw [hdd.1]
  exact hpairs d' hd' r (hdd.2 ▸ hr)

end Marginal

end

/-! ## an epidemic -/

open scoped ExactScalar

namespace Epidemic

def people : Population := .numbered "x" 3

def person : LogVar := ⟨"X", people⟩

def sick (t : Term) : Atom := ⟨"sick", [t], .boolean⟩

def epidemic : Atom := ⟨"epidemic", [], .boolean⟩

/-- everybody may be sick in an epidemic, and something is known about `x1` -/
def model : Marginal Nat :=
  .make [.standard ⟨∅, [.atom (sick (.var person)), .atom epidemic], ⟨#[3, 1, 1, 2]⟩⟩,
    .standard ⟨∅, [.atom (sick (.const ⟨"x1"⟩))], ⟨#[1, 5]⟩⟩] [⟨.atom epidemic, ∅⟩]

end Epidemic

theorem Atom.isOver_of_forall {p : Population} {a : Atom}
    (h : ∀ x ∈ a.variables, x.population = p) : a.IsOver fun _ _ => p :=
  fun _ x hx => h x (mem_variables.mpr (List.mem_of_getElem? hx))

theorem Epidemic.shatter_separates_model : ∃ s, model.shatter = .ok s
    ∧ ∀ c ∈ s.distribution.toList, ∀ q ∈ c.prvs, ∀ d ∈ s.distribution.toList, ∀ r ∈ d.prvs,
      q.instances c.constraints = r.instances d.constraints
        ∨ Disjoint (q.instances c.constraints) (r.instances d.constraints) := by
  have hcomponents : ∀ c ∈ model.distribution.toList, ∀ q ∈ c.prvs, ∀ x ∈ q.base.variables,
      x.population = people := by decide +kernel
  have hkept : ∀ k ∈ model.kept, ∀ x ∈ k.prv.base.variables, x.population = people := by
    decide
  have hm : model.IsOver fun _ _ => people :=
    ⟨fun c hc q hq => Atom.isOver_of_forall (hcomponents c hc q hq),
      fun k hk => Atom.isOver_of_forall (hkept k hk)⟩
  cases h : model.shatter with
  | error e =>
    have hok : model.shatter.isOk = true := by decide +kernel
    rw [h] at hok
    cases hok
  | ok s => exact ⟨s, rfl, fun c hc q hq => (Marginal.shatter_separates hm h hc hq).1⟩

end LiftedElimination
