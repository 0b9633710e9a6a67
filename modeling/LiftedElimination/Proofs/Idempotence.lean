import LiftedElimination.Proofs.Containment
import LiftedElimination.Proofs.Halting
import LiftedElimination.Proofs.Stable

/-!
# Shattering is idempotent

A shattered marginal consists of normal forms, no two of them alike, that need no refinement.  The
test for that goes through the components in their order as a set, and not in the order in which
shattering has left them.  The order does not matter: whether two occurrences need a refinement is
symmetric, as long as every inequality is written in one way only.

* `IsOrdered`               inequalities in their canonical form, in components and marginals;
* `perm_ofList`             different components make a distribution as they stand;
* `Extent.Settled.symm`     two extents need a refinement in both orders or in none;
* `nextAction_perm`         whether a refinement is needed does not depend on the order;
* `shatter_idempotent`      the result of shattering is shattered, and shattering it changes nothing.
-/

namespace LiftedElimination

variable {K : Type}

/-! ## the canonical form of inequalities -/

/-- the inequalities of a formula are in their canonical form -/
def Prv.IsOrdered (q : Prv) : Prop := ∀ f, q = .count f → f.constraints.IsOrdered

/-- all inequalities of the component are in their canonical form -/
abbrev Component.IsOrdered (c : Component K) : Prop :=
  c.Meets ConstraintSet.IsOrdered Prv.IsOrdered

/-- all inequalities of the components are in their canonical form -/
def Marginal.IsOrdered [Scalar K] (m : Marginal K) : Prop :=
  ∀ c ∈ m.distribution.toList, c.IsOrdered

theorem ConstraintSet.IsOrdered.insert {cs : ConstraintSet} (h : cs.IsOrdered) (x : LogVar)
    (t : Term) : IsOrdered (cs.insert (.ordered x t)) := by
  intro c hc
  rcases SortedSet.mem_insert.mp hc with rfl | hc
  · exact Constraint.ordered_ordered x t
  · exact h c hc

theorem ConstraintSet.IsOrdered.union {cs ds : ConstraintSet} (h : cs.IsOrdered)
    (h' : ds.IsOrdered) : IsOrdered (cs.union ds) := fun c hc =>
  (SortedSet.mem_union.mp hc).elim (h c) (h' c)

theorem Prv.IsOrdered.atom (a : Atom) : (Prv.atom a).IsOrdered := nofun

theorem Prv.isOrdered_count {f : CountingFormula} (h : f.constraints.IsOrdered) :
    (Prv.count f).IsOrdered := fun g hg => by
  cases hg
  exact h

theorem Prv.isOrdered_apply (q : Prv) (s : Substitution) : (q.apply s).IsOrdered := by
  cases q with
  | atom a => exact .atom _
  | count f =>
    refine Prv.isOrdered_count fun d hd => ?_
    obtain ⟨c, -, hcd⟩ := SortedSet.mem_filterMap.mp hd
    exact Constraint.ordered_of_between hcd

/-- substitution writes inequalities in their canonical form, like everything else that makes one -/
theorem hereditary_isOrdered : Hereditary ConstraintSet.IsOrdered Prv.IsOrdered where
  subset h hsub c hc := h c (hsub c hc)
  insert h _ _ := h.insert _ _
  apply _ _ happly := ConstraintSet.isOrdered_of_apply happly
  substituted {q s} _ _ := q.isOrdered_apply s
  instantiate _ _ := .atom _
  excluding h _ := Prv.isOrdered_count ((h _ rfl).insert _ _)
  counted h _ := Prv.isOrdered_count fun c hc => h c (ConstraintSet.mem_onVariable.mp hc).1

theorem Prv.isOrdered_constraintsIn {q : Prv} {cs : ConstraintSet} (hcs : cs.IsOrdered)
    (hq : q.IsOrdered) : (q.constraintsIn cs).IsOrdered := by
  cases q with
  | atom a => exact hcs
  | count f => exact hcs.union (hq f rfl)

theorem Extent.isOrdered_of {q : Prv} {cs : ConstraintSet} (hcs : cs.IsOrdered) (hq : q.IsOrdered) :
    (Extent.of q cs).constraints.IsOrdered := by
  rw [of_constraints]
  exact fun c hc => Prv.isOrdered_constraintsIn hcs hq c (ConstraintSet.mem_restrictTo.mp hc).1

/-! ## components that differ -/

section
variable [Scalar K]

namespace Distribution

theorem perm_insertList {c : Component K} {l : List (Component K)}
    (h : ∀ d ∈ l, c.same d = false) : (SortedSet.insertList c l).Perm (c :: l) :=
  SortedSet.perm_insertList_of_ne fun d hd heq => by
    have hsame := h d hd
    rw [Component.same, heq] at hsame
    cases hsame

theorem perm_add {d : Distribution K} {c : Component K} (h : ∀ b ∈ d.toList, c.same b = false) :
    (d.add c).toList.Perm (c :: d.toList) := by
  have hnot : d.components.contains c ≠ true := by
    intro hcontains
    obtain ⟨b, hb, hbc⟩ := List.any_eq_true.mp hcontains
    have hsame : c.same b = true := hbc
    rw [h b hb] at hsame
    cases hsame
  rw [add, absorb, dif_neg hnot]
  exact perm_insertList h

/-- components that differ are not squared -/
theorem perm_addAll {l : List (Component K)} {d : Distribution K} (h : Distinct (d.toList ++ l)) :
    (d.addAll l).toList.Perm (d.toList ++ l) := by
  induction l generalizing d with
  | nil => rw [List.append_nil]; exact .refl _
  | cons c l ih =>
    have hfresh : ∀ b ∈ d.toList, c.same b = false := fun b hb => by
      rw [c.same_comm]
      exact (List.pairwise_append.mp h).2.2 b hb c List.mem_cons_self
    have hperm := (perm_add hfresh).append_right l
    have hmiddle : (c :: d.toList ++ l).Perm (d.toList ++ c :: l) := List.perm_middle.symm
    refine (ih ?_).trans (hperm.trans hmiddle)
    refine List.Pairwise.perm h (hperm.trans hmiddle).symm fun {a b} hab => ?_
    rwa [b.same_comm]

theorem perm_ofList {l : List (Component K)} (h : Distinct l) : (ofList l).toList.Perm l :=
  perm_addAll (d := empty) h

theorem distinct_toList (d : Distribution K) : Distinct d.toList :=
  d.components.increasing.imp fun h => by rw [Component.same, h]; rfl

/-- the components of a distribution make the distribution -/
theorem ofList_toList (d : Distribution K) : ofList d.toList = d := by
  have hperm := perm_ofList d.distinct_toList
  have hlist := SortedSet.eq_of_mem_iff (ofList d.toList).components.increasing
    d.components.increasing fun c => hperm.mem_iff
  cases d
  exact congrArg Distribution.mk (SortedSet.toList_inj.mp hlist)

end Distribution

end

/-! ## the order of the components -/

namespace Extent

/-- neither extent needs a refinement because of the other one -/
def Settled (a b : Extent) : Prop := a.compare b = .disjoint ∨ a.compare b = .overlapping none none

/-- **Two extents are settled in both orders or in none.** -/
theorem Settled.symm {a b : Extent} (ha : a.IsClosed) (hb : b.IsClosed)
    (hao : a.constraints.IsOrdered) (hbo : b.constraints.IsOrdered) (h : Settled a b) :
    Settled b a := by
  rcases h with h | h
  · exact .inl ((compare_disjoint_comm ha hb).mp h)
  · obtain ⟨l, r, hba, hl, hr⟩ := compare_comm ha hb hao hbo h
    rw [hl.mpr rfl, hr.mpr rfl] at hba
    exact .inr hba

end Extent

/-- the extents of the random variables of a component -/
def Component.extents (c : Component K) : List Extent := c.prvs.map (Extent.of · c.constraints)

theorem map_extent_occurrences (cs : List (Component K)) :
    (occurrences cs).map Occurrence.extent = cs.flatMap Component.extents := by
  have hplaces : ∀ (c : Component K) (i : Nat),
      (Occurrence.ofComponent i c).map Occurrence.extent = c.extents := by
    intro c i
    rw [Occurrence.ofComponent, List.map_map, Component.extents]
    calc c.prvs.zipIdx.map (fun q => Extent.of q.1 c.constraints)
        = (c.prvs.zipIdx.map Prod.fst).map (Extent.of · c.constraints) := by rw [List.map_map]; rfl
      _ = c.prvs.map (Extent.of · c.constraints) := by rw [List.zipIdx_map_fst]
  rw [occurrences, List.map_flatMap]
  simp only [hplaces]
  calc cs.zipIdx.flatMap (fun c => c.1.extents)
      = (cs.zipIdx.map Prod.fst).flatMap Component.extents := by rw [List.flatMap_map]
    _ = cs.flatMap Component.extents := by rw [List.zipIdx_map_fst]

theorem separating?_eq_none_iff {o₁ o₂ : Occurrence} :
    separating? o₁ o₂ = none ↔ o₁.extent.Settled o₂.extent := by
  refine ⟨separating?_eq_none, fun h => ?_⟩
  unfold separating?
  rcases h with h | h <;> rw [h]

theorem firstOverlap?_eq_none_iff {os : List Occurrence} :
    firstOverlap? [] os = none ↔ (os.map Occurrence.extent).Pairwise Extent.Settled := by
  have hback : ∀ (os earlier : List Occurrence),
      (earlier ++ os).Pairwise (fun o₁ o₂ => separating? o₁ o₂ = none) →
      firstOverlap? earlier os = none := by
    intro os
    induction os with
    | nil => exact fun _ _ => rfl
    | cons o os ih =>
      intro earlier h
      have hnone : earlier.findSome? (separating? · o) = none :=
        List.findSome?_eq_none_iff.mpr fun e he =>
          (List.pairwise_append.mp h).2.2 e he o List.mem_cons_self
      rw [firstOverlap?, hnone]
      exact ih _ (by rwa [← List.append_cons])
  rw [List.pairwise_map]
  simp only [← separating?_eq_none_iff]
  exact ⟨firstOverlap?_eq_none .nil, hback os []⟩

theorem firstKept?_eq_none_iff {kept : List Extent} {os : List Occurrence} :
    firstKept? kept os = none ↔ ∀ a ∈ os.map Occurrence.extent, ∀ q ∈ kept,
      a.compare q = .disjoint ∨ ∃ r, a.compare q = .overlapping none r := by
  rw [List.forall_mem_map]
  refine ⟨firstKept?_eq_none, fun h => List.findSome?_eq_none_iff.mpr fun o ho =>
    List.findSome?_eq_none_iff.mpr fun q hq => ?_⟩
  rcases h o ho q hq with hcompare | ⟨r, hcompare⟩ <;> rw [hcompare]

theorem firstViolation?_eq_none_iff {cs : List (Component K)} : firstViolation? cs = none
    ↔ ∀ c ∈ cs, c.standard?.bind Parfactor.violation? = none := by
  unfold firstViolation?
  simp only [List.findSome?_eq_none_iff, Option.map_eq_none_iff]
  constructor
  · intro h c hc
    obtain ⟨i, hi⟩ := List.mem_iff_getElem?.mp hc
    exact h (c, i) (List.mk_mem_zipIdx_iff_getElem?.mpr hi)
  · rintro h ⟨c, i⟩ hc
    exact h c (List.mem_of_getElem? (List.mk_mem_zipIdx_iff_getElem?.mp hc))

section
variable [Scalar K]

/-- what it takes that no refinement is needed -/
theorem nextAction_eq_none_iff {cs : List (Component K)} {kept : List PrvSet} :
    nextAction cs kept = .ok none ↔ (∀ c ∈ cs, c.standard?.bind Parfactor.violation? = none)
      ∧ (cs.flatMap Component.extents).Pairwise Extent.Settled
      ∧ ∀ a ∈ cs.flatMap Component.extents, ∀ s ∈ kept,
        a.compare (.ofSet s) = .disjoint ∨ ∃ r, a.compare (.ofSet s) = .overlapping none r := by
  have hkept : (∀ a ∈ cs.flatMap Component.extents, ∀ s ∈ kept,
      a.compare (.ofSet s) = .disjoint ∨ ∃ r, a.compare (.ofSet s) = .overlapping none r)
      ↔ firstKept? (kept.map Extent.ofSet) (occurrences cs) = none := by
    rw [firstKept?_eq_none_iff, map_extent_occurrences]
    simp only [List.forall_mem_map]
  rw [← firstViolation?_eq_none_iff, ← map_extent_occurrences, ← firstOverlap?_eq_none_iff,
    map_extent_occurrences, hkept]
  constructor
  · intro h
    obtain ⟨hoverlap, hinside⟩ := nextAction_eq_none h
    refine ⟨?_, hoverlap, hinside⟩
    unfold nextAction at h
    split at h
    · cases h
    · assumption
  · rintro ⟨hviolation, hoverlap, hinside⟩
    rw [nextAction, hviolation]
    dsimp only
    rw [hoverlap]
    dsimp only
    rw [hinside]

/-- **Whether a refinement is needed does not depend on the order of the components.** -/
theorem nextAction_perm {cs ds : List (Component K)} {kept : List PrvSet} (hperm : cs.Perm ds)
    (hcs : ∀ c ∈ cs, c.IsOrdered) (h : nextAction cs kept = .ok none) :
    nextAction ds kept = .ok none := by
  obtain ⟨hviolation, hsettled, hkept⟩ := nextAction_eq_none_iff.mp h
  have hextents := hperm.flatMap_right Component.extents
  -- on the extents of the components the relation is symmetric
  have hclosed : ∀ a ∈ cs.flatMap Component.extents, a.IsClosed ∧ a.constraints.IsOrdered := by
    intro a ha
    obtain ⟨c, hc, ha⟩ := List.mem_flatMap.mp ha
    obtain ⟨q, hq, rfl⟩ := List.mem_map.mp ha
    exact ⟨Extent.isClosed_of q _, Extent.isOrdered_of (hcs c hc).constraints ((hcs c hc).prvs q hq)⟩
  refine nextAction_eq_none_iff.mpr ⟨fun c hc => hviolation c (hperm.mem_iff.mpr hc), ?_,
    fun a ha => hkept a (hextents.mem_iff.mpr ha)⟩
  have hstrong : (cs.flatMap Component.extents).Pairwise fun a b =>
      a.Settled b ∧ b.Settled a := by
    refine hsettled.imp_of_mem fun {a b} ha hb hab => ?_
    obtain ⟨ha, hao⟩ := hclosed a ha
    obtain ⟨hb, hbo⟩ := hclosed b hb
    exact ⟨hab, hab.symm ha hb hao hbo⟩
  exact (hstrong.perm hextents fun h => h.symm).imp And.left

/-! ## shattering -/

namespace Marginal

/-- no refinement is left for components that have been shattered -/
theorem isShattered_of_nextAction {m : Marginal K}
    (h : nextAction m.distribution.toList m.kept = .ok none) : m.isShattered = .ok true := by
  rw [isShattered, h]
  rfl

theorem nextAction_of_isShattered {m : Marginal K} (h : m.isShattered = .ok true) :
    nextAction m.distribution.toList m.kept = .ok none := by
  obtain ⟨o, ho, hnone⟩ := map_ok h
  rw [ho, Option.isNone_iff_eq_none.mp hnone]

/-- shattering leaves a marginal of normal forms alone if it needs no refinement -/
theorem shatter_eq_self {m : Marginal K} (hstable : ∀ c ∈ m.distribution.toList, c.Stable)
    (h : nextAction m.distribution.toList m.kept = .ok none) : m.shatter = .ok m := by
  have hcollect : ∀ l : List (Component K), (∀ c ∈ l, c.Stable) →
      collect Component.normalize l = .ok (l.map some) := by
    intro l
    induction l with
    | nil => exact fun _ => rfl
    | cons c l ih =>
      intro hl
      rw [collect, (hl c List.mem_cons_self).normalize, ih fun d hd => hl d (List.mem_cons_of_mem _ hd)]
      rfl
  have hnormalized : m.normalized = .ok m.distribution.toList := by
    have hsame : m.distribution.toList.foldl Distribution.pushFolded [] = m.distribution.toList :=
      foldl_pushFolded_eq m.distribution.components.increasing
    have hid : (m.distribution.toList.map some).filterMap id = m.distribution.toList := by
      rw [List.filterMap_map]
      exact List.filterMap_some
    show (collect Component.normalize m.distribution.toList >>= fun normal =>
      .ok ((normal.filterMap id).foldl Distribution.pushFolded [])) = _
    rw [hcollect _ hstable]
    show Except.ok _ = _
    rw [hid, hsame]
  have hround : refineRound m.kept m.distribution.toList = .ok none := by
    rw [refineRound, h]
    rfl
  show (m.normalized >>= fun cs => settle (refineRound m.kept) (refinementBound cs) cs >>= fun cs =>
    .ok (m.withDistribution (.ofList cs))) = .ok m
  rw [hnormalized]
  show (settle (refineRound m.kept) (refinementBound m.distribution.toList) m.distribution.toList
    >>= fun cs => .ok (m.withDistribution (.ofList cs))) = .ok m
  rw [settle_of_none hround]
  show Except.ok (m.withDistribution (.ofList m.distribution.toList)) = .ok m
  rw [Distribution.ofList_toList]
  rfl

/-- **Shattering is idempotent**: its result passes the test for a shattered marginal, and
shattering it again changes nothing.  Inequalities that are read from a text may be written the other
way around; then one order of two occurrences asks for a split that the other one finds made. -/
theorem shatter_idempotent {m s : Marginal K} (hm : m.IsOrdered) (h : m.shatter = .ok s) :
    s.isShattered = .ok true ∧ s.shatter = .ok s := by
  obtain ⟨cs, hcs, hdistinct, hdone, rfl⟩ := shatter_forall
    (P := fun c => c.IsOrdered ∧ c.Stable) (fun _ hc => ⟨hc.1.squared, hc.2.squared⟩)
    (fun c hc _ hcd =>
      ⟨hereditary_isOrdered.normalize (hm c hc) hcd, Component.stable_of_normalize hcd⟩)
    (fun _ _ _ hc hl d hd =>
      ⟨hereditary_isOrdered.perform hc.1 hl d hd, Component.stable_perform hl d hd⟩) h
  have hperm := Distribution.perm_ofList hdistinct
  have hnext := nextAction_perm hperm.symm (fun c hc => (hcs c hc).1)
    (nextAction_of_refineRound hdone)
  exact ⟨isShattered_of_nextAction hnext, shatter_eq_self
    (fun c hc => (hcs c (hperm.mem_iff.mp hc)).2) hnext⟩

end Marginal

end

open scoped ExactScalar

theorem Epidemic.isOrdered_counted : counted.IsOrdered := by
  refine Distribution.forall_mem_ofList (P := Component.IsOrdered) (fun _ hc => hc.squared)
    fun c hc => ?_
  simp only [List.mem_cons, List.not_mem_nil, or_false] at hc
  have hempty : ConstraintSet.IsOrdered ∅ := fun c hc => absurd hc List.not_mem_nil
  rcases hc with rfl | rfl | rfl <;> refine ⟨hempty, fun q hq f hf => ?_⟩ <;> subst hf <;>
    simp only [Component.prvs, Aggregation.prvs, Aggregation.atoms, List.map, List.mem_cons,
      List.not_mem_nil, or_false, Prv.count.injEq, reduceCtorEq] at hq
  subst hq
  exact hempty

/-- shattering takes somebody out of the counted group, and then it is done -/
theorem Epidemic.shatter_idempotent_counted : counted.IsOrdered
    ∧ ∃ s, counted.shatter = .ok s ∧ s.isShattered = .ok true ∧ s.shatter = .ok s := by
  refine ⟨isOrdered_counted, ?_⟩
  cases h : counted.shatter with
  | error e =>
    have hok : counted.shatter.isOk = true := by decide +kernel
    rw [h] at hok
    cases hok
  | ok s => exact ⟨s, rfl, Marginal.shatter_idempotent isOrdered_counted h⟩

end LiftedElimination
