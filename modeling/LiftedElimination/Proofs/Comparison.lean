import LiftedElimination.Proofs.Separation

/-!
# What the comparison of extents decides

Two extents either have no common instance, and then the comparison says so, or they overlap.  One
direction is the completeness of unification and of the search for a grounding; for the other one a
grounding of the merged constraints is pulled back along the unifier to both sides.

* `Overlaps.pull_solves`, `exists_common_of_overlap?`   an overlap has a common instance;
* `Prv.Agree`         variables at the same argument position have the same population;
* `compare_decides`   disjointness is decided, containment and identity are sound.
-/

namespace LiftedElimination

namespace Extent

/-! ## an overlap has a common instance -/

/-- a grounding of the unified atom grounds an atom with the same unified terms -/
theorem mem_population_pull {theta : Substitution} (hpop : respectsPopulations theta = true)
    {a : Atom} {γ : Valuation} (hγ : ∀ z ∈ (a.apply theta).variables, γ z ∈ z.population) :
    ∀ x ∈ a.variables, theta.pull γ x ∈ x.population := by
  intro x hx
  rw [Substitution.pull]
  rcases population_apply hpop x with ⟨z, hz, hzx⟩ | ⟨c, hc, hcx⟩
  · rw [hz, Term.eval_var, ← hzx]
    exact hγ z (Atom.mem_variables_apply.mpr ⟨x, hx, hz⟩)
  · rw [hc, Term.eval_const]
    exact hcx

namespace Overlaps

variable {a b : Extent} {o : Overlap}

/-- both atoms have the same variables after unification -/
theorem mem_variables_right (h : Overlaps a b o) {z : LogVar} :
    z ∈ (o.right.atom.apply o.theta).variables ↔ z ∈ (a.atom.apply o.theta).variables := by
  rw [Atom.mem_variables, Atom.mem_variables]
  show _ ∈ o.right.atom.terms.map _ ↔ _ ∈ a.atom.terms.map _
  rw [h.terms]

/-- a grounding of the merged constraints, pulled back along the unifier, is one of both sides -/
theorem pull_solves (h : Overlaps a b o) (ha : a.IsClosed) (hb : b.IsClosed)
    {merged : ConstraintSet}
    (happly : ConstraintSet.apply (a.constraints.union o.right.constraints) o.theta = some merged)
    {γ : Valuation} (hγ : γ.Solves merged (a.atom.apply o.theta).variables) :
    (o.theta.pull γ).Solves a.constraints a.atom.variables
      ∧ (o.theta.pull γ).Solves o.right.constraints o.right.atom.variables := by
  have hright : o.right.IsClosed := h.right ▸ isClosed_apartFrom hb
  have hvars : ∀ z ∈ merged.variables, z ∈ (a.atom.apply o.theta).variables := by
    intro z hz
    obtain ⟨x, hx, hxz⟩ := ConstraintSet.mem_variables_of_apply happly hz
    obtain ⟨c, hc, hxc⟩ := ConstraintSet.mem_variables.mp hx
    rcases SortedSet.mem_union.mp hc with hc | hc
    · exact Atom.mem_variables_apply.mpr
        ⟨x, ha x (ConstraintSet.mem_variables.mpr ⟨c, hc, hxc⟩), hxz⟩
    · exact h.mem_variables_right.mp (Atom.mem_variables_apply.mpr
        ⟨x, hright x (ConstraintSet.mem_variables.mpr ⟨c, hc, hxc⟩), hxz⟩)
  obtain ⟨hmem, hholds⟩ := (Valuation.solves_iff_holds hvars).mp hγ
  obtain ⟨hleft, hother⟩ :=
    ConstraintSet.holds_union.mp ((ConstraintSet.holds_apply happly γ).mp hholds)
  exact ⟨(Valuation.solves_iff_holds ha).mpr ⟨mem_population_pull h.populations hmem, hleft⟩,
    (Valuation.solves_iff_holds hright).mpr
      ⟨mem_population_pull h.populations fun z hz => hmem z (h.mem_variables_right.mp hz),
        hother⟩⟩

/-- the unified atoms have the same ground instances -/
theorem ground_pull (h : Overlaps a b o) (γ : Valuation) :
    a.atom.ground (o.theta.pull γ) = o.right.atom.ground (o.theta.pull γ) := by
  rw [← Atom.ground_apply, ← Atom.ground_apply]
  exact congrArg₂ GroundAtom.mk h.functor (congrArg (List.map (·.eval γ)) h.terms)

end Overlaps

/-- the constraints of both sides have a common grounding after unification -/
theorem solves_of_overlap? {a b : Extent} {o : Overlap} (h : a.overlap? b = some o) :
    ∃ merged, ConstraintSet.apply (a.constraints.union o.right.constraints) o.theta = some merged
      ∧ ∃ γ : Valuation, γ.Solves merged (a.atom.apply o.theta).variables := by
  simp only [overlap?] at h
  split at h
  · split at h
    · cases h
    · split at h
      · split at h
        · cases h
        · rename_i merged happly
          split at h
          · rename_i hsat
            cases h
            -- rewriting leaves no `X ≠ X`, the one constraint that the search does not see
            exact ⟨merged, happly, ConstraintSet.exists_solves (Atom.nodup_variables _)
              (fun c hc _ => ConstraintSet.not_isContradiction_of_apply happly hc) hsat⟩
          · cases h
      · cases h
  · cases h

/-- **Extents that overlap have a common instance.** -/
theorem exists_common_of_overlap? {a b : Extent} {o : Overlap} (ha : a.IsClosed) (hb : b.IsClosed)
    (h : a.overlap? b = some o) : ∃ g, g ∈ a.instances ∧ g ∈ b.instances := by
  have hover := overlaps_of_overlap? h
  obtain ⟨merged, happly, γ, hγ⟩ := solves_of_overlap? h
  obtain ⟨hleft, hright⟩ := hover.pull_solves ha hb happly hγ
  refine ⟨_, ⟨_, hleft, rfl⟩, ?_⟩
  rw [← apartFrom_instances a hb, ← hover.right, hover.ground_pull]
  exact ⟨_, hright, rfl⟩

theorem compare_eq_disjoint_iff {a b : Extent} : a.compare b = .disjoint ↔ a.overlap? b = none := by
  refine ⟨compare_eq_disjoint, fun h => ?_⟩
  rw [compare, h]

/-- no refinement on the right: every instance of the right side is one of the left side -/
theorem superset_of_compare {a b : Extent} (ha : a.IsClosed) (hb : b.IsClosed)
    {l : Option Refinement} (h : a.compare b = .overlapping l none) :
    b.instances ⊆ a.instances := by
  obtain ⟨o, ho, -, hr⟩ := compare_eq_overlapping h
  have hover := overlaps_of_overlap? ho
  rw [← apartFrom_instances a hb, ← hover.right]
  exact (hover.covered_right ha (Option.map_eq_none_iff.mp hr)).subset

theorem compare_of_isWithin {a b : Extent} (h : a.isWithin b = true) :
    ∃ r, a.compare b = .overlapping none r := by
  unfold isWithin at h
  split at h
  · exact ⟨_, ‹_›⟩
  · cases h

theorem Relation.eq_of_isIdentical {r : Relation} (h : r.isIdentical = true) :
    r = .overlapping none none := by
  unfold isIdentical at h
  split at h
  · rfl
  · cases h

end Extent

/-! ## the populations of the argument positions -/

/-- two random variables whose variables at one argument position of a functor have one
population -/
def Prv.Agree (p q : Prv) : Prop :=
  p.base.functor = q.base.functor → ∀ (i : Nat) (x y : LogVar),
    p.base.terms[i]? = some (.var x) → q.base.terms[i]? = some (.var y) →
      x.population = y.population

/-- the population of the variable at an argument position -/
def Atom.populationAt? (a : Atom) (i : Nat) : Option Population :=
  (a.terms[i]?.bind Term.var?).map LogVar.population

theorem Atom.populationAt?_eq {a : Atom} {i : Nat} {x : LogVar}
    (h : a.terms[i]? = some (.var x)) : a.populationAt? i = some x.population := by
  rw [populationAt?, h]
  rfl

/-- the populations of the positions of `p`, and of `q` where `p` has no variable -/
def Prv.signature (p q : Prv) : Signature := fun f i =>
  if f = p.base.functor then
    ((p.base.populationAt? i).or (q.base.populationAt? i)).getD default
  else (q.base.populationAt? i).getD default

theorem Prv.isOver_signature_left (p q : Prv) : p.base.IsOver (p.signature q) := by
  intro i x hx
  rw [signature, if_pos rfl, Atom.populationAt?_eq hx]
  rfl

/-- what two random variables agree on is a signature for both -/
theorem Prv.Agree.isOver_signature {p q : Prv} (h : p.Agree q) :
    q.base.IsOver (p.signature q) := by
  intro i y hy
  rw [signature, Atom.populationAt?_eq hy]
  split
  · rename_i hf
    cases hp : p.base.populationAt? i with
    | none => rfl
    | some pop =>
      obtain ⟨x, hx, rfl⟩ := Option.map_eq_some_iff.mp hp
      obtain ⟨t, ht, htx⟩ := Option.bind_eq_some_iff.mp hx
      rw [Term.var?_eq_some] at htx
      exact (h hf.symm i x y (htx ▸ ht) hy).symm
  · rfl

namespace Extent

/-- **The comparison decides disjointness, and its containments are sound**: for occurrences that
agree on their populations it answers disjoint just if no ground atom is an instance of both, and a
side that needs no refinement has only instances of the other side. -/
theorem compare_decides {p q : Prv} (h : p.Agree q) (cs ds : ConstraintSet) :
    ((of p cs).compare (of q ds) = .disjoint
        ↔ ∀ g, ¬ (g ∈ p.instances cs ∧ g ∈ q.instances ds))
      ∧ (∀ r, (of p cs).compare (of q ds) = .overlapping none r →
        p.instances cs ⊆ q.instances ds)
      ∧ (∀ l, (of p cs).compare (of q ds) = .overlapping l none →
        q.instances ds ⊆ p.instances cs)
      ∧ ((of p cs).isWithin (of q ds) = true → p.instances cs ⊆ q.instances ds)
      ∧ (((of p cs).compare (of q ds)).isIdentical = true →
        p.instances cs = q.instances ds) := by
  have hp := isClosed_of p cs
  have hq := isClosed_of q ds
  simp only [← instances_of]
  refine ⟨⟨fun hdisjoint g hg => ?_, fun hnone => ?_⟩, fun r hr => subset_of_compare hq hr,
    fun l hl => superset_of_compare hp hq hl, fun hw => ?_, fun hid => ?_⟩
  · exact Set.disjoint_left.mp (disjoint_of_overlap?
      (of_atom p cs ▸ p.isOver_signature_left q) (of_atom q ds ▸ h.isOver_signature) hp hq
      (compare_eq_disjoint hdisjoint)) hg.1 hg.2
  · rw [compare_eq_disjoint_iff]
    cases ho : (of p cs).overlap? (of q ds) with
    | none => rfl
    | some o =>
      obtain ⟨g, hg⟩ := exists_common_of_overlap? hp hq ho
      exact absurd hg (hnone g)
  · obtain ⟨r, hr⟩ := compare_of_isWithin hw
    exact subset_of_compare hq hr
  · exact eq_of_compare hp hq (Relation.eq_of_isIdentical hid)

end Extent

/-! ## who knows whom -/

namespace Epidemic

def contact : LogVar := ⟨"Y", people⟩

def knows (s t : Term) : Prv := .atom ⟨"knows", [s, t], .boolean⟩

/-- `X` and `Y` are not the same person -/
def distinct : ConstraintSet := .ofList [.ordered person (.var contact)]

theorem knows_agree {s t u v : Term}
    (h : ∀ x ∈ [s, t, u, v].filterMap Term.var?, x.population = people) :
    (knows s t).Agree (knows u v) := by
  have hmem : ∀ w ∈ [s, t, u, v], ∀ z, w = .var z → z.population = people := fun w hw z hz =>
    h z (List.mem_filterMap.mpr ⟨w, hw, Term.var?_eq_some.mpr hz⟩)
  intro _ i x y hx hy
  have hx' : Term.var x ∈ [s, t] := List.mem_of_getElem? hx
  have hy' : Term.var y ∈ [u, v] := List.mem_of_getElem? hy
  rw [hmem _ (List.mem_append_left [u, v] hx') x rfl,
    hmem _ (List.mem_append_right [s, t] hy') y rfl]

/-- the two sides share the names of their variables, in the other order -/
theorem compare_decides_swapped :
    (knows (.var person) (.var contact)).Agree (knows (.var contact) (.var person))
      ∧ (knows (.var person) (.var contact)).instances distinct
        = (knows (.var contact) (.var person)).instances distinct
      ∧ (knows (.var person) (.var person)).Agree (knows (.var person) (.var contact))
      ∧ ∀ g, ¬ (g ∈ (knows (.var person) (.var person)).instances ∅
        ∧ g ∈ (knows (.var person) (.var contact)).instances distinct) := by
  have hswap : (knows (.var person) (.var contact)).Agree (knows (.var contact) (.var person)) :=
    knows_agree (by decide)
  have hself : (knows (.var person) (.var person)).Agree (knows (.var person) (.var contact)) :=
    knows_agree (by decide)
  exact ⟨hswap, (Extent.compare_decides hswap distinct distinct).2.2.2.2 (by decide +kernel),
    hself, (Extent.compare_decides hself ∅ distinct).1.mp (by decide +kernel)⟩

end Epidemic

end LiftedElimination
