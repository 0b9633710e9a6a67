import LiftedElimination.Proofs.Assignments
import LiftedElimination.Proofs.Scope

/-!
# Marginals with random variables summed out

What an operation makes of a marginal means the sum of what the marginal means, over all assignments
of the random variables that have been summed out; most operations sum out none.

* `Marginal.SumsTo`   a marginal with a set of random variables summed out of it;
* `SumsTo.trans`      two sets summed out, one after the other;
* `SumsTo.sum_above`  random variables that are gone without having been summed out count with the
                      number of their assignments.
-/

namespace LiftedElimination

open Finset

/-! ## assignments -/

namespace World

variable {w : World} {s t : Finset RandomVariable}

theorem assignments_empty (w : World) : w.assignments ∅ = {w} := overrides_empty _ w

theorem sum_assignments_union {K : Type} [CommSemiring K] (hst : Disjoint s t) (w : World)
    (F : World → K) :
    ∑ u ∈ w.assignments (s ∪ t), F u = ∑ u ∈ w.assignments s, ∑ x ∈ u.assignments t, F x :=
  sum_overrides_union hst _ w F

theorem card_assignments (w : World) (s : Finset RandomVariable) :
    (w.assignments s).card = ∏ v ∈ s, v.range.size := by
  rw [assignments, overrides, card_map, card_pi]
  exact prod_congr rfl fun v _ => card_range _

end World

/-! ## summed out -/

variable {K : Type} [ExactScalar K]

/-- the meaning of sound components depends on what they are about -/
theorem meaningOf_congr {l : List (Component K)} (hl : ∀ c ∈ l, c.Sound) {w w' : World}
    (h : ∀ c ∈ l, ∀ v ∈ c.scope, w v = w' v) : meaningOf l w = meaningOf l w' :=
  congrArg List.prod (List.map_congr_left fun c hc => Component.meaning_congr (hl c hc) (h c hc))

namespace Marginal

variable {m m' m'' : Marginal K} {s t : Finset RandomVariable}

theorem scope_subset {c : Component K} (hc : c ∈ m.distribution.toList) : c.scope ⊆ m.scope :=
  fun _ hv => mem_scopeOf.mpr ⟨c, hc, hv⟩

/-- **A marginal with `s` summed out**: sound components about other random variables, which
together mean the sum over all assignments of `s`, and the same kept sets. -/
structure SumsTo (m : Marginal K) (s : Finset RandomVariable) (m' : Marginal K) : Prop where
  kept : m'.kept = m.kept
  sound : ∀ c ∈ m'.distribution.toList, c.Sound
  subset : s ⊆ m.scope
  scope : m'.scope ⊆ m.scope \ s
  meaning : ∀ w : World, w.Legal (m.scope \ s) →
    m'.meaning w = ∑ u ∈ w.assignments s, m.meaning u

/-- nothing is summed out where the meaning stays the same -/
theorem sumsTo_empty (hkept : m'.kept = m.kept) (hsound : ∀ c ∈ m'.distribution.toList, c.Sound)
    (hscope : m'.scope ⊆ m.scope) (hmeaning : ∀ w : World, w.Legal m.scope →
      m'.meaning w = m.meaning w) : m.SumsTo ∅ m' := by
  refine ⟨hkept, hsound, empty_subset _, ?_, fun w hw => ?_⟩
  · rwa [sdiff_empty]
  · rw [sdiff_empty] at hw
    rw [World.assignments_empty, sum_singleton]
    exact hmeaning w hw

namespace SumsTo

theorem meaning_eq (h : m.SumsTo ∅ m') {w : World} (hw : w.Legal m.scope) :
    m'.meaning w = m.meaning w := by
  rw [← sdiff_empty (s := m.scope)] at hw
  rw [h.meaning w hw, World.assignments_empty, sum_singleton]

/-- **Two sets summed out**, one after the other -/
theorem trans (h : m.SumsTo s m') (h' : m'.SumsTo t m'') : m.SumsTo (s ∪ t) m'' := by
  have ht : t ⊆ m.scope \ s := h'.subset.trans h.scope
  have hsplit : m.scope \ (s ∪ t) = (m.scope \ s) \ t := sdiff_sdiff_left.symm
  have hscope : m'.scope \ t ⊆ m.scope \ (s ∪ t) :=
    hsplit ▸ sdiff_subset_sdiff h.scope Subset.rfl
  refine ⟨h'.kept.trans h.kept, h'.sound,
    union_subset h.subset (ht.trans sdiff_subset), h'.scope.trans hscope, fun w hw => ?_⟩
  have hlegal : ∀ u ∈ w.assignments t, u.Legal (m.scope \ s) := fun u hu =>
    World.legal_of_mem_assignments hu (hsplit ▸ hw)
  have hdisjoint : Disjoint t s := disjoint_left.mpr fun v hv => (mem_sdiff.mp (ht hv)).2
  calc m''.meaning w = ∑ u ∈ w.assignments t, m'.meaning u := h'.meaning w (hw.mono hscope)
    _ = ∑ u ∈ w.assignments t, ∑ x ∈ u.assignments s, m.meaning x :=
        sum_congr rfl fun u hu => h.meaning u (hlegal u hu)
    _ = ∑ x ∈ w.assignments (s ∪ t), m.meaning x := by
        rw [union_comm, World.sum_assignments_union hdisjoint]

/-- **Random variables that are gone** without having been summed out count with the number of their
assignments. -/
theorem sum_above (h : m.SumsTo s m') (hst : s ⊆ t) (hgone : Disjoint m'.scope t) {w : World}
    (hw : w.Legal (m.scope \ t)) :
    ∑ u ∈ w.assignments t, m.meaning u = (∏ v ∈ t \ s, v.range.size : ℕ) * m'.meaning w := by
  have hlegal : ∀ u ∈ w.assignments (t \ s), u.Legal (m.scope \ s) := by
    refine fun u hu => World.legal_of_mem_assignments hu (hw.mono fun v hv => ?_)
    simp only [mem_sdiff, not_and, not_not] at hv ⊢
    exact ⟨hv.1.1, fun ht => hv.1.2 (hv.2 ht)⟩
  have hsame : ∀ u ∈ w.assignments (t \ s), m'.meaning u = m'.meaning w := by
    refine fun u hu => meaningOf_congr h.sound fun c hc v hv => ?_
    refine (World.mem_assignments.mp hu).2 v fun ht => ?_
    exact disjoint_left.mp hgone (scope_subset hc hv) (mem_sdiff.mp ht).1
  calc ∑ u ∈ w.assignments t, m.meaning u
      = ∑ u ∈ w.assignments (t \ s), ∑ x ∈ u.assignments s, m.meaning x := by
        rw [← World.sum_assignments_union sdiff_disjoint, sdiff_union_of_subset hst]
    _ = ∑ u ∈ w.assignments (t \ s), m'.meaning w :=
        sum_congr rfl fun u hu => (h.meaning u (hlegal u hu)).symm.trans (hsame u hu)
    _ = (∏ v ∈ t \ s, v.range.size : ℕ) * m'.meaning w := by
        rw [sum_const, World.card_assignments, nsmul_eq_mul]

end SumsTo

end Marginal

end LiftedElimination
