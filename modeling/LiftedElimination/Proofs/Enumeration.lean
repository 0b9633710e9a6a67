import LiftedElimination.Proofs.Expandable

/-!
# Counting against listing

The number of groundings comes from a product where the earlier neighbours of every variable are a
clique inside its domain, and from a search otherwise.  Both agree with the list of groundings,
whatever the inequalities are, in which order the variables stand, and also where a variable has
nobody left or a partial product passes the limit of costs.

* `countGroundings_exact`   the product where it is taken, and the number in every case.
-/

namespace LiftedElimination

namespace ConstraintSet

variable {cs : ConstraintSet} {vars : List LogVar}

theorem length_groundings (cs : ConstraintSet) (vars : List LogVar) :
    (cs.groundings vars).length = (Slot.completions (cs.slots vars) []).length := by
  rw [groundings, List.length_map]

/-- past the limit no number is given that the limit does not bound -/
theorem countGroundings_of_lt (hcs : cs.IsOrdered) (hnd : vars.Nodup)
    (hlt : Cost.limit < (Slot.completions (cs.slots vars) []).length) :
    cs.countGroundings vars = .infinite ∨ cs.countGroundings vars = .finite Cost.limit := by
  unfold countGroundings
  split
  · rename_i n hn
    exact .inl ((productFrom_eq hcs hnd hn).trans (Cost.sat_of_lt hlt))
  · rw [Slot.countFrom_eq_length, Nat.min_eq_right hlt.le]
    exact .inr rfl

/-- **Counting agrees with listing.**  The product over the earlier neighbours is taken only where it
is the number of groundings listed, as far as costs go; and this is the number of groundings up to
the limit of costs, past which it is the limit or infinite.  The product looks inequalities up in
their canonical form, so they have to be written in it. -/
theorem countGroundings_exact (hcs : cs.IsOrdered) (hnd : vars.Nodup) :
    (∀ n, cs.productFrom vars [] .one = some n → n = .sat (cs.groundings vars).length)
      ∧ ((cs.groundings vars).length ≤ Cost.limit →
        cs.countGroundings vars = .finite (cs.groundings vars).length)
      ∧ (Cost.limit < (cs.groundings vars).length →
        cs.countGroundings vars = .infinite ∨ cs.countGroundings vars = .finite Cost.limit) := by
  rw [length_groundings]
  exact ⟨fun n hn => productFrom_eq hcs hnd hn, countGroundings_eq_length hcs hnd,
    countGroundings_of_lt hcs hnd⟩

end ConstraintSet

namespace Epidemic

/-- an inequality with the larger variable first is not found by the product -/
example : let cs : ConstraintSet := .ofList [⟨other, .var person⟩]
    cs.countGroundings [person, other] = .finite 9
      ∧ (cs.groundings [person, other]).length = 6 := by
  decide

/-- three people who are pairwise distinct -/
def triangle : ConstraintSet :=
  .ofList [.ordered person (.var other), .ordered person (.var named),
    .ordered named (.var other)]

/-- two people who are not a third one, but may be the same -/
def fan : ConstraintSet := .ofList [.ordered named (.var person), .ordered named (.var other)]

/-- the triangle is counted by the product, the fan by the search -/
theorem countGroundings_exact_triangle :
    triangle.IsOrdered ∧ fan.IsOrdered ∧ [person, other, named].Nodup
      ∧ triangle.productFrom [person, other, named] [] .one = some (.finite 6)
      ∧ triangle.countGroundings [person, other, named] = .finite 6
      ∧ fan.productFrom [person, other, named] [] .one = none
      ∧ fan.countGroundings [person, other, named] = .finite 12 := by
  have htriangle : triangle.IsOrdered := by decide
  have hfan : fan.IsOrdered := by decide
  have hnd : [person, other, named].Nodup := by decide
  have hsix : (triangle.groundings [person, other, named]).length = 6 := by decide
  have htwelve : (fan.groundings [person, other, named]).length = 12 := by decide
  have hcount := (ConstraintSet.countGroundings_exact htriangle hnd).2.1
  have hcount' := (ConstraintSet.countGroundings_exact hfan hnd).2.1
  rw [hsix] at hcount
  rw [htwelve] at hcount'
  exact ⟨htriangle, hfan, hnd, by decide, hcount (by decide), by decide,
    hcount' (by decide)⟩

end Epidemic

end LiftedElimination
