import LiftedElimination.Proofs.Counted
import LiftedElimination.Proofs.Saturation

/-!
# Numbers of groundings

The number of groundings is a product where each variable meets its earlier neighbours as a clique
inside its own domain: whatever they have been given, they take as many individuals away as they
are.  Otherwise the search counts.  Both are exact up to the limit of costs.

* `Consistent`          choices that respect the constraints among themselves;
* `length_choices`      how many individuals are open to a variable behind a clique;
* `productFrom_ok`      the product is the number of completions;
* `countGroundings_eq_length`, `countGroundings_eq`   the number of groundings is how many the search
                        lists, and that of the solutions.
-/

namespace LiftedElimination

open Finset

/-- what is left of a list without the elements of another one inside of it -/
theorem length_filter_notMem {α : Type} [DecidableEq α] {l m : List α} (hl : l.Nodup)
    (hm : m.Nodup) (h : ∀ a ∈ m, a ∈ l) : (l.filter (· ∉ m)).length = l.length - m.length := by
  rw [← List.toFinset_card_of_nodup (hl.filter _), ← List.toFinset_card_of_nodup hl,
    ← List.toFinset_card_of_nodup hm, ← card_sdiff_of_subset fun a ha => ?_]
  · congr 1
    ext a
    simp
  · exact List.mem_toFinset.mpr (h a (List.mem_toFinset.mp ha))

/-- the canonical way to write an inequality is written so already -/
theorem Constraint.ordered_ordered (x : LogVar) (t : Term) :
    ordered (ordered x t).first (ordered x t).second = ordered x t := by
  cases t with
  | const c => rfl
  | var y =>
    rw [ordered_var]
    split
    · exact ordered_comm y x ▸ ordered_var x y ▸ if_pos ‹_›
    · rename_i hlt
      exact (ordered_var x y).trans (if_neg hlt)

theorem Constraint.ordered_of_between {t u : Term} {c : Constraint} (h : between t u = some c) :
    ordered c.first c.second = c := by
  cases t with
  | var x =>
    cases h
    exact ordered_ordered x u
  | const d =>
    cases u with
    | var x =>
      cases h
      exact ordered_ordered x _
    | const e => cases h

namespace ConstraintSet

variable {cs : ConstraintSet} {vars : List LogVar} {chosen : Choices} {x : LogVar}

/-- inequalities of variables are written with the smaller variable first -/
def IsOrdered (cs : ConstraintSet) : Prop := ∀ c ∈ cs, Constraint.ordered c.first c.second = c

instance (cs : ConstraintSet) : Decidable cs.IsOrdered :=
  inferInstanceAs (Decidable (∀ c ∈ cs, Constraint.ordered c.first c.second = c))

/-- substitution writes the constraints in the canonical way -/
theorem isOrdered_of_apply {ds : ConstraintSet} {s : Substitution} (h : cs.apply s = some ds) :
    ds.IsOrdered := by
  intro k hk
  obtain ⟨c, -, hck⟩ := (mem_of_apply h).mp hk
  rw [Constraint.apply] at hck
  exact Constraint.ordered_of_between hck

/-- the rivals of a variable are those that it is separated from -/
theorem exists_otherVar?_iff (hcs : cs.IsOrdered) {y : LogVar} (hne : y ≠ x) :
    (∃ c ∈ cs, c.otherVar? x = some y) ↔ cs.separates x (.var y) = true := by
  rw [separates_iff]
  constructor
  · rintro ⟨c, hc, hy⟩
    have hordered := hcs c hc
    rcases Constraint.otherVar?_eq_some.mp hy with ⟨hfirst, hsecond⟩ | ⟨-, hfirst, hsecond⟩
    · rwa [← hordered, hfirst, hsecond] at hc
    · rwa [← hordered, hfirst, hsecond, Constraint.ordered_comm] at hc
  · intro h
    refine ⟨_, h, ?_⟩
    rw [Constraint.otherVar?_eq, Constraint.other?_ordered fun h => hne (Term.var.inj h)]
    rfl

/-- choices that respect the constraints among themselves; `X ≠ X` is ignored -/
structure Consistent (cs : ConstraintSet) (chosen : Choices) : Prop where
  nodup : (chosen.map Prod.fst).Nodup
  domain : ∀ y ∈ chosen.map Prod.fst, chosen.valuation y ∈ y.domain cs
  apart : ∀ y ∈ chosen.map Prod.fst, ∀ z ∈ chosen.map Prod.fst, y ≠ z →
    cs.separates y (.var z) = true → chosen.valuation y ≠ chosen.valuation z

/-- the individuals taken by the earlier neighbours -/
theorem mem_taken_iff (hcs : cs.IsOrdered) (hx : x ∉ chosen.map Prod.fst) {a : Constant} :
    a ∈ (cs.slot x).taken chosen ↔ a ∈ ((chosen.map Prod.fst).filter
      fun y => cs.separates x (.var y)).map chosen.valuation := by
  simp only [slot, Slot.taken, List.mem_filterMap, List.mem_map, List.mem_filter]
  constructor
  · rintro ⟨y, ⟨c, hc, hy⟩, ha⟩
    have hmem := Choices.get?_eq_some_iff.mp ⟨a, ha⟩
    have hne : y ≠ x := fun h => hx (h ▸ hmem)
    refine ⟨y, ⟨List.mem_map.mp hmem, (exists_otherVar?_iff hcs hne).mp ⟨c, hc, hy⟩⟩, ?_⟩
    rw [Choices.get?_eq hmem] at ha
    exact Option.some.inj ha
  · rintro ⟨y, ⟨hmem, hsep⟩, rfl⟩
    have hmem : y ∈ chosen.map Prod.fst := List.mem_map.mpr hmem
    have hne : y ≠ x := fun h => hx (h ▸ hmem)
    exact ⟨y, (exists_otherVar?_iff hcs hne).mpr hsep, Choices.get?_eq hmem⟩

/-- **Behind a clique** a variable has as many individuals less as it has neighbours. -/
theorem length_choices (hcs : cs.IsOrdered) (hc : cs.Consistent chosen)
    (hx : x ∉ chosen.map Prod.fst)
    (hclique : cs.isClique x ((chosen.map Prod.fst).filter fun y => cs.separates x (.var y)) = true) :
    ((cs.slot x).choices chosen).length = (x.domain cs).size
      - ((chosen.map Prod.fst).filter fun y => cs.separates x (.var y)).length := by
  rw [isClique, Bool.and_eq_true, List.all_eq_true, decide_eq_true_eq] at hclique
  obtain ⟨hwithin, hpairs⟩ := hclique
  have hmem : ∀ y ∈ (chosen.map Prod.fst).filter fun y => cs.separates x (.var y),
      y ∈ chosen.map Prod.fst := fun y hy => (List.mem_filter.mp hy).1
  have hnodup : (((chosen.map Prod.fst).filter fun y => cs.separates x (.var y)).map
      chosen.valuation).Nodup := by
    refine List.pairwise_map.mpr ((hpairs.and (hc.nodup.filter _)).imp_of_mem ?_)
    rintro y z hy hz ⟨hsep, hne⟩
    exact hc.apart y (hmem y hy) z (hmem z hz) hne hsep
  have hfilter : (cs.slot x).choices chosen = (x.domain cs).individuals.filter
      (· ∉ ((chosen.map Prod.fst).filter fun y => cs.separates x (.var y)).map
        chosen.valuation) := by
    rw [Slot.choices_eq]
    refine List.filter_congr fun a _ => ?_
    rw [decide_eq_decide, mem_taken_iff hcs hx]
  rw [hfilter, length_filter_notMem (Population.nodup_domain x cs) hnodup fun a ha => ?_,
    List.length_map]
  · rfl
  · obtain ⟨y, hy, rfl⟩ := List.mem_map.mp ha
    exact Population.isWithin_iff.mp (hwithin y hy) _ (hc.domain y (hmem y hy))

/-- an open individual keeps the choices consistent -/
theorem Consistent.append (hcs : cs.IsOrdered) (hc : cs.Consistent chosen)
    (hx : x ∉ chosen.map Prod.fst) {a : Constant} (ha : a ∈ (cs.slot x).choices chosen) :
    cs.Consistent (chosen ++ [(x, a)]) := by
  rw [Slot.choices_eq, List.mem_filter, decide_eq_true_eq, mem_taken_iff hcs hx] at ha
  obtain ⟨hdomain, htaken⟩ := ha
  have hkeys : (chosen ++ [(x, a)]).map Prod.fst = chosen.map Prod.fst ++ [x] := by simp
  have hself : Choices.valuation (chosen ++ [(x, a)]) x = a := by
    rw [Choices.valuation_append hx, Function.update_self]
  have hother : ∀ y ∈ chosen.map Prod.fst,
      Choices.valuation (chosen ++ [(x, a)]) y = chosen.valuation y := by
    intro y hy
    have hne : y ≠ x := fun h => hx (h ▸ hy)
    rw [Choices.valuation_append hx, Function.update_of_ne hne]
  have hapart : ∀ y ∈ chosen.map Prod.fst, cs.separates x (.var y) = true →
      a ≠ chosen.valuation y := by
    rintro y hy hsep rfl
    exact htaken (List.mem_map.mpr ⟨y, List.mem_filter.mpr ⟨hy, hsep⟩, rfl⟩)
  refine ⟨?_, fun y hy => ?_, fun y hy z hz hne hsep => ?_⟩
  · rw [hkeys]
    exact List.nodup_append.mpr ⟨hc.nodup, List.nodup_singleton x, fun y hy z hz h =>
      hx (List.mem_singleton.mp hz ▸ h ▸ hy)⟩
  · rw [hkeys, List.mem_append, List.mem_singleton] at hy
    rcases hy with hy | rfl
    · rw [hother y hy]
      exact hc.domain y hy
    · rw [hself]
      exact hdomain
  · rw [hkeys, List.mem_append, List.mem_singleton] at hy hz
    rcases hy with hy | rfl <;> rcases hz with hz | rfl
    · rw [hother y hy, hother z hz]
      exact hc.apart y hy z hz hne hsep
    · rw [hother y hy, hself]
      rw [separates_iff, Constraint.ordered_comm, ← separates_iff] at hsep
      exact (hapart y hy hsep).symm
    · rw [hself, hother z hz]
      exact hapart z hz hsep
    · exact absurd rfl hne

/-- **The product of the cliques** is the number of completions, whatever has been chosen. -/
theorem productFrom_ok (hcs : cs.IsOrdered) {earlier : List LogVar} {acc n : Cost}
    (hnd : (earlier ++ vars).Nodup) (h : cs.productFrom vars earlier acc = some n) :
    ∃ N, (∀ m, acc = .sat m → n = .sat (m * N))
      ∧ ∀ chosen : Choices, chosen.map Prod.fst = earlier → cs.Consistent chosen →
        (Slot.completions (cs.slots vars) chosen).length = N := by
  induction vars generalizing earlier acc with
  | nil =>
    cases h
    exact ⟨1, fun m hm => by rw [hm, Nat.mul_one], fun _ _ _ => rfl⟩
  | cons x xs ih =>
    rw [productFrom] at h
    split at h
    · rename_i hclique
      rw [List.append_cons] at hnd
      obtain ⟨N, hsat, hlen⟩ := ih hnd h
      have hx : x ∉ earlier := fun hmem =>
        (List.nodup_append.mp (List.nodup_append.mp hnd).1).2.2 x hmem x
          (List.mem_singleton.mpr rfl) rfl
      refine ⟨((x.domain cs).size - (earlier.filter fun y => cs.separates x (.var y)).length) * N,
        fun m hm => ?_, fun chosen hkeys hc => ?_⟩
      · rw [hsat (m * ((x.domain cs).size
          - (earlier.filter fun y => cs.separates x (.var y)).length)) (by rw [hm, Cost.sat_mul]),
          Nat.mul_assoc]
      · subst hkeys
        have hchoices := length_choices hcs hc hx hclique
        show (((cs.slot x).choices chosen).flatMap _).length = _
        rw [List.length_flatMap, ← hchoices, List.map_congr_left fun a ha => ?_,
          List.map_const', List.sum_replicate_nat]
        have hkeys : (chosen ++ [(x, a)]).map Prod.fst = chosen.map Prod.fst ++ [x] := by simp
        exact hlen _ hkeys (hc.append hcs hx ha)
    · cases h

/-- where the product counts, it counts what the search lists -/
theorem productFrom_eq (hcs : cs.IsOrdered) (hnd : vars.Nodup) {n : Cost}
    (h : cs.productFrom vars [] .one = some n) :
    n = .sat (Slot.completions (cs.slots vars) []).length := by
  obtain ⟨N, hsat, hlen⟩ := productFrom_ok hcs (by simpa using hnd) h
  have hempty : cs.Consistent [] := ⟨List.nodup_nil, fun y hy => absurd hy List.not_mem_nil,
    fun y hy => absurd hy List.not_mem_nil⟩
  rw [hsat 1 rfl, Nat.one_mul, hlen [] rfl hempty]

/-- **The number of groundings** is how many the search lists, as far as costs go. -/
theorem countGroundings_eq_length (hcs : cs.IsOrdered) (hnd : vars.Nodup)
    (hle : (Slot.completions (cs.slots vars) []).length ≤ Cost.limit) :
    cs.countGroundings vars = .finite (Slot.completions (cs.slots vars) []).length := by
  unfold countGroundings
  split
  · rename_i n hn
    rw [productFrom_eq hcs hnd hn, Cost.sat_of_le hle]
  · rw [Slot.countFrom_eq_length, Nat.min_eq_left hle]

/-- the search lists every solution once, unless it ignores an `X ≠ X` between its variables -/
theorem card_solutions
    (hcon : ∀ c ∈ cs, (∀ x ∈ c.variables, x ∈ vars) → c.isContradiction = false)
    (hnd : vars.Nodup) :
    (cs.solutions vars).card = (Slot.completions (cs.slots vars) []).length := by
  rw [length_completions cs [] hnd fun y hy => absurd hy List.not_mem_nil]
  congr 1
  ext γ
  exact solves_iff_extension hcon

theorem length_completions_eq (hcon : ∀ c ∈ cs, c.isContradiction = false) (hnd : vars.Nodup) :
    (Slot.completions (cs.slots vars) []).length = (cs.solutions vars).card :=
  (card_solutions (fun c hc _ => hcon c hc) hnd).symm

theorem countGroundings_eq (hcs : cs.IsOrdered) (hcon : ∀ c ∈ cs, c.isContradiction = false)
    (hnd : vars.Nodup) (hle : (cs.solutions vars).card ≤ Cost.limit) :
    cs.countGroundings vars = .finite (cs.solutions vars).card := by
  have hcard := length_completions_eq hcon hnd
  rw [countGroundings_eq_length hcs hnd (hcard ▸ hle), hcard]

end ConstraintSet

end LiftedElimination
