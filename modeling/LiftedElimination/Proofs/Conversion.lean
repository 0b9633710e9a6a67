import LiftedElimination.Proofs.Checked
import LiftedElimination.Proofs.Countable
import LiftedElimination.Proofs.Guarded

/-!
# Conversion of aggregations

An aggregation parfactor that the builder has accepted, without inequalities `X ≠ X`, is converted to
parfactors exactly if the comparing table fits in 64 bits.  If there are as many parents under every
grounding as the one table reckons with, maybe none, the parfactors mean the same.

* `Index.volumeFrom?_eq`     a product of 64 bits is computed as it is;
* `Accepted.readable`        what the builder checks is what the conversion relies on;
* `exists_toParfactors_iff`  when the conversion succeeds;
* `toParfactors_meaning`   what the conversion comes to.
-/

namespace LiftedElimination

open Finset

variable {K : Type}

/-- a product of positive numbers that has 64 bits is computed as it is -/
theorem Index.volumeFrom?_eq {sizes : List Nat} {acc : Nat} (hpos : 0 < acc * sizes.prod)
    (hle : acc * sizes.prod ≤ maxWord) : volumeFrom? sizes acc = .ok (acc * sizes.prod) := by
  induction sizes generalizing acc with
  | nil =>
    rw [List.prod_nil, Nat.mul_one]
    rfl
  | cons s sizes ih =>
    rw [List.prod_cons, ← Nat.mul_assoc] at hpos hle ⊢
    have hrest : 0 < sizes.prod := Nat.pos_of_mul_pos_left hpos
    rw [volumeFrom?, if_pos ((Nat.le_mul_of_pos_right _ hrest).trans hle)]
    exact ih hpos hle

namespace Aggregation

variable {a : Aggregation K}

/-- a product that is cut off at 64 bits is zero only if the product is -/
theorem prod_pos_of_foldl_min {context : List Atom} {acc : Nat}
    (h : 0 < context.foldl (fun acc p => min (acc * p.range.size) maxWord) acc) :
    0 < acc * (context.map (·.range.size)).prod := by
  induction context generalizing acc with
  | nil => exact h.trans_eq (Nat.mul_one acc).symm
  | cons p context ih =>
    rw [List.map_cons, List.prod_cons, ← Nat.mul_assoc]
    have hrest := ih h
    have hmin : 0 < min (acc * p.range.size) maxWord := Nat.pos_of_mul_pos_right hrest
    exact Nat.mul_pos (hmin.trans_le (Nat.min_le_left _ _)) (Nat.pos_of_mul_pos_left hrest)

section
variable [Scalar K]

/-- without inequalities `X ≠ X` the parents make a formula -/
theorem Accepted.make_formula (ha : a.Accepted) (hcs : a.constraints.Irreflexive) :
    CountingFormula.make a.extra a.parent a.constraintsOnExtra = .ok a.formula :=
  CountingFormula.make_onVariable ha.formed.extra_mem fun c hc _ => hcs c hc

theorem Accepted.valid_formula (ha : a.Accepted) (hcs : a.constraints.Irreflexive) :
    a.formula.Valid :=
  CountingFormula.Accepted.valid (ha.make_formula hcs)

theorem Accepted.readable (ha : a.Accepted) (hcs : a.constraints.Irreflexive)
    (haccurate : ∀ γ ∈ a.solutions, a.formula.Accurate γ) (hpopulated : a.Populated) :
    a.Readable :=
  ⟨ha.formed.extra_mem, ha.formed.child, ha.formed.context, ha.valid_formula hcs, haccurate,
    ha.size_eq, hpopulated⟩

/-- the weighing parfactor is made, unless it is left out -/
theorem Accepted.exists_weighed (ha : a.Accepted) (hcs : a.constraints.Irreflexive)
    (hones : a.factor.isAllOnes = false) :
    ∃ p, Parfactor.make a.constraints (Prv.atom a.parent :: a.context.map Prv.atom)
      (some a.factor) = .ok p := by
  have hsize : 0 < a.factor.size := by
    refine Nat.pos_of_ne_zero fun hzero => ?_
    have hempty : a.factor.values = #[] := Array.eq_empty_of_size_eq_zero hzero
    simp [Factor.isAllOnes, hempty] at hones
  have hpos : 0 < a.sizes.prod := by
    rw [ha.formed.size] at hsize
    rw [sizes, List.prod_cons]
    exact prod_pos_of_foldl_min hsize
  have hprod := ha.size_eq hpos
  have hsizes : (Prv.atom a.parent :: a.context.map Prv.atom).map Prv.rangeSize = a.sizes := by
    rw [List.map_cons, List.map_map]
    rfl
  have hvolume : Index.volumeFrom? a.sizes 1 = .ok a.factor.size := by
    have hle : a.sizes.prod ≤ maxWord := (hprod ▸ ha.stored).trans (by decide)
    rw [hprod, Index.volumeFrom?_eq (by omega) (by omega), Nat.one_mul]
  refine ⟨_, Parfactor.make_of_made ⟨rfl, rfl, hsizes.symm ▸ hvolume, hcs, fun f hf => ?_⟩⟩
  simp at hf

/-- the comparing parfactor is made exactly if its table fits in 64 bits -/
theorem Accepted.exists_compared_iff (ha : a.Accepted) (hcs : a.constraints.Irreflexive) :
    (∃ g, Parfactor.make a.constraintsNotOnExtra [.count a.formula, .atom a.child]
        (some (⟨(indicators a.operator a.formula.histograms a.child.range.size).toArray⟩ : Factor K))
        = .ok g)
      ↔ a.formula.rangeSize * a.child.range.size ≤ maxWord := by
  have hprod : ([Prv.count a.formula, .atom a.child].map Prv.rangeSize).prod
      = a.formula.rangeSize * a.child.range.size := by
    rw [List.map_cons, List.map_singleton, List.prod_cons, List.prod_singleton]
    rfl
  constructor
  · rintro ⟨g, hg⟩
    have hvolume := (Parfactor.make_ok hg).1.size
    have hle := Index.prod_le_of_volumeFrom? hvolume (by decide)
    rwa [Index.volumeFrom?_ok hvolume, Nat.one_mul, hprod] at hle
  · intro hle
    have hrange : a.formula.rangeSize ≤ maxWord := by
      refine (CountingFormula.rangeSize_lt ?_).le
      rwa [show a.formula.inner.range = a.child.range from ha.formed.range]
    have hvolume : Index.volumeFrom? ([Prv.count a.formula, .atom a.child].map Prv.rangeSize) 1
        = .ok (a.formula.rangeSize * a.child.range.size) := by
      show Index.volumeFrom? [a.formula.rangeSize, a.child.range.size] 1 = _
      rw [Index.volumeFrom?, Nat.one_mul, if_pos hrange, Index.volumeFrom?, if_pos hle]
      rfl
    refine ⟨_, Parfactor.make_of_made ⟨rfl, rfl, ?_, fun c hc => ?_, fun f hf => ?_⟩⟩
    · rw [hvolume]
      refine congrArg Except.ok ?_
      show _ = (indicators (K := K) _ _ _).toArray.size
      rw [List.size_toArray, ha.formed.length_indicators hle]
    · exact hcs c (ConstraintSet.mem_notOnVariable.mp hc).1
    · obtain rfl : f = a.formula := by simpa using hf
      exact ha.formed.extra_notMem (ha.valid_formula hcs)

/-- **When a conversion succeeds**: exactly if the comparing table fits in 64 bits. -/
theorem exists_toParfactors_iff (ha : a.Accepted) (hcs : a.constraints.Irreflexive) :
    (∃ l, a.toParfactors = .ok l) ↔ a.formula.rangeSize * a.child.range.size ≤ maxWord := by
  rw [← ha.exists_compared_iff hcs]
  constructor
  · rintro ⟨l, hl⟩
    obtain ⟨_, f, g, -, -, hf, hg⟩ := toParfactors_ok hl
    rw [ha.make_formula hcs] at hf
    cases hf
    exact ⟨g, hg⟩
  · rintro ⟨g, hg⟩
    have hrest : ∀ weighed : List (Parfactor K), (do
        let f ← CountingFormula.make a.extra a.parent a.constraintsOnExtra
        let entries := indicators a.operator f.histograms a.child.range.size
        let aggregate ← Parfactor.make a.constraintsNotOnExtra [.count f, .atom a.child]
          (some ⟨entries.toArray⟩)
        return weighed ++ [aggregate]) = .ok (weighed ++ [g]) := by
      intro weighed
      rw [ha.make_formula hcs]
      show (Parfactor.make _ _ _ >>= _) = _
      rw [hg]
      rfl
    unfold toParfactors
    cases hones : a.factor.isAllOnes with
    | true => exact ⟨_, hrest []⟩
    | false =>
      obtain ⟨p, hp⟩ := ha.exists_weighed hcs hones
      refine ⟨[p] ++ [g], ?_⟩
      dsimp only
      rw [if_neg Bool.false_ne_true, hp]
      exact hrest [p]

end

/-- **A conversion keeps the meaning**: let the builder have accepted an aggregation parfactor
without inequalities `X ≠ X`.  It is converted to parfactors exactly if the table that compares the
child with the histograms of the parents fits in 64 bits.  If under every grounding there are as many
parents as the domain size of their formula says, and the variables that only the context mentions
have individuals, the product of the parfactors means what the aggregation parfactor means, in every
legal world. -/
theorem toParfactors_meaning [ExactScalar K] (ha : a.Accepted)
    (hcs : a.constraints.Irreflexive) :
    ((∃ l, a.toParfactors = .ok l) ↔ a.formula.rangeSize * a.child.range.size ≤ maxWord)
      ∧ ((∀ γ ∈ a.solutions, a.formula.Accurate γ) → a.Populated →
        ∀ l, a.toParfactors = .ok l → ∀ w : World, w.Legal a.scope →
          meaningOf (l.map .standard) w = a.meaning w) :=
  ⟨exists_toParfactors_iff ha hcs, fun haccurate hpopulated _ hl _ hw =>
    meaning_toParfactors (ha.readable hcs haccurate hpopulated) hl hw⟩

end Aggregation

/-! ## who gets sick -/

open scoped ExactScalar

namespace Epidemic

/-- somebody is sick if anybody else infects them, by the weight of the sick visitors -/
def exposure : Aggregation Nat :=
  ⟨.ofList [.ordered person (.var other)], infects (.var person) (.var other), sick (.var other),
    [sick (.var visitor)], ⟨#[1, 2, 1, 3]⟩, .disjunction, person⟩

end Epidemic

/-- the sources of everybody are counted in place of the aggregation -/
theorem Epidemic.toParfactors_meaning_exposure : ∃ l, exposure.toParfactors = .ok l
    ∧ ∀ w : World, w.Legal exposure.scope →
      meaningOf (l.map .standard) w = exposure.meaning w := by
  have haccepted : exposure.Accepted := ⟨rfl, by decide⟩
  have hcs : exposure.constraints.Irreflexive := by
    have hall : ∀ c ∈ exposure.constraints, c.isContradiction = false := by decide
    exact hall
  have hformula : exposure.formula = sources := rfl
  have haccurate : ∀ γ ∈ exposure.solutions, exposure.formula.Accurate γ := fun γ hγ => by
    rw [hformula]
    exact (exact_sources (other_mem hγ (by decide))).card
  have hpopulated : exposure.Populated := by
    intro b hb x hx _ _
    obtain rfl : b = sick (.var visitor) := List.mem_singleton.mp hb
    obtain rfl : x = visitor := List.mem_singleton.mp hx
    exact ⟨⟨"x1"⟩, by decide⟩
  obtain ⟨hsucceeds, hmeaning⟩ := Aggregation.toParfactors_meaning haccepted hcs
  obtain ⟨l, hl⟩ := hsucceeds.mpr (by decide)
  exact ⟨l, hl, hmeaning haccurate hpopulated l hl⟩

end LiftedElimination
