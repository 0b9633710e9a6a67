import LiftedElimination.Proofs.Separation
import LiftedElimination.Proofs.Instance

/-!
# What a component depends on

Everything in the scope of a component is an instance of the extent of one of its occurrences.  So a
component whose extents are all disjoint from that of a set does not depend on the set.

* `exists_instance`    an instance for everything that is owned;
* `meaning_congr`      the meaning depends on the scope only;
* `disjoint_of_compare`   extents that compare as disjoint have no common instance.
-/

namespace LiftedElimination

open Finset

variable {K : Type}

/-! ## parfactors -/

namespace Parfactor

theorem owned_nonempty {q : Prv} {γ : Valuation} (h : q.Exact γ) : (q.owned γ).Nonempty := by
  cases q with
  | atom a => exact singleton_nonempty _
  | count f =>
    have hpos : 0 < (f.counted γ).card := CountingFormula.Exact.card h ▸ CountingFormula.Exact.pos h
    exact (card_pos.mp hpos).image _

/-- everything that an occurrence owns is an instance of its extent -/
theorem exists_instance {p : Parfactor K} {q : Prv} {γ : Valuation} {v : RandomVariable}
    (hp : p.Proper) (hq : q ∈ p.prvs) (hγ : γ ∈ p.solutions) (hv : v ∈ q.owned γ) :
    ∃ ε : Valuation, ε.Solves (Extent.of q p.constraints).constraints
        (Extent.of q p.constraints).atom.variables
      ∧ q.base.groundVar ε = v ∧ ∀ x ∈ p.logVars, ε x = γ x := by
  have hfree : ∀ x ∈ q.freeVars, x ∈ p.logVars := fun x hx => mem_logVars.mpr (.inl ⟨q, hq, hx⟩)
  have hmem := (ConstraintSet.solves_of_mem hγ).mem
  have hholds := (mem_solutions.mp hγ).1.2
  cases q with
  | atom a =>
    refine ⟨γ, ⟨fun x hx => hmem x (hfree x hx), fun c hc _ => ?_⟩, (mem_singleton.mp hv).symm,
      fun _ _ => rfl⟩
    exact hholds c (ConstraintSet.mem_restrictTo.mp hc).1
  | count f =>
    obtain ⟨d, hd, rfl⟩ := mem_image.mp hv
    obtain ⟨hdpop, hdholds⟩ := CountingFormula.mem_counted.mp hd
    have hne : ∀ x ∈ p.logVars, Function.update γ f.bound d x = γ x := fun x hx =>
      Function.update_of_ne (fun h : x = f.bound => hp.bound f hq (h ▸ hx)) _ _
    refine ⟨Function.update γ f.bound d, ⟨fun x hx => ?_, fun c hc _ => ?_⟩, rfl, hne⟩
    · by_cases hxb : x = f.bound
      · rw [hxb, Function.update_self]
        exact hdpop
      · have hxv := hfree x (CountingFormula.mem_freeVars.mpr (.inl ⟨hx, hxb⟩))
        rw [hne x hxv]
        exact hmem x hxv
    · rcases SortedSet.mem_union.mp (ConstraintSet.mem_restrictTo.mp hc).1 with hc | hc
      · refine (Constraint.holds_congr fun x hx => ?_).mpr (hholds c hc)
        exact hne x (mem_logVars.mpr (.inr (ConstraintSet.mem_variables.mpr ⟨c, hc, hx⟩)))
      · exact hdholds c hc

end Parfactor

/-! ## aggregation parfactors -/

namespace Aggregation

variable {a : Aggregation K} {γ : Valuation} {v : RandomVariable} {w w' : World}

/-- a variable of an atom is a logical variable or the extra one -/
theorem mem_logVars_or {b : Atom} (hb : b ∈ a.atoms) {x : LogVar} (hx : x ∈ b.variables) :
    x ∈ a.logVars ∨ x = a.extra := by
  by_cases hxe : x = a.extra
  · exact .inr hxe
  · exact .inl (mem_logVars.mpr ⟨.inl ⟨b, hb, hx⟩, hxe⟩)

/-- a grounding with an individual for the extra variable that the constraints allow -/
theorem solves_update (hγ : γ ∈ a.solutions) {c : Constant} (hc : c ∈ a.formula.counted γ) {b : Atom}
    (hb : b ∈ a.atoms) : Valuation.Solves (Function.update γ a.extra c)
      (Extent.of (.atom b) a.constraints).constraints b.variables := by
  obtain ⟨hcpop, hcholds⟩ := CountingFormula.mem_counted.mp hc
  have hsolves := ConstraintSet.solves_of_mem hγ
  have hne : ∀ x ∈ a.logVars, Function.update γ a.extra c x = γ x := fun x hx =>
    Function.update_of_ne (fun h : x = a.extra => a.extra_notMem_logVars (h ▸ hx)) _ _
  refine ⟨fun x hx => ?_, fun k hk _ => ?_⟩
  · rcases mem_logVars_or hb hx with hx | rfl
    · rw [hne x hx]
      exact hsolves.mem x hx
    · rw [Function.update_self]
      exact hcpop
  · have hk := (ConstraintSet.mem_restrictTo.mp hk).1
    by_cases hextra : a.extra ∈ k.variables
    · exact hcholds k (ConstraintSet.mem_onVariable.mpr ⟨hk, hextra⟩)
    · have hvars : ∀ x ∈ k.variables, x ∈ a.logVars := fun x hx => mem_logVars.mpr
        ⟨.inr (ConstraintSet.mem_variables.mpr ⟨k, hk, hx⟩), fun h => hextra (h ▸ hx)⟩
      exact (Constraint.holds_congr fun x hx => hne x (hvars x hx)).mpr (hsolves.holds k hk hvars)

theorem groundVar_update {b : Atom} (hb : a.extra ∉ b.variables) (c : Constant) :
    b.groundVar (Function.update γ a.extra c) = b.groundVar γ :=
  Atom.groundVar_congr fun _ hx => Function.update_of_ne (fun h : _ = a.extra => hb (h ▸ hx)) _ _

/-- everything that an aggregation parfactor owns is an instance of the extent of an atom -/
theorem exists_instance (ha : a.Sound) (hγ : γ ∈ a.solutions) (hv : v ∈ a.owned γ) :
    ∃ b ∈ a.atoms, ∃ ε : Valuation,
      ε.Solves (Extent.of (.atom b) a.constraints).constraints b.variables ∧ b.groundVar ε = v := by
  have hexact := ha.exact γ hγ
  obtain ⟨d, hd⟩ := card_pos.mp (hexact.card ▸ hexact.pos)
  rcases mem_union.mp hv with hv | hv
  · obtain ⟨c, hc, rfl⟩ := mem_image.mp hv
    exact ⟨a.parent, a.parent_mem_atoms, _, solves_update hγ hc a.parent_mem_atoms, rfl⟩
  · rcases mem_insert.mp hv with rfl | hv
    · refine ⟨a.child, a.child_mem_atoms, Function.update γ a.extra d,
        solves_update hγ hd a.child_mem_atoms, ?_⟩
      exact groundVar_update (fun h => (ha.child _ h).2 rfl) d
    · obtain ⟨b, hb, rfl⟩ := mem_image.mp hv
      have hb := List.mem_toFinset.mp hb
      exact ⟨b, context_mem_atoms hb, _, solves_update hγ hd (context_mem_atoms hb),
        groundVar_update (ha.context b hb) d⟩

/-- **The meaning depends on the scope only.** -/
theorem meaning_congr [ExactScalar K] (ha : a.Sound) (h : ∀ v ∈ a.scope, w v = w' v) :
    a.meaning w = a.meaning w' := by
  refine prod_congr rfl fun γ hγ => ?_
  have howned : ∀ v ∈ a.owned γ, w v = w' v := fun v hv => h v (mem_biUnion.mpr ⟨γ, hγ, hv⟩)
  have hmember : ∀ c ∈ a.formula.counted γ, w (a.formula.member γ c) = w' (a.formula.member γ c) :=
    fun c hc => howned _ (mem_union_left _ (mem_image_of_mem _ hc))
  have hchild : w (a.child.groundVar γ) = w' (a.child.groundVar γ) :=
    howned _ (mem_union_right _ (mem_insert_self _ _))
  have hweight : ∀ c ∈ a.formula.counted γ, a.weight (Function.update γ a.extra c) w
      = a.weight (Function.update γ a.extra c) w' := by
    intro c hc
    have hcontext : ∀ b ∈ a.context, w (b.groundVar (Function.update γ a.extra c))
        = w' (b.groundVar (Function.update γ a.extra c)) := by
      intro b hb
      rw [groundVar_update (ha.context b hb)]
      exact howned _ (mem_union_right _ (mem_insert_of_mem
        (mem_image_of_mem _ (List.mem_toFinset.mpr hb))))
    have hparent : w (a.parent.groundVar (Function.update γ a.extra c))
        = w' (a.parent.groundVar (Function.update γ a.extra c)) := hmember c hc
    rw [weight, weight, hparent, List.map_congr_left hcontext]
  have haggregate : a.aggregate γ w = a.aggregate γ w' := by
    unfold aggregate Operator.combine
    split
    · exact sup_congr rfl hmember
    · exact fold_congr hmember
  rw [value, value, prod_congr rfl hweight, hchild, haggregate]

end Aggregation

/-! ## components -/

namespace Component

variable {c : Component K} {v : RandomVariable}

/-- everything in the scope is an instance of the extent of an occurrence -/
theorem exists_instance (hc : c.Sound) (hv : v ∈ c.scope) :
    ∃ q ∈ c.prvs, v.atom ∈ (Extent.of q c.constraints).instances := by
  cases c with
  | standard p =>
    obtain ⟨γ, hγ, hv⟩ := Parfactor.mem_scope.mp hv
    obtain ⟨q, hq, hv⟩ := Parfactor.mem_owned.mp hv
    obtain ⟨ε, hε, rfl, -⟩ := Parfactor.exists_instance (Parfactor.Sound.proper hc) hq hγ hv
    refine ⟨q, hq, ε, hε, ?_⟩
    rw [Extent.of_atom]
    rfl
  | aggregation a =>
    obtain ⟨γ, hγ, hv⟩ := mem_biUnion.mp hv
    obtain ⟨b, hb, ε, hε, rfl⟩ := Aggregation.exists_instance hc hγ hv
    exact ⟨.atom b, List.mem_map_of_mem hb, ε, hε, rfl⟩

theorem meaning_congr [ExactScalar K] (hc : c.Sound) {w w' : World}
    (h : ∀ v ∈ c.scope, w v = w' v) : c.meaning w = c.meaning w' := by
  cases c with
  | standard p => exact p.meaning_congr h
  | aggregation a => exact Aggregation.meaning_congr hc h

end Component

/-- extents that compare as disjoint have no common instance -/
theorem Extent.disjoint_of_compare {sig : Signature} {q r : Prv} {cs ds : ConstraintSet}
    (hq : q.base.IsOver sig) (hr : r.base.IsOver sig)
    (h : (Extent.of q cs).compare (.of r ds) = .disjoint) :
    Disjoint (Extent.of q cs).instances (Extent.of r ds).instances :=
  disjoint_of_overlap? (by rwa [of_atom]) (by rwa [of_atom]) (isClosed_of q cs) (isClosed_of r ds)
    (compare_eq_disjoint h)

end LiftedElimination
