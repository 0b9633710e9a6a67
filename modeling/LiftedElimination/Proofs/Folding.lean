import LiftedElimination.Proofs.Convert
import LiftedElimination.Proofs.Expand

/-!
# Folding of copies

A component that is put beside its copy is replaced by the square of both.  The copy is found by
the order of components, which compares everything, so that the product of the list is what it was.

* `Component.meaning_squared`   a squared component means the product of two copies;
* `Component.eq_of_same`        components that are the same in the order are equal;
* `meaningOf_pushFolded`, `meaningOf_ofList`   the product of a list and of a distribution.
-/

namespace LiftedElimination

open Finset

variable {K : Type} [ExactScalar K]

/-! ## squares -/

theorem Parfactor.meaning_squared (p : Parfactor K) (w : World) :
    p.squared.meaning w = p.meaning w * p.meaning w := by
  have hvalue : ∀ γ, p.squared.value γ w = p.value γ w * p.value γ w := fun γ =>
    p.factor.lookup_map (fun x => x * x) (mul_zero 0) p.sizes (p.digits γ w)
  rw [meaning, meaning, ← prod_mul_distrib]
  exact prod_congr rfl fun γ _ => hvalue γ

theorem Aggregation.meaning_squared (a : Aggregation K) (w : World) :
    a.squared.meaning w = a.meaning w * a.meaning w := by
  have hweight : ∀ γ, a.squared.weight γ w = a.weight γ w * a.weight γ w := fun γ =>
    a.factor.lookup_map (fun x => x * x) (mul_zero 0) a.sizes _
  rw [meaning, meaning, ← prod_mul_distrib]
  refine prod_congr rfl fun γ _ => ?_
  -- the aggregate holds or not, once as well as twice
  have hidem : ∀ q : Prop, [Decidable q] →
      (if q then (1 : K) else 0) = (if q then 1 else 0) * if q then 1 else 0 := by
    intro q _
    split
    · rw [mul_one]
    · rw [mul_zero]
  show (∏ c ∈ a.formula.counted γ, a.squared.weight (Function.update γ a.extra c) w)
    * (if w (a.child.groundVar γ) = a.aggregate γ w then 1 else 0) = _
  rw [prod_congr rfl fun c _ => hweight (Function.update γ a.extra c), prod_mul_distrib, value]
  nth_rewrite 1 [hidem]
  exact mul_mul_mul_comm _ _ _ _

namespace Component

theorem meaning_squared (c : Component K) (w : World) :
    c.squared.meaning w = c.meaning w * c.meaning w := by
  cases c with
  | standard p => exact p.meaning_squared w
  | aggregation a => exact a.meaning_squared w

theorem Sound.squared {c : Component K} (hc : c.Sound) : c.squared.Sound := by
  cases c with
  | standard p =>
    have hp : p.Sound := hc
    exact ⟨hp.valid, hp.satisfiable, hp.bound, hp.exact, hp.tabular⟩
  | aggregation a =>
    have ha : a.Sound := hc
    have hsize : a.squared.factor.size = a.factor.size := Factor.size_map _ _
    exact ⟨ha.extra_mem, ha.child, ha.context, ha.range, ha.exact, hsize ▸ ha.size,
      hsize ▸ ha.small⟩

theorem scope_squared (c : Component K) : c.squared.scope = c.scope := by
  cases c <;> rfl

end Component

/-! ## the order of components -/

instance lawfulEqOrd_entries : Std.LawfulEqOrd K where
  compare_self := Std.ReflCmp.compare_self
  eq_of_compare h := ExactScalar.eq_of_compare _ _ h

theorem Factor.eq_of_compare {t u : Factor K} (h : compare t u = .eq) : t = u := by
  cases t
  cases u
  exact congrArg Factor.mk (Std.LawfulEqOrd.eq_of_compare (α := Array K) h)

theorem Parfactor.eq_of_compare {p q : Parfactor K} (h : compare p q = .eq) : p = q := by
  obtain ⟨hcs, h⟩ := compareLex_eq_eq.mp h
  obtain ⟨hprvs, hfactor⟩ := compareLex_eq_eq.mp h
  cases p
  cases q
  obtain rfl := Std.LawfulEqOrd.eq_of_compare (α := ConstraintSet) hcs
  obtain rfl := Std.LawfulEqOrd.eq_of_compare (α := List Prv) hprvs
  obtain rfl := Factor.eq_of_compare hfactor
  rfl

theorem Aggregation.eq_of_compare {a b : Aggregation K} (h : compare a b = .eq) : a = b := by
  obtain ⟨hcs, h⟩ := compareLex_eq_eq.mp h
  obtain ⟨hparent, h⟩ := compareLex_eq_eq.mp h
  obtain ⟨hchild, h⟩ := compareLex_eq_eq.mp h
  obtain ⟨hcontext, h⟩ := compareLex_eq_eq.mp h
  obtain ⟨hfactor, h⟩ := compareLex_eq_eq.mp h
  obtain ⟨hoperator, hextra⟩ := compareLex_eq_eq.mp h
  cases a
  cases b
  obtain rfl := Std.LawfulEqOrd.eq_of_compare (α := ConstraintSet) hcs
  obtain rfl := Std.LawfulEqOrd.eq_of_compare (α := Atom) hparent
  obtain rfl := Std.LawfulEqOrd.eq_of_compare (α := Atom) hchild
  obtain rfl := Std.LawfulEqOrd.eq_of_compare (α := List Atom) hcontext
  obtain rfl := Factor.eq_of_compare hfactor
  obtain rfl := Std.LawfulEqOrd.eq_of_compare (α := Operator) hoperator
  obtain rfl := Std.LawfulEqOrd.eq_of_compare (α := LogVar) hextra
  rfl

theorem Component.eq_of_compare {c d : Component K} (h : compare c d = .eq) : c = d := by
  cases c with
  | standard p =>
    cases d with
    | standard q => exact congrArg standard (Parfactor.eq_of_compare h)
    | aggregation b => cases h
  | aggregation a =>
    cases d with
    | standard q => cases h
    | aggregation b => exact congrArg aggregation (Aggregation.eq_of_compare h)

theorem Component.eq_of_same {c d : Component K} (h : c.same d = true) : c = d :=
  eq_of_compare (eq_of_beq h)

instance : Std.LawfulEqOrd (Component K) where
  compare_self := Std.ReflCmp.compare_self
  eq_of_compare := Component.eq_of_compare

/-! ## products -/

theorem meaningOf_eraseIdx {l : List (Component K)} {i : Nat} {c : Component K}
    (h : l[i]? = some c) (w : World) :
    meaningOf (l.eraseIdx i) w * c.meaning w = meaningOf l w := by
  obtain ⟨hlt, rfl⟩ := List.getElem?_eq_some_iff.mp h
  have hperm := (List.getElem_cons_eraseIdx_perm hlt).map (·.meaning w)
  rw [meaningOf, meaningOf, ← hperm.prod_eq, List.map_cons, List.prod_cons, mul_comm]

/-- **Folding keeps the product.** -/
theorem meaningOf_pushFolded (l : List (Component K)) (c : Component K) (w : World) :
    meaningOf (Distribution.pushFolded l c) w = meaningOf l w * c.meaning w := by
  refine pushFolded_induct (P := fun l c m => meaningOf m w = meaningOf l w * c.meaning w)
    (fun l c _ => ?_) (fun l c i d hd hsame ih => ?_) l c
  · rw [meaningOf_append, meaningOf_cons, meaningOf_nil, mul_one]
  · obtain rfl := Component.eq_of_same hsame
    rw [ih, c.meaning_squared, ← mul_assoc, meaningOf_eraseIdx hd]

theorem meaningOf_foldl_pushFolded (l m : List (Component K)) (w : World) :
    meaningOf (l.foldl Distribution.pushFolded m) w = meaningOf m w * meaningOf l w := by
  induction l generalizing m with
  | nil => exact (mul_one _).symm
  | cons c l ih => rw [List.foldl_cons, ih, meaningOf_pushFolded, meaningOf_cons, mul_assoc]

namespace Distribution

theorem meaningOf_insertList {c : Component K} {l : List (Component K)} (h : c ∉ l) (w : World) :
    meaningOf (SortedSet.insertList c l) w = c.meaning w * meaningOf l w := by
  have hperm := (SortedSet.perm_insertList h).map (·.meaning w)
  rw [meaningOf, hperm.prod_eq, List.map_cons, List.prod_cons]
  rfl

theorem meaningOf_erase {s : SortedSet (Component K)} {c : Component K} (h : c ∈ s) (w : World) :
    meaningOf (s.erase c).toList w * c.meaning w = meaningOf s.toList w := by
  classical
  have hfilter : (s.erase c).toList = s.toList.erase c := by
    rw [(SortedSet.nodup_toList s).erase_eq_filter c]
    refine List.filter_congr fun b _ => ?_
    rw [Bool.eq_iff_iff, bne_iff_ne, bne_iff_ne, Ne, Std.compare_eq_iff_eq, eq_comm]
  have hperm := (List.perm_cons_erase h).map (·.meaning w)
  rw [hfilter, meaningOf, meaningOf, hperm.prod_eq, List.map_cons, List.prod_cons, mul_comm]

theorem meaningOf_absorb (s : SortedSet (Component K)) (c : Component K) (w : World) :
    meaningOf (absorb s c).toList w = meaningOf s.toList w * c.meaning w := by
  induction s, c using absorb.induct with
  | case1 s c h _ ih =>
    rw [absorb, dif_pos h, ih, c.meaning_squared, ← mul_assoc,
      meaningOf_erase (SortedSet.contains_iff_mem.mp h)]
  | case2 s c h =>
    have hnot : c ∉ s.toList := fun hc => h (SortedSet.contains_iff_mem.mpr hc)
    rw [absorb, dif_neg h, mul_comm]
    exact meaningOf_insertList hnot w

theorem meaningOf_addAll (l : List (Component K)) (d : Distribution K) (w : World) :
    meaningOf (d.addAll l).toList w = meaningOf d.toList w * meaningOf l w := by
  induction l generalizing d with
  | nil => exact (mul_one _).symm
  | cons c l ih =>
    show meaningOf ((d.add c).addAll l).toList w = _
    rw [ih, meaningOf_cons, ← mul_assoc]
    congr 1
    exact meaningOf_absorb d.components c w

/-- **A distribution** means the product of what is put into it. -/
theorem meaningOf_ofList (l : List (Component K)) (w : World) :
    meaningOf (ofList l).toList w = meaningOf l w := by
  rw [ofList, meaningOf_addAll]
  exact one_mul _

end Distribution

end LiftedElimination
