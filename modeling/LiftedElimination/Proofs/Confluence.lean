import Mathlib.Logic.Relation
import Mathlib.Data.Multiset.AddSub
import LiftedElimination.Proofs.Folding
import LiftedElimination.Proofs.Idempotence

/-!
# The order of folding

Putting components together replaces two copies by their square until no copy is left.  The square
may be a copy of a third component, so one component more can set off a cascade.  Read as rewriting
of the multiset of components, up to sameness, two different replacements never disturb each other:
either they are the same one, or each can still be made after the other.  So there is one normal
form, and the order in which the components come does not matter.

* `SquaresAgree`      entries that compare equal have squares that compare equal;
* `Component.Kind`   a component, the tables taken up to comparison; `kinds` is the multiset of
                      the kinds of a list;
* `Folds`             one replacement of two copies by their square;
* `Folds.diamond`     two replacements are the same or can be made one after the other;
* `Folds.unique`      a multiset folds into one multiset without copies only;
* `Distribution.folds_addAll`, `folds_foldl_pushFolded`   both ways of building fold the list;
* `Distribution.building_canonical`   what is built from a list does not depend on its order.
-/

namespace LiftedElimination

open Relation

variable {K : Type} [Scalar K]

/-! ## sameness -/

/-- entries that compare equal have squares that compare equal -/
def SquaresAgree (K : Type) [Scalar K] : Prop :=
  ∀ x y : K, compare x y = .eq → compare (x * x) (y * y) = .eq

theorem compare_list_eq_iff {l m : List K} :
    compare l m = .eq ↔ List.Forall₂ (fun x y => compare x y = .eq) l m := by
  rw [List.compare_eq_compareLex]
  induction l generalizing m with
  | nil => cases m <;> simp [List.compareLex_nil_nil, List.compareLex_nil_cons]
  | cons x l ih =>
    cases m with
    | nil => simp [List.compareLex_cons_nil]
    | cons y m => rw [List.compareLex_cons_cons, Ordering.then_eq_eq, ih, List.forall₂_cons]

theorem SquaresAgree.compare_squared (h : SquaresAgree K) {t u : Factor K}
    (htu : compare t u = .eq) : compare t.squared u.squared = .eq := by
  have hlists : ∀ v v' : Factor K, compare v v' = compare v.toList v'.toList := fun v v' => by
    show compare v.values v'.values = _
    rw [Array.compare_eq_compareLex, Array.compareLex_eq_compareLex_toList,
      List.compare_eq_compareLex]
    rfl
  have hmap : ∀ v : Factor K, v.squared.toList = v.toList.map fun x => x * x := fun v =>
    Array.toList_map
  rw [hlists, compare_list_eq_iff] at htu
  rw [hlists, compare_list_eq_iff, hmap, hmap, List.forall₂_map_left_iff, List.forall₂_map_right_iff]
  exact htu.imp h

namespace Component

theorem same_self (c : Component K) : c.same c = true := beq_iff_eq.mpr Std.ReflCmp.compare_self

theorem same_trans {c d e : Component K} (hcd : c.same d = true) (hde : d.same e = true) :
    c.same e = true :=
  beq_iff_eq.mpr (Std.TransCmp.eq_trans (eq_of_beq hcd) (eq_of_beq hde))

/-- squares of components that are the same are the same -/
theorem same_squared (h : SquaresAgree K) {c d : Component K} (hcd : c.same d = true) :
    c.squared.same d.squared = true := by
  refine beq_iff_eq.mpr ?_
  have hcd : compare c d = .eq := eq_of_beq hcd
  cases c with
  | standard p =>
    cases d with
    | aggregation b => cases hcd
    | standard q =>
      obtain ⟨hcs, hcd⟩ := compareLex_eq_eq.mp hcd
      obtain ⟨hprvs, hfactor⟩ := compareLex_eq_eq.mp hcd
      exact compareLex_eq_eq.mpr ⟨hcs, compareLex_eq_eq.mpr ⟨hprvs, h.compare_squared hfactor⟩⟩
  | aggregation a =>
    cases d with
    | standard q => cases hcd
    | aggregation b =>
      obtain ⟨hcs, hcd⟩ := compareLex_eq_eq.mp hcd
      obtain ⟨hparent, hcd⟩ := compareLex_eq_eq.mp hcd
      obtain ⟨hchild, hcd⟩ := compareLex_eq_eq.mp hcd
      obtain ⟨hcontext, hcd⟩ := compareLex_eq_eq.mp hcd
      obtain ⟨hfactor, hrest⟩ := compareLex_eq_eq.mp hcd
      exact compareLex_eq_eq.mpr ⟨hcs, compareLex_eq_eq.mpr ⟨hparent, compareLex_eq_eq.mpr
        ⟨hchild, compareLex_eq_eq.mpr ⟨hcontext, compareLex_eq_eq.mpr
          ⟨h.compare_squared hfactor, hrest⟩⟩⟩⟩⟩

/-- components are told apart by their order only -/
def sameness (K : Type) [Scalar K] : Setoid (Component K) where
  r c d := c.same d = true
  iseqv := ⟨same_self, fun {c d} h => c.same_comm d ▸ h, same_trans⟩

/-- a component up to sameness -/
def Kind (K : Type) [Scalar K] : Type := Quotient (sameness K)

def kind (c : Component K) : Kind K := Quotient.mk (sameness K) c

theorem kind_eq_iff {c d : Component K} : c.kind = d.kind ↔ c.same d = true :=
  Quotient.eq (r := sameness K)

end Component

/-- the kinds of the components of a list -/
def kinds (l : List (Component K)) : Multiset (Component.Kind K) := l.map Component.kind

@[simp] theorem kinds_nil : kinds ([] : List (Component K)) = 0 := rfl

@[simp] theorem kinds_cons (c : Component K) (l : List (Component K)) :
    kinds (c :: l) = c.kind ::ₘ kinds l := rfl

theorem kinds_append (l m : List (Component K)) :
    kinds (l ++ m) = kinds l + kinds m := by
  rw [kinds, List.map_append]
  rfl

theorem kinds_perm {l m : List (Component K)} (h : l.Perm m) : kinds l = kinds m :=
  Multiset.coe_eq_coe.mpr (h.map Component.kind)

theorem mem_kinds {c : Component K} {l : List (Component K)} :
    c.kind ∈ kinds l ↔ ∃ d ∈ l, c.same d = true := by
  rw [kinds, Multiset.mem_coe, List.mem_map]
  exact exists_congr fun d => and_congr_right fun _ => by
    rw [Component.kind_eq_iff, d.same_comm]

theorem nodup_kinds {l : List (Component K)} (h : Distinct l) : (kinds l).Nodup := by
  refine Multiset.coe_nodup.mpr (List.pairwise_map.mpr (h.imp fun {c d} hcd hkind => ?_))
  rw [Component.kind_eq_iff.mp hkind] at hcd
  cases hcd

/-! ## replacement of two copies -/

/-- two copies are replaced by their square -/
def Folds (s t : Multiset (Component.Kind K)) : Prop :=
  ∃ (c : Component K) (r : Multiset (Component.Kind K)),
    s = c.kind ::ₘ c.kind ::ₘ r ∧ t = c.squared.kind ::ₘ r

theorem Folds.cons {s t : Multiset (Component.Kind K)} (h : Folds s t) (b : Component.Kind K) :
    Folds (b ::ₘ s) (b ::ₘ t) := by
  obtain ⟨c, r, rfl, rfl⟩ := h
  refine ⟨c, b ::ₘ r, ?_, Multiset.cons_swap _ _ _⟩
  rw [Multiset.cons_swap b, Multiset.cons_swap b]

theorem Folds.add_right {s t : Multiset (Component.Kind K)} (h : ReflTransGen Folds s t)
    (u : Multiset (Component.Kind K)) : ReflTransGen Folds (s + u) (t + u) := by
  induction u using Multiset.induction_on with
  | empty => rwa [add_zero, add_zero]
  | cons b u ih =>
    rw [Multiset.add_cons, Multiset.add_cons]
    exact ih.lift (b ::ₘ ·) fun _ _ hst => hst.cons b

/-- copies of two different kinds are found beside each other -/
theorem exists_rest {α : Type} {a b : α} (hab : a ≠ b) {r r' : Multiset α}
    (h : a ::ₘ a ::ₘ r = b ::ₘ b ::ₘ r') : ∃ q, r = b ::ₘ b ::ₘ q ∧ r' = a ::ₘ a ::ₘ q := by
  obtain ⟨-, s, hr, hr'⟩ := (Multiset.cons_eq_cons.mp h).resolve_left fun h => hab h.1
  obtain ⟨-, t, rfl, rfl⟩ := (Multiset.cons_eq_cons.mp hr).resolve_left fun h => hab h.1
  obtain ⟨-, u, rfl, ht⟩ := (Multiset.cons_eq_cons.mp hr').resolve_left fun h => hab h.1.symm
  obtain ⟨-, q, rfl, rfl⟩ := (Multiset.cons_eq_cons.mp ht).resolve_left fun h => hab h.1
  exact ⟨q, rfl, rfl⟩

/-- **Two replacements** are the same one, or each can be made after the other. -/
theorem Folds.diamond (hK : SquaresAgree K) {s t u : Multiset (Component.Kind K)}
    (ht : Folds s t) (hu : Folds s u) : t = u ∨ ∃ v, Folds t v ∧ Folds u v := by
  obtain ⟨c, r, rfl, rfl⟩ := ht
  obtain ⟨d, r', hs, rfl⟩ := hu
  by_cases hcd : c.kind = d.kind
  · left
    rw [hcd] at hs
    obtain rfl := (Multiset.cons_inj_right _).mp ((Multiset.cons_inj_right _).mp hs)
    rw [Component.kind_eq_iff.mpr (Component.same_squared hK (Component.kind_eq_iff.mp hcd))]
  · right
    obtain ⟨q, rfl, rfl⟩ := exists_rest hcd hs
    refine ⟨c.squared.kind ::ₘ d.squared.kind ::ₘ q, ⟨d, c.squared.kind ::ₘ q, ?_, ?_⟩,
      ⟨c, d.squared.kind ::ₘ q, ?_, rfl⟩⟩
    · rw [Multiset.cons_swap c.squared.kind, Multiset.cons_swap c.squared.kind]
    · exact Multiset.cons_swap _ _ _
    · rw [Multiset.cons_swap d.squared.kind, Multiset.cons_swap d.squared.kind]

theorem Folds.not_of_nodup {s t : Multiset (Component.Kind K)} (hs : s.Nodup) : ¬ Folds s t := by
  rintro ⟨c, r, rfl, -⟩
  exact (Multiset.nodup_cons.mp hs).1 (Multiset.mem_cons_self _ _)

/-- **A multiset without copies** that a multiset folds into is the only one. -/
theorem Folds.unique (hK : SquaresAgree K) {s t u : Multiset (Component.Kind K)}
    (ht : ReflTransGen Folds s t) (hu : ReflTransGen Folds s u) (htn : t.Nodup) (hun : u.Nodup) :
    t = u := by
  have hstep : ∀ a b c : Multiset (Component.Kind K), Folds a b → Folds a c →
      ∃ d, ReflGen Folds b d ∧ ReflTransGen Folds c d := by
    intro a b c hab hac
    rcases Folds.diamond hK hab hac with rfl | ⟨d, hbd, hcd⟩
    · exact ⟨b, .refl, .refl⟩
    · exact ⟨d, .single hbd, .single hcd⟩
  obtain ⟨v, htv, huv⟩ := church_rosser hstep ht hu
  -- neither of the two can be folded further
  have hstop : ∀ {x}, x.Nodup → ReflTransGen Folds x v → x = v := fun {x} hx hxv => by
    rcases hxv.cases_head with h | ⟨y, hxy, -⟩
    · exact h
    · exact absurd hxy (Folds.not_of_nodup hx)
  rw [hstop htn htv, hstop hun huv]

/-! ## the ways of building -/

namespace Distribution

theorem folds_pushFolded (l : List (Component K)) (c : Component K) :
    ReflTransGen Folds (c.kind ::ₘ kinds l) (kinds (pushFolded l c)) := by
  refine pushFolded_induct
    (P := fun l c m => ReflTransGen Folds (c.kind ::ₘ kinds l) (kinds m))
    (fun l c _ => ?_) (fun l c i d hd hsame ih => ?_) l c
  · rw [kinds_append, kinds_cons, kinds_nil, add_comm, Multiset.cons_add, zero_add]
  · obtain ⟨hlt, rfl⟩ := List.getElem?_eq_some_iff.mp hd
    have hl : kinds l = c.kind ::ₘ kinds (l.eraseIdx i) := by
      rw [Component.kind_eq_iff.mpr hsame]
      exact (kinds_perm (List.getElem_cons_eraseIdx_perm hlt)).symm
    rw [hl]
    exact .head ⟨c, kinds (l.eraseIdx i), rfl, rfl⟩ ih

theorem folds_foldl_pushFolded (l m : List (Component K)) :
    ReflTransGen Folds (kinds m + kinds l) (kinds (l.foldl pushFolded m)) := by
  induction l generalizing m with
  | nil => rw [kinds_nil, add_zero]; exact .refl
  | cons c l ih =>
    refine .trans ?_ (ih (pushFolded m c))
    rw [kinds_cons, Multiset.add_cons, ← Multiset.cons_add]
    exact Folds.add_right (folds_pushFolded m c) (kinds l)

/-- the one member that compares equal is taken out -/
theorem kinds_erase {s : SortedSet (Component K)} {c : Component K} (h : s.contains c = true) :
    kinds s.toList = c.kind ::ₘ kinds (s.erase c).toList := by
  obtain ⟨b, hb, hcb⟩ := List.any_eq_true.mp h
  have hcb : c.same b = true := hcb
  obtain ⟨l, m, hs⟩ := List.append_of_mem hb
  have hdistinct : Distinct (l ++ b :: m) := hs ▸ distinct_toList ⟨s⟩
  have hmiddle := List.pairwise_middle (fun {x y} hxy => x.same_comm y ▸ hxy) |>.mp hdistinct
  have hother : ∀ d ∈ l ++ m, c.same d = false := fun d hd => by
    have hbd := (List.pairwise_cons.mp hmiddle).1 d hd
    rw [← Bool.not_eq_true] at hbd ⊢
    exact fun hcd => hbd (Component.same_trans (b.same_comm c ▸ hcb) hcd)
  have herase : (s.erase c).toList = l ++ m := by
    show s.toList.filter (fun d => !c.same d) = l ++ m
    rw [hs, List.filter_append, List.filter_cons_of_neg (by rw [hcb]; exact nofun),
      ← List.filter_append, List.filter_eq_self]
    intro d hd
    rw [hother d hd]
    rfl
  rw [herase, hs, Component.kind_eq_iff.mpr hcb]
  exact kinds_perm List.perm_middle

theorem folds_absorb (s : SortedSet (Component K)) (c : Component K) :
    ReflTransGen Folds (c.kind ::ₘ kinds s.toList) (kinds (absorb s c).toList) := by
  induction s, c using absorb.induct with
  | case1 s c h _ ih =>
    rw [absorb, dif_pos h, kinds_erase h]
    exact .head ⟨c, kinds (s.erase c).toList, rfl, rfl⟩ ih
  | case2 s c h =>
    have hnew : ∀ d ∈ s.toList, c.same d = false := fun d hd =>
      Bool.eq_false_iff.mpr fun hcd => h (List.any_eq_true.mpr ⟨d, hd, hcd⟩)
    rw [absorb, dif_neg h]
    exact (kinds_perm (perm_insertList hnew)).symm ▸ .refl

theorem folds_addAll (l : List (Component K)) (d : Distribution K) :
    ReflTransGen Folds (kinds d.toList + kinds l) (kinds (d.addAll l).toList) := by
  induction l generalizing d with
  | nil => rw [kinds_nil, add_zero]; exact .refl
  | cons c l ih =>
    refine .trans ?_ (ih (d.add c))
    rw [kinds_cons, Multiset.add_cons, ← Multiset.cons_add]
    exact Folds.add_right (folds_absorb d.components c) (kinds l)

/-! ## sets with the same kinds -/

/-- **Two increasing lists** with the same kinds agree place by place. -/
theorem forall₂_same : ∀ {l m : List (Component K)},
    l.Pairwise (fun c d => compare c d = .lt) → m.Pairwise (fun c d => compare c d = .lt) →
      kinds l = kinds m → List.Forall₂ (fun c d => c.same d = true) l m
  | [], [], _, _, _ => .nil
  | [], _ :: _, _, _, h => absurd (congrArg Multiset.card h) (by simp)
  | _ :: _, [], _, _, h => absurd (congrArg Multiset.card h) (by simp)
  | c :: l, d :: m, hl, hm, h => by
    have hcl := (List.pairwise_cons.mp hl).1
    have hdm := (List.pairwise_cons.mp hm).1
    have hcd : c.same d = true := by
      obtain ⟨e, he, hce⟩ := mem_kinds.mp (h ▸ mem_kinds.mpr ⟨c, List.mem_cons_self, c.same_self⟩)
      obtain ⟨b, hb, hdb⟩ :=
        mem_kinds.mp (h.symm ▸ mem_kinds.mpr ⟨d, List.mem_cons_self, d.same_self⟩)
      rcases List.mem_cons.mp he with rfl | he
      · exact hce
      rcases List.mem_cons.mp hb with rfl | hb
      · rwa [d.same_comm] at hdb
      -- each head would be below the other one
      have hdc : compare d c = .lt :=
        Std.TransCmp.lt_of_lt_of_eq (hdm e he) (Std.OrientedCmp.eq_symm (eq_of_beq hce))
      have hcd : compare c d = .lt :=
        Std.TransCmp.lt_of_lt_of_eq (hcl b hb) (Std.OrientedCmp.eq_symm (eq_of_beq hdb))
      exact absurd (Std.TransCmp.lt_trans hcd hdc) SortedSet.not_lt_self
    rw [kinds_cons, kinds_cons, Component.kind_eq_iff.mpr hcd] at h
    exact .cons hcd (forall₂_same (List.pairwise_cons.mp hl).2 (List.pairwise_cons.mp hm).2
      ((Multiset.cons_inj_right _).mp h))

theorem same_of_forall₂ {d e : Distribution K}
    (h : List.Forall₂ (fun b c => b.same c = true) d.toList e.toList) : d.same e = true := by
  refine beq_iff_eq.mpr ?_
  show compare d.toList e.toList = .eq
  rw [List.compare_eq_compareLex]
  generalize d.toList = l, e.toList = m at h
  induction h with
  | nil => exact List.compareLex_nil_nil
  | cons hbc _ ih => rw [List.compareLex_cons_cons, Ordering.then_eq_eq]; exact ⟨eq_of_beq hbc, ih⟩

/-- **The order of building** does not matter: a distribution that takes in the components of a list
takes in any permutation of it with the same result, place by place in the sorted list; a list that
they are folded into holds the same components; neither holds a copy; and with exact entries nothing
is lost, however often a component is listed.  `ofList` is the case of the empty distribution. -/
theorem building_canonical (hK : SquaresAgree K) {l m : List (Component K)} (h : l.Perm m)
    (d : Distribution K) :
    (d.addAll l).same (d.addAll m) = true
      ∧ List.Forall₂ (fun b c => b.same c = true) (d.addAll l).toList (d.addAll m).toList
      ∧ (∀ c, (d.addAll l).contains c = (m.foldl pushFolded d.toList).any c.same)
      ∧ Distinct (d.addAll l).toList ∧ Distinct (m.foldl pushFolded d.toList)
      ∧ ∀ (R : Type) [ExactScalar R] (k : List (Component R)) (w : World),
          meaningOf (ofList k).toList w = (k.map fun c => c.meaning w).prod
            ∧ meaningOf (k.foldl pushFolded []) w = (k.map fun c => c.meaning w).prod := by
  have hl := folds_addAll l d
  rw [kinds_perm h] at hl
  have hnodup : ∀ l, (kinds (d.addAll l).toList).Nodup := fun l => nodup_kinds (distinct_toList _)
  have hpushed : Distinct (m.foldl pushFolded d.toList) := d.distinct_toList.foldl_pushFolded m
  have hperm : kinds (d.addAll l).toList = kinds (d.addAll m).toList :=
    Folds.unique hK hl (folds_addAll m d) (hnodup l) (hnodup m)
  have hfolded : kinds (d.addAll l).toList = kinds (m.foldl pushFolded d.toList) :=
    Folds.unique hK hl (folds_foldl_pushFolded m d.toList) (hnodup l) (nodup_kinds hpushed)
  have hplaces := forall₂_same (d.addAll l).components.increasing
    (d.addAll m).components.increasing hperm
  refine ⟨same_of_forall₂ hplaces, hplaces, fun c => ?_, distinct_toList _, hpushed,
    fun R _ k w => ⟨meaningOf_ofList k w, ?_⟩⟩
  · rw [Bool.eq_iff_iff, List.any_eq_true, ← mem_kinds, ← hfolded, mem_kinds]
    exact List.any_eq_true
  · rw [meaningOf_foldl_pushFolded]
    exact one_mul _

end Distribution

section
open scoped ExactScalar

namespace Epidemic

/-- a component and its square, which two copies of the component make a second time -/
def alarmed (x : Nat) : Component Nat := .standard ⟨∅, [.atom alarm], ⟨#[1, x]⟩⟩

end Epidemic

theorem Epidemic.building_canonical_alarmed :
    SquaresAgree Nat ∧ [alarmed 2, alarmed 2, alarmed 4].Perm [alarmed 4, alarmed 2, alarmed 2]
      ∧ (Distribution.ofList [alarmed 2, alarmed 2, alarmed 4]).same
          (Distribution.ofList [alarmed 4, alarmed 2, alarmed 2]) = true
      ∧ (Distribution.ofList [alarmed 4, alarmed 2, alarmed 2]).same
          (Distribution.ofList [alarmed 16]) = true := by
  have hK : SquaresAgree Nat := fun x y hxy => by
    rw [Nat.compare_eq_eq.mp hxy]
    exact Std.ReflCmp.compare_self
  have hperm : [alarmed 2, alarmed 2, alarmed 4].Perm [alarmed 4, alarmed 2, alarmed 2] :=
    show ([alarmed 2, alarmed 2] ++ [alarmed 4]).Perm ([alarmed 4] ++ [alarmed 2, alarmed 2]) from
      List.perm_append_comm
  exact ⟨hK, hperm, (Distribution.building_canonical hK hperm .empty).1, by decide +kernel⟩

end

end LiftedElimination
