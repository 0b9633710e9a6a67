import LiftedElimination.Substitution
import Mathlib.Data.List.Perm.Basic

/-!
# Sets and substitutions from lists

A sorted set and a substitution are the same whatever order their members are listed in.

* `SortedSet.perm_ofList`          a list without equal members has the members of its set;
* `SortedSet.ofList_of_perm`       **a set is made from its members in any order**;
* `Substitution.ofBindings_eq_ok`  **the lists that make a substitution**: its bindings in any order;
* `Substitution.exists_ofBindings` a list makes a substitution unless it repeats a source.
-/

namespace LiftedElimination

/-! ## sets -/

namespace SortedSet

variable {α : Type} [Ord α] {l : List α} {s t : SortedSet α}

/-- no two members are equal for the order -/
def Distinct (l : List α) : Prop := l.Pairwise fun a b => compare a b ≠ .eq

theorem perm_insertList_of_ne {a : α} (h : ∀ b ∈ l, compare a b ≠ .eq) :
    (insertList a l).Perm (a :: l) := by
  induction l with
  | nil => exact .refl _
  | cons b l ih =>
    unfold insertList
    split
    · exact .refl _
    · rename_i heq
      exact absurd heq (h b List.mem_cons_self)
    · exact ((ih fun c hc => h c (List.mem_cons_of_mem _ hc)).cons b).trans (.swap a b l)

theorem distinct_toList (s : SortedSet α) : Distinct s.toList :=
  s.increasing.imp fun hlt heq => by cases hlt.symm.trans heq

variable [Std.TransOrd α]

theorem Distinct.perm {m : List α} (h : Distinct l) (hperm : l.Perm m) : Distinct m :=
  List.Pairwise.perm h hperm fun hne heq => hne (Std.OrientedCmp.eq_symm heq)

theorem perm_insertMany (h : Distinct (s.toList ++ l)) :
    (s.insertMany l).toList.Perm (s.toList ++ l) := by
  induction l generalizing s with
  | nil => rw [List.append_nil]; exact .refl _
  | cons a l ih =>
    have hmiddle : (a :: s.toList ++ l).Perm (s.toList ++ a :: l) := List.perm_middle.symm
    have hdistinct := h.perm hmiddle.symm
    have hinsert : (s.insert a).toList.Perm (a :: s.toList) := perm_insertList_of_ne fun b hb =>
      (List.pairwise_cons.mp hdistinct).1 b (List.mem_append_left _ hb)
    have happend := hinsert.append_right l
    exact (ih (hdistinct.perm happend.symm)).trans (happend.trans hmiddle)

theorem perm_ofList (h : Distinct l) : (ofList l).toList.Perm l := by
  unfold ofList
  split
  · exact .refl _
  · exact perm_insertMany (s := ∅) h

theorem eq_of_perm (h : s.toList.Perm t.toList) : s = t := ext_mem fun _ => h.mem_iff

/-- **A set is made from its members**, in any order. -/
theorem ofList_of_perm (h : l.Perm s.toList) : ofList l = s :=
  eq_of_perm ((perm_ofList (s.distinct_toList.perm h.symm)).trans h)

end SortedSet

/-! ## substitutions -/

namespace Substitution

variable {s t : Substitution} {b : Binding} {l : List Binding}

theorem perm_insertBinding {l m : List Binding} (h : insertBinding b l = some m) :
    m.Perm (b :: l) := by
  induction l generalizing m with
  | nil =>
    cases h
    exact .refl _
  | cons c l ih =>
    unfold insertBinding at h
    split at h
    · cases h
      exact .refl _
    · cases h
    · obtain ⟨k, hk, rfl⟩ := Option.map_eq_some_iff.mp h
      exact ((ih hk).cons c).trans (.swap b c l)

theorem perm_bind (h : s.bind b = .ok t) : t.bindings.Perm (b :: s.bindings) := by
  unfold bind at h
  split at h
  · cases h
  · rename_i m hm
    cases h
    exact perm_insertBinding hm

/-- a source that is not bound yet can be bound -/
theorem exists_bind (h : b.source ∉ s.domain) : ∃ t, s.bind b = .ok t := by
  unfold bind
  split
  · rename_i hnone
    exact absurd ((insertBinding_eq_none s.increasing).mp hnone) h
  · exact ⟨_, rfl⟩

theorem perm_bindMany (h : s.bindMany l = .ok t) : t.bindings.Perm (s.bindings ++ l) := by
  induction l generalizing s with
  | nil =>
    cases h
    rw [List.append_nil]
  | cons b l ih =>
    unfold bindMany at h
    split at h
    · cases h
    · rename_i u hu
      have happend := (perm_bind hu).append_right l
      exact (ih h).trans (happend.trans List.perm_middle.symm)

theorem exists_bindMany (h : ((s.bindings ++ l).map Binding.source).Nodup) :
    ∃ t, s.bindMany l = .ok t := by
  induction l generalizing s with
  | nil => exact ⟨s, rfl⟩
  | cons b l ih =>
    have hnodup : ((b :: s.bindings ++ l).map Binding.source).Nodup :=
      (List.perm_middle.symm.map _).nodup_iff.mpr h
    have hb : b.source ∉ s.domain := fun hb =>
      (List.nodup_cons.mp hnodup).1 (List.map_subset _ (List.subset_append_left _ _) hb)
    obtain ⟨u, hu⟩ := exists_bind hb
    have happend := (perm_bind hu).append_right l
    rw [bindMany, hu]
    exact ih ((happend.map _).nodup_iff.mpr hnodup)

theorem nodup_domain (s : Substitution) : s.domain.Nodup := by
  refine List.pairwise_map.mpr (s.increasing.imp fun {a b} hlt heq => ?_)
  rw [heq] at hlt
  exact SortedSet.not_lt_self hlt

theorem eq_of_perm (h : s.bindings.Perm t.bindings) : s = t := by
  have hasymm : ∀ a b : Binding, a ∈ s.bindings → b ∈ t.bindings →
      compare a.source b.source = .lt → compare b.source a.source = .lt → a = b :=
    fun a b _ _ hab hba => absurd (Std.TransCmp.lt_trans hab hba) SortedSet.not_lt_self
  have hlist := List.Perm.eq_of_pairwise hasymm s.increasing t.increasing h
  cases s
  cases t
  cases hlist
  rfl

/-- a list makes a substitution unless it repeats a source -/
theorem exists_ofBindings : (∃ s, ofBindings l = .ok s) ↔ (l.map Binding.source).Nodup := by
  refine ⟨fun ⟨s, hs⟩ => ?_, fun h => exists_bindMany (s := identity) h⟩
  exact ((perm_bindMany hs).map _).nodup_iff.mp s.nodup_domain

/-- **The lists that make a substitution** are its bindings in any order. -/
theorem ofBindings_eq_ok : ofBindings l = .ok s ↔ l.Perm s.bindings := by
  refine ⟨fun h => (perm_bindMany h).symm, fun h => ?_⟩
  obtain ⟨t, ht⟩ := exists_ofBindings.mpr ((h.map _).nodup_iff.mpr s.nodup_domain)
  have hperm : t.bindings.Perm l := perm_bindMany ht
  rw [ht, eq_of_perm (hperm.trans h)]

end Substitution

end LiftedElimination
