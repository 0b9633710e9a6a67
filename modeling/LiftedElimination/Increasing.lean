/-!
# Strictly increasing lists

`isIncreasing cmp l` compares each element with the next one only.

Main statements: `pairwise_of_isIncreasing` says that any two elements are then in order, and
`nodup_of_isIncreasing` that no element is repeated.
-/

namespace LiftedElimination

universe u

variable {α : Type u} {cmp : α → α → Ordering}

/-- each element is smaller than the next one -/
def isIncreasing (cmp : α → α → Ordering) : List α → Bool
  | [] => true
  | [_] => true
  | a :: b :: l => cmp a b == .lt && isIncreasing cmp (b :: l)

theorem pairwise_of_isIncreasing [Std.TransCmp cmp] {l : List α}
    (h : isIncreasing cmp l = true) : l.Pairwise (fun a b => cmp a b = .lt) := by
  fun_induction isIncreasing cmp l with
  | case1 => exact .nil
  | case2 => exact List.pairwise_singleton _ _
  | case3 a b l ih =>
    obtain ⟨hab, hl⟩ := Bool.and_eq_true_iff.mp h
    have hb := ih hl
    refine List.pairwise_cons.mpr ⟨fun c hc => ?_, hb⟩
    rcases List.mem_cons.mp hc with rfl | hc
    · exact eq_of_beq hab
    · exact Std.TransCmp.lt_trans (eq_of_beq hab) ((List.pairwise_cons.mp hb).1 c hc)

theorem nodup_of_isIncreasing [Std.TransCmp cmp] {l : List α}
    (h : isIncreasing cmp l = true) : l.Nodup :=
  (pairwise_of_isIncreasing h).imp fun {a b} hab => by
    rintro rfl
    have heq : cmp a a = .eq := Std.ReflCmp.compare_self
    cases hab.symm.trans heq

end LiftedElimination
