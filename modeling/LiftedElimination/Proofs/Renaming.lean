import LiftedElimination.Proofs.Solutions

/-!
# Renamings

A substitution that replaces variables by variables of the same population, and no two of them by
one, moves groundings to groundings and back.

* `InjOn.eq_of_apply` terms with one image are equal;
* `exists_pull`       a valuation of the old variables is one of the new variables;
* `solves_renamed`    the constraints under a renaming hold where they held before it.
-/

namespace LiftedElimination

namespace Substitution

/-- variables become variables of the same population -/
def IsRenaming (s : Substitution) : Prop :=
  ∀ x, ∃ z, s.apply (.var x) = .var z ∧ z.population = x.population

/-- distinct variables of the list have distinct images -/
def InjOn (s : Substitution) (vars : List LogVar) : Prop :=
  ∀ x ∈ vars, ∀ y ∈ vars, s.apply (.var x) = s.apply (.var y) → x = y

variable {s : Substitution} {vars ws : List LogVar}

theorem isRenaming_of_get? (h : ∀ x t, s.get? x = some t →
    ∃ z, t = .var z ∧ z.population = x.population) : s.IsRenaming := by
  intro x
  cases hx : s.get? x with
  | none => exact ⟨x, apply_of_get?_none hx, rfl⟩
  | some t =>
    obtain ⟨z, rfl, hz⟩ := h x t hx
    exact ⟨z, apply_of_mem (get?_eq_some.mp hx), hz⟩

/-- no constraint is lost -/
theorem IsRenaming.exists_apply (hr : s.IsRenaming) (c : Constraint) : ∃ k, c.apply s = some k := by
  cases hk : c.apply s with
  | some k => exact ⟨k, rfl⟩
  | none =>
    obtain ⟨⟨d, hd⟩, -⟩ := Constraint.between_eq_none.mp hk
    obtain ⟨z, hz, -⟩ := hr c.first
    cases hz.symm.trans hd

/-- a renaming that leaves one variable alone -/
theorem IsRenaming.without (hr : s.IsRenaming) (b : LogVar) : (s.without (· = b)).IsRenaming := by
  intro x
  by_cases hx : x = b
  · subst hx
    exact ⟨x, apply_without_self s x, rfl⟩
  · rw [apply_without_ne s hx]
    exact hr x

/-- terms over the variables that are kept apart have distinct images -/
theorem InjOn.eq_of_apply (hi : s.InjOn vars) (hr : s.IsRenaming) {t u : Term}
    (ht : ∀ x, t = .var x → x ∈ vars) (hu : ∀ x, u = .var x → x ∈ vars)
    (h : s.apply t = s.apply u) : t = u := by
  have hconst : ∀ {y c}, s.apply (.var y) ≠ .const c := by
    intro y c hc
    obtain ⟨z, hz, -⟩ := hr y
    cases hz.symm.trans hc
  match t, u with
  | .var y, .var z => exact congrArg _ (hi y (ht y rfl) z (hu z rfl) h)
  | .var y, .const c => exact absurd h hconst
  | .const c, .var z => exact absurd h.symm hconst
  | .const c, .const d => exact h

/-- a variable that no other one is sent to is kept apart as well -/
theorem InjOn.without {b : LogVar} (hi : s.InjOn vars)
    (hb : ∀ x ∈ vars, s.apply (.var x) ≠ .var b) : (s.without (· = b)).InjOn (b :: vars) := by
  intro x hx y hy hxy
  by_cases hxb : x = b <;> by_cases hyb : y = b
  · exact hxb.trans hyb.symm
  · rw [hxb, apply_without_self, apply_without_ne s hyb] at hxy
    exact absurd hxy.symm (hb y (List.mem_of_ne_of_mem hyb hy))
  · rw [hyb, apply_without_self, apply_without_ne s hxb] at hxy
    exact absurd hxy (hb x (List.mem_of_ne_of_mem hxb hx))
  · rw [apply_without_ne s hxb, apply_without_ne s hyb] at hxy
    exact hi x (List.mem_of_ne_of_mem hxb hx) y (List.mem_of_ne_of_mem hyb hy) hxy

theorem InjOn.mono (hi : s.InjOn vars) (h : ∀ x ∈ ws, x ∈ vars) : s.InjOn ws :=
  fun x hx y hy => hi x (h x hx) y (h y hy)

/-- values of the old variables are values of the new ones -/
theorem exists_renamed {D : Type} [Inhabited D] (hi : s.InjOn vars) (f : LogVar → D) :
    ∃ g : LogVar → D, ∀ x ∈ vars, ∀ z, s.apply (.var x) = .var z → g z = f x := by
  classical
  refine ⟨fun z => if h : ∃ x ∈ vars, s.apply (.var x) = .var z then f h.choose else default,
    fun x hx z hz => ?_⟩
  have h : ∃ y ∈ vars, s.apply (.var y) = .var z := ⟨x, hx, hz⟩
  obtain ⟨hy, hyz⟩ := h.choose_spec
  show dite _ _ _ = f x
  rw [dif_pos h, hi _ hy x hx (hyz.trans hz.symm)]

/-- the way back along a renaming -/
theorem exists_pull (hr : s.IsRenaming) (hi : s.InjOn vars) (γ : Valuation) :
    ∃ δ : Valuation, ∀ x ∈ vars, s.pull δ x = γ x := by
  obtain ⟨δ, hδ⟩ := exists_renamed hi γ
  refine ⟨δ, fun x hx => ?_⟩
  obtain ⟨z, hz, -⟩ := hr x
  rw [pull, hz, Term.eval_var, hδ x hx z hz]

/-- the constraints under a renaming -/
theorem holds_renamed (hr : s.IsRenaming) {cs : ConstraintSet} {γ : Valuation} :
    ConstraintSet.Holds (cs.filterMap (·.apply s)) γ ↔ cs.Holds (s.pull γ) := by
  refine ConstraintSet.holds_filterMap_apply fun c _ hc => ?_
  obtain ⟨k, hk⟩ := hr.exists_apply c
  cases hc.symm.trans hk

theorem solves_renamed (hr : s.IsRenaming) {cs : ConstraintSet}
    (hcs : ∀ x ∈ cs.variables, x ∈ vars)
    (hws : ∀ z, z ∈ ws ↔ ∃ x ∈ vars, s.apply (.var x) = .var z) {γ : Valuation} :
    γ.Solves (cs.filterMap (·.apply s)) ws ↔ (s.pull γ).Solves cs vars := by
  have hin : ∀ x ∈ ConstraintSet.variables (cs.filterMap (·.apply s)), x ∈ ws := by
    intro x hx
    obtain ⟨d, hd, hxd⟩ := ConstraintSet.mem_variables.mp hx
    obtain ⟨c, hc, hca⟩ := SortedSet.mem_filterMap.mp hd
    obtain ⟨y, hy, hyx⟩ := (Constraint.mem_variables_of_apply hca).mp hxd
    exact (hws x).mpr ⟨y, hcs y (ConstraintSet.mem_variables.mpr ⟨c, hc, hy⟩), hyx⟩
  rw [Valuation.solves_iff_holds hin, Valuation.solves_iff_holds hcs, holds_renamed hr]
  refine and_congr_left fun _ => ⟨fun h x hx => ?_, fun h z hz => ?_⟩
  · obtain ⟨z, hz, hpop⟩ := hr x
    rw [pull, hz, ← hpop]
    exact h z ((hws z).mpr ⟨x, hx, hz⟩)
  · obtain ⟨x, hx, hxz⟩ := (hws z).mp hz
    obtain ⟨z', hz', hpop⟩ := hr x
    have hzz : z = z' := Term.var.inj (hxz.symm.trans hz')
    have hmem := h x hx
    rw [pull, hxz] at hmem
    rw [hzz, hpop, ← hzz]
    exact hmem

end Substitution

end LiftedElimination
