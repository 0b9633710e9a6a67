import LiftedElimination.Proofs.Override
import LiftedElimination.Unifier

/-!
# Valuations

A valuation gives every logical variable an individual.  Under a valuation a term is a constant, a
constraint holds or not, and an atom is a ground atom.  A substitution acts on valuations by
`pull`: what a term means after the substitution under `γ` it means before under `s.pull γ`.

* `Substitution.get?_eq_some`   the bindings of a substitution as a function;
* `eval_apply`, `ground_apply`, `holds_apply`   the substitution of terms, atoms and sets of
                                constraints against `pull`.
-/

namespace LiftedElimination

/-- an individual for every logical variable -/
abbrev Valuation := LogVar → Constant

/-! ## substitutions as functions -/

namespace Substitution

theorem eq_of_source_eq {l : List Binding}
    (hl : l.Pairwise (fun a b => compare a.source b.source = .lt)) {b c : Binding} (hb : b ∈ l)
    (hc : c ∈ l) (h : b.source = c.source) : b = c := by
  induction l with
  | nil => exact absurd hb List.not_mem_nil
  | cons d l ih =>
    have hd := List.pairwise_cons.mp hl
    rcases List.mem_cons.mp hb with rfl | hb' <;> rcases List.mem_cons.mp hc with rfl | hc'
    · rfl
    · have hlt := hd.1 c hc'
      rw [h] at hlt
      exact absurd hlt SortedSet.not_lt_self
    · have hlt := hd.1 b hb'
      rw [h] at hlt
      exact absurd hlt SortedSet.not_lt_self
    · exact ih hd.2 hb' hc'

theorem get?_eq_some {s : Substitution} {x : LogVar} {t : Term} :
    s.get? x = some t ↔ ⟨x, t⟩ ∈ s.bindings := by
  rw [get?, Option.map_eq_some_iff]
  constructor
  · rintro ⟨b, hb, rfl⟩
    have hx : b.source = x := by simpa using List.find?_some hb
    rw [← hx]
    exact List.mem_of_find?_eq_some hb
  · intro h
    cases hf : s.bindings.find? (·.source = x) with
    | none =>
      have := List.find?_eq_none.mp hf _ h
      simp at this
    | some b =>
      refine ⟨b, rfl, ?_⟩
      have hx : b.source = x := by simpa using List.find?_some hf
      rw [eq_of_source_eq s.increasing (List.mem_of_find?_eq_some hf) h hx]

theorem get?_eq_none {s : Substitution} {x : LogVar} :
    s.get? x = none ↔ ∀ t, (⟨x, t⟩ : Binding) ∉ s.bindings := by
  rw [Option.eq_none_iff_forall_ne_some]
  exact forall_congr' fun t => not_congr get?_eq_some

theorem apply_of_mem {s : Substitution} {b : Binding} (h : b ∈ s.bindings) :
    s.apply (.var b.source) = b.target := by
  have hg : s.get? b.source = some b.target := get?_eq_some.mpr h
  show (s.get? b.source).getD _ = _
  rw [hg]
  rfl

theorem apply_of_get?_none {s : Substitution} {x : LogVar} (h : s.get? x = none) :
    s.apply (.var x) = .var x := by
  show (s.get? x).getD _ = _
  rw [h]
  rfl

theorem apply_single_self (x : LogVar) (t : Term) : (single ⟨x, t⟩).apply (.var x) = t :=
  apply_of_mem (b := ⟨x, t⟩) (List.mem_singleton.mpr rfl)

theorem apply_single_ne {b : Binding} {x : LogVar} (h : x ≠ b.source) :
    (single b).apply (.var x) = .var x := by
  refine apply_of_get?_none (get?_eq_none.mpr fun t ht => h ?_)
  rw [← List.mem_singleton.mp ht]

/-- what a single binding turns into a variable: the variable itself, or the source -/
theorem apply_single_eq_var {b : Binding} {u : Term} {x : LogVar} :
    (single b).apply u = .var x
      ↔ (u = .var x ∧ x ≠ b.source) ∨ (u = .var b.source ∧ b.target = .var x) := by
  constructor
  · intro h
    cases u with
    | const c => cases h
    | var y =>
      by_cases hy : y = b.source
      · rw [hy, apply_single_self] at h
        exact .inr ⟨congrArg _ hy, h⟩
      · rw [apply_single_ne hy] at h
        cases h
        exact .inl ⟨rfl, hy⟩
  · rintro (⟨rfl, hx⟩ | ⟨rfl, h⟩)
    · exact apply_single_ne hx
    · exact (apply_single_self b.source b.target).trans h

theorem mem_bindings_bind {s t : Substitution} {b : Binding} (h : s.bind b = .ok t)
    {c : Binding} : c ∈ t.bindings ↔ c = b ∨ c ∈ s.bindings := by
  unfold bind at h
  split at h
  · cases h
  · rename_i l hl
    cases h
    exact mem_insertBinding hl

theorem bind_eq_error {s : Substitution} {b : Binding} {e : Error} (h : s.bind b = .error e) :
    ∃ t, (⟨b.source, t⟩ : Binding) ∈ s.bindings := by
  unfold bind at h
  split at h
  · rename_i hl
    obtain ⟨c, hc, hcb⟩ := List.mem_map.mp ((insertBinding_eq_none s.increasing).mp hl)
    exact ⟨c.target, hcb ▸ hc⟩
  · cases h

theorem source_of_bind {s t : Substitution} {b : Binding} (h : s.bind b = .ok t) :
    s.get? b.source = none := by
  refine get?_eq_none.mpr fun u hu => ?_
  unfold bind at h
  split at h
  · cases h
  · rename_i l hl
    have hsource : insertBinding b s.bindings = none :=
      (insertBinding_eq_none s.increasing).mpr (List.mem_map.mpr ⟨_, hu, rfl⟩)
    rw [hsource] at hl
    cases hl

theorem get?_bind {s t : Substitution} {b : Binding} (h : s.bind b = .ok t) (x : LogVar) :
    t.get? x = if x = b.source then some b.target else s.get? x := by
  split
  · rename_i hx
    subst hx
    exact get?_eq_some.mpr ((mem_bindings_bind h).mpr (.inl rfl))
  · rename_i hx
    cases hs : s.get? x with
    | none =>
      refine get?_eq_none.mpr fun u hu => ?_
      rcases (mem_bindings_bind h).mp hu with heq | hmem
      · exact hx (congrArg Binding.source heq)
      · exact get?_eq_none.mp hs u hmem
    | some u => exact get?_eq_some.mpr ((mem_bindings_bind h).mpr (.inr (get?_eq_some.mp hs)))

theorem get?_bindNew (s : Substitution) (b : Binding) (x : LogVar) :
    (s.bindNew b).get? x = if s.get? x = none ∧ x = b.source then some b.target else s.get? x := by
  unfold bindNew
  split
  · rename_i hb
    obtain ⟨t, ht⟩ := bind_eq_error hb
    split
    · rename_i hx
      rw [hx.2, get?_eq_some.mpr ht] at hx
      cases hx.1
    · rfl
  · rename_i t hb
    rw [get?_bind hb]
    have hsource := source_of_bind hb
    by_cases hx : x = b.source
    · rw [if_pos hx, if_pos ⟨hx ▸ hsource, hx⟩]
    · rw [if_neg hx, if_neg (fun h => hx h.2)]

theorem get?_without (s : Substitution) (p : LogVar → Bool) (x : LogVar) :
    (s.without p).get? x = if p x = true then none else s.get? x := by
  split
  · rename_i hx
    refine get?_eq_none.mpr fun t ht => ?_
    have := (List.mem_filter.mp ht).2
    simp [hx] at this
  · rename_i hx
    cases hs : s.get? x with
    | none => exact get?_eq_none.mpr fun t ht => get?_eq_none.mp hs t (List.mem_filter.mp ht).1
    | some t =>
      refine get?_eq_some.mpr (List.mem_filter.mpr ⟨get?_eq_some.mp hs, ?_⟩)
      simpa using hx

theorem apply_without_self (s : Substitution) (x : LogVar) :
    (s.without (· = x)).apply (.var x) = .var x := by
  refine apply_of_get?_none ?_
  rw [get?_without, if_pos (by simp)]

theorem apply_without_ne (s : Substitution) {x y : LogVar} (h : y ≠ x) :
    (s.without (· = x)).apply (.var y) = s.apply (.var y) := by
  show ((s.without (· = x)).get? y).getD _ = (s.get? y).getD _
  rw [get?_without, if_neg (by simpa using h)]

end Substitution

/-! ## terms and constraints -/

def Term.eval (γ : Valuation) : Term → Constant
  | .var x => γ x
  | .const c => c

@[simp] theorem Term.eval_var (γ : Valuation) (x : LogVar) : (Term.var x).eval γ = γ x := rfl

@[simp] theorem Term.eval_const (γ : Valuation) (c : Constant) : (Term.const c).eval γ = c := rfl

/-- the valuation before a substitution, for a valuation after it -/
def Substitution.pull (s : Substitution) (γ : Valuation) : Valuation :=
  fun x => (s.apply (.var x)).eval γ

theorem Substitution.eval_apply (s : Substitution) (γ : Valuation) (t : Term) :
    (s.apply t).eval γ = t.eval (s.pull γ) := by
  cases t <;> rfl

theorem Substitution.pull_single (x : LogVar) (t : Term) (γ : Valuation) :
    (single ⟨x, t⟩).pull γ = Function.update γ x (t.eval γ) := by
  funext y
  by_cases h : y = x
  · subst h
    rw [Function.update_self, pull, apply_single_self]
  · rw [Function.update_of_ne h, pull, apply_single_ne h]
    rfl

namespace Constraint

/-- the two sides have different values -/
def Holds (c : Constraint) (γ : Valuation) : Prop := γ c.first ≠ c.second.eval γ

instance (c : Constraint) (γ : Valuation) : Decidable (c.Holds γ) :=
  inferInstanceAs (Decidable (_ ≠ _))

theorem mem_variables {c : Constraint} {x : LogVar} :
    x ∈ c.variables ↔ x = c.first ∨ c.second = .var x := by
  rw [Constraint.variables, List.mem_cons, Option.mem_toList, Term.var?_eq_some]

theorem mentions_iff {c : Constraint} {x : LogVar} : c.mentions x = true ↔ x ∈ c.variables := by
  rw [mem_variables, mentions, Bool.or_eq_true, beq_iff_eq, beq_iff_eq]
  exact or_congr_left eq_comm

theorem isContradiction_iff {c : Constraint} :
    c.isContradiction = true ↔ c.second = .var c.first := beq_iff_eq

theorem not_holds_of_isContradiction {c : Constraint} (h : c.isContradiction = true)
    (γ : Valuation) : ¬ c.Holds γ := by
  rw [isContradiction_iff] at h
  simp [Holds, h]

theorem holds_congr {c : Constraint} {γ δ : Valuation} (h : ∀ x ∈ c.variables, γ x = δ x) :
    c.Holds γ ↔ c.Holds δ := by
  have hf : γ c.first = δ c.first := h _ (mem_variables.mpr (.inl rfl))
  have hs : c.second.eval γ = c.second.eval δ := by
    cases hc : c.second with
    | var y => exact h y (mem_variables.mpr (.inr hc))
    | const d => rfl
  rw [Holds, Holds, hf, hs]

theorem ordered_var (x y : LogVar) :
    ordered x (.var y) = if compare y x = .lt then ⟨y, .var x⟩ else ⟨x, .var y⟩ := rfl

theorem holds_ordered (x : LogVar) (t : Term) (γ : Valuation) :
    (ordered x t).Holds γ ↔ γ x ≠ t.eval γ := by
  cases t with
  | const c => exact Iff.rfl
  | var y =>
    rw [ordered_var]
    split
    · exact ne_comm
    · exact Iff.rfl

theorem mem_variables_ordered {x y : LogVar} {t : Term} :
    y ∈ (ordered x t).variables ↔ y = x ∨ t = .var y := by
  cases t with
  | const c => exact mem_variables
  | var z =>
    rw [ordered_var]
    split
    · rw [mem_variables, Term.var.injEq, Term.var.injEq, or_comm, @eq_comm _ y, @eq_comm _ y]
    · exact mem_variables

theorem isContradiction_ordered {x : LogVar} {t : Term} :
    (ordered x t).isContradiction = true ↔ t = .var x := by
  cases t with
  | const c => simp [ordered, isContradiction]
  | var y =>
    rw [ordered_var]
    split
    · rw [isContradiction_iff, Term.var.injEq, Term.var.injEq]
      exact eq_comm
    · exact isContradiction_iff

theorem holds_between {s t : Term} {c : Constraint} (h : between s t = some c) (γ : Valuation) :
    c.Holds γ ↔ s.eval γ ≠ t.eval γ := by
  cases s with
  | var x =>
    cases h
    exact holds_ordered x t γ
  | const d =>
    cases t with
    | var x =>
      cases h
      exact (holds_ordered x _ γ).trans ne_comm
    | const e => cases h

theorem mem_variables_between {s t : Term} {c : Constraint} (h : between s t = some c)
    {x : LogVar} : x ∈ c.variables ↔ s = .var x ∨ t = .var x := by
  cases s with
  | var y =>
    cases h
    rw [mem_variables_ordered, Term.var.injEq, @eq_comm _ x]
  | const d =>
    cases t with
    | var y =>
      cases h
      simp [mem_variables_ordered, @eq_comm _ x]
    | const e => cases h

theorem isContradiction_between {s t : Term} {c : Constraint} (h : between s t = some c) :
    c.isContradiction = true ↔ s = t := by
  cases s with
  | var y =>
    cases h
    exact isContradiction_ordered.trans eq_comm
  | const d =>
    cases t with
    | var y =>
      cases h
      simp [isContradiction_ordered]
    | const e => cases h

theorem between_eq_none {s t : Term} :
    between s t = none ↔ (∃ c, s = .const c) ∧ ∃ d, t = .const d := by
  cases s <;> cases t <;> simp [between]

/-- a constraint that survives a substitution holds after it where it held before -/
theorem holds_of_apply {c d : Constraint} {s : Substitution} (h : c.apply s = some d)
    (γ : Valuation) : d.Holds γ ↔ c.Holds (s.pull γ) := by
  rw [holds_between h, s.eval_apply, s.eval_apply]
  rfl

/-- a constraint between two constants after a substitution is violated or trivial -/
theorem holds_of_apply_none {c : Constraint} {s : Substitution} (h : c.apply s = none)
    (γ : Valuation) : c.Holds (s.pull γ) ↔ c.isViolatedBy s = false := by
  obtain ⟨⟨d, hd⟩, e, he⟩ := between_eq_none.mp h
  rw [isViolatedBy, beq_eq_false_iff_ne, Holds, ← s.eval_apply]
  show (s.apply (.var c.first)).eval γ ≠ _ ↔ _
  rw [hd, he]
  simp

theorem mem_variables_of_apply {c d : Constraint} {s : Substitution} (h : c.apply s = some d)
    {x : LogVar} : x ∈ d.variables ↔ ∃ y ∈ c.variables, s.apply (.var y) = .var x := by
  rw [mem_variables_between h]
  constructor
  · rintro (hx | hx)
    · exact ⟨c.first, mem_variables.mpr (.inl rfl), hx⟩
    · cases hc : c.second with
      | var y => exact ⟨y, mem_variables.mpr (.inr hc), hc ▸ hx⟩
      | const e =>
        rw [hc] at hx
        cases hx
  · rintro ⟨y, hy, hx⟩
    rcases mem_variables.mp hy with rfl | hy
    · exact .inl hx
    · exact .inr (hy ▸ hx)

/-! ### what a constraint asks of one variable -/

theorem excluded?_eq_some {c : Constraint} {x : LogVar} {d : Constant} :
    c.excluded? x = some d ↔ c.first = x ∧ c.second = .const d := by
  unfold excluded?
  split
  · rename_i h
    rw [Term.const?_eq_some]
    exact ⟨fun hs => ⟨h, hs⟩, And.right⟩
  · rename_i h
    simp [h]

theorem otherVar?_eq_some {c : Constraint} {x z : LogVar} :
    c.otherVar? x = some z ↔
      (c.first = x ∧ c.second = .var z) ∨ (c.first ≠ x ∧ c.first = z ∧ c.second = .var x) := by
  unfold otherVar? other?
  split
  · rename_i h
    simp [h]
  · rename_i h
    split
    · rename_i hs
      simp [h, hs, Term.var?]
    · rename_i hs
      simp [h, hs]

theorem mem_variables_of_otherVar? {c : Constraint} {x z : LogVar} (h : c.otherVar? x = some z) :
    x ∈ c.variables ∧ z ∈ c.variables ∧ ∀ y ∈ c.variables, y = x ∨ y = z := by
  simp only [mem_variables]
  rcases otherVar?_eq_some.mp h with ⟨rfl, hs⟩ | ⟨_, rfl, hs⟩
  · refine ⟨.inl rfl, .inr hs, fun y hy => hy.imp_right fun h => ?_⟩
    rw [hs, Term.var.injEq] at h
    exact h.symm
  · refine ⟨.inr hs, .inl rfl, fun y hy => hy.symm.imp_left fun h => ?_⟩
    rw [hs, Term.var.injEq] at h
    exact h.symm

theorem holds_iff_of_otherVar? {c : Constraint} {x z : LogVar} (h : c.otherVar? x = some z)
    {γ : Valuation} : c.Holds γ ↔ γ x ≠ γ z := by
  rcases otherVar?_eq_some.mp h with ⟨rfl, hs⟩ | ⟨_, rfl, hs⟩
  · rw [Holds, hs, Term.eval_var]
  · rw [Holds, hs, Term.eval_var]
    exact ne_comm

/-- a constraint on `x` excludes a constant or separates `x` from another variable -/
theorem cases_of_mem_variables {c : Constraint} {x : LogVar} (hc : c.isContradiction = false)
    (hx : x ∈ c.variables) :
    (∃ d, c.excluded? x = some d) ∨ ∃ z, z ≠ x ∧ c.otherVar? x = some z := by
  have hne : c.second ≠ .var c.first := fun h => by
    rw [isContradiction_iff.mpr h] at hc
    cases hc
  rcases mem_variables.mp hx with rfl | hs
  · cases hs : c.second with
    | const d => exact .inl ⟨d, excluded?_eq_some.mpr ⟨rfl, hs⟩⟩
    | var z =>
      refine .inr ⟨z, ?_, otherVar?_eq_some.mpr (.inl ⟨rfl, hs⟩)⟩
      rintro rfl
      exact hne hs
  · have hfx : c.first ≠ x := fun h => hne (h ▸ hs)
    exact .inr ⟨c.first, hfx, otherVar?_eq_some.mpr (.inr ⟨hfx, rfl, hs⟩)⟩

end Constraint

namespace ConstraintSet

/-- every constraint holds -/
def Holds (cs : ConstraintSet) (γ : Valuation) : Prop := ∀ c ∈ cs, c.Holds γ

instance (cs : ConstraintSet) (γ : Valuation) : Decidable (cs.Holds γ) :=
  decidable_of_iff (∀ c ∈ cs.toList, c.Holds γ) Iff.rfl

theorem mem_variables {cs : ConstraintSet} {x : LogVar} :
    x ∈ cs.variables ↔ ∃ c ∈ cs, x ∈ c.variables := by
  rw [ConstraintSet.variables, List.mem_flatMap]
  rfl

theorem holds_congr {cs : ConstraintSet} {γ δ : Valuation} (h : ∀ x ∈ cs.variables, γ x = δ x) :
    cs.Holds γ ↔ cs.Holds δ :=
  forall₂_congr fun c hc =>
    Constraint.holds_congr fun x hx => h x (mem_variables.mpr ⟨c, hc, hx⟩)

theorem holds_insert {cs : ConstraintSet} {c : Constraint} {γ : Valuation} :
    Holds (cs.insert c) γ ↔ c.Holds γ ∧ cs.Holds γ := by
  constructor
  · exact fun h => ⟨h c (SortedSet.mem_insert.mpr (.inl rfl)),
      fun d hd => h d (SortedSet.mem_insert.mpr (.inr hd))⟩
  · rintro ⟨hc, hcs⟩ d hd
    rcases SortedSet.mem_insert.mp hd with rfl | hd
    · exact hc
    · exact hcs d hd

theorem holds_union {cs ds : ConstraintSet} {γ : Valuation} :
    Holds (cs.union ds) γ ↔ cs.Holds γ ∧ ds.Holds γ := by
  constructor
  · exact fun h => ⟨fun c hc => h c (SortedSet.mem_union.mpr (.inl hc)),
      fun c hc => h c (SortedSet.mem_union.mpr (.inr hc))⟩
  · rintro ⟨hc, hd⟩ c h
    exact (SortedSet.mem_union.mp h).elim (hc c) (hd c)

theorem mem_onVariable {cs : ConstraintSet} {x : LogVar} {c : Constraint} :
    c ∈ cs.onVariable x ↔ c ∈ cs ∧ x ∈ c.variables := by
  rw [onVariable, SortedSet.mem_filter, Constraint.mentions_iff]

theorem mem_notOnVariable {cs : ConstraintSet} {x : LogVar} {c : Constraint} :
    c ∈ cs.notOnVariable x ↔ c ∈ cs ∧ x ∉ c.variables := by
  rw [notOnVariable, SortedSet.mem_filter, ← Constraint.mentions_iff, Bool.not_eq_true',
    Bool.not_eq_true]

theorem separates_iff {cs : ConstraintSet} {x : LogVar} {t : Term} :
    cs.separates x t = true ↔ Constraint.ordered x t ∈ cs := SortedSet.contains_iff_mem

theorem Holds.of_separates {cs : ConstraintSet} {γ : Valuation} (h : cs.Holds γ) {x : LogVar}
    {t : Term} (hs : cs.separates x t = true) : γ x ≠ t.eval γ :=
  (Constraint.holds_ordered x t γ).mp (h _ (separates_iff.mp hs))

/-- **Rewriting of constraints is exact**: the constraints after a substitution hold where those
before it held. -/
theorem holds_apply {cs ds : ConstraintSet} {s : Substitution} (h : cs.apply s = some ds)
    (γ : Valuation) : ds.Holds γ ↔ cs.Holds (s.pull γ) := by
  constructor
  · intro hd c hc
    cases hca : c.apply s with
    | some d =>
      exact (Constraint.holds_of_apply hca γ).mp (hd d ((mem_of_apply h).mpr ⟨c, hc, hca⟩))
    | none =>
      refine (Constraint.holds_of_apply_none hca γ).mpr ?_
      by_contra hv
      have hnone := apply_eq_none.mpr ⟨c, hc, Bool.eq_true_of_not_eq_false hv⟩
      rw [h] at hnone
      cases hnone
  · intro hc d hd
    obtain ⟨c, hcs, hca⟩ := (mem_of_apply h).mp hd
    exact (Constraint.holds_of_apply hca γ).mpr (hc c hcs)

theorem not_holds_of_apply_none {cs : ConstraintSet} {s : Substitution} (h : cs.apply s = none)
    (γ : Valuation) : ¬ cs.Holds (s.pull γ) := by
  obtain ⟨c, hc, hv⟩ := apply_eq_none.mp h
  intro hcs
  refine hcs c hc ?_
  rw [← s.eval_apply]
  exact congrArg (Term.eval γ) (beq_iff_eq.mp hv)

/-- dropping the constraints between constants loses nothing where none of them is violated -/
theorem holds_filterMap_apply {cs : ConstraintSet} {s : Substitution} {γ : Valuation}
    (h : ∀ c ∈ cs, c.apply s = none → c.isViolatedBy s = false) :
    Holds (cs.filterMap (·.apply s)) γ ↔ cs.Holds (s.pull γ) := by
  constructor
  · intro hd c hc
    cases hca : c.apply s with
    | some d =>
      exact (Constraint.holds_of_apply hca γ).mp (hd d (SortedSet.mem_filterMap.mpr ⟨c, hc, hca⟩))
    | none => exact (Constraint.holds_of_apply_none hca γ).mpr (h c hc hca)
  · intro hc d hd
    obtain ⟨c, hcs, hca⟩ := SortedSet.mem_filterMap.mp hd
    exact (Constraint.holds_of_apply hca γ).mpr (hc c hcs)

theorem mem_variables_of_apply {cs ds : ConstraintSet} {s : Substitution}
    (h : cs.apply s = some ds) {x : LogVar} (hx : x ∈ ds.variables) :
    ∃ y ∈ cs.variables, s.apply (.var y) = .var x := by
  obtain ⟨d, hd, hxd⟩ := mem_variables.mp hx
  obtain ⟨c, hc, hca⟩ := (mem_of_apply h).mp hd
  obtain ⟨y, hy, hyx⟩ := (Constraint.mem_variables_of_apply hca).mp hxd
  exact ⟨y, mem_variables.mpr ⟨c, hc, hy⟩, hyx⟩

theorem not_isContradiction_of_apply {cs ds : ConstraintSet} {s : Substitution}
    (h : cs.apply s = some ds) {d : Constraint} (hd : d ∈ ds) : d.isContradiction = false := by
  obtain ⟨c, hc, hca⟩ := (mem_of_apply h).mp hd
  by_contra hcon
  have heq := (Constraint.isContradiction_between hca).mp (Bool.eq_true_of_not_eq_false hcon)
  have hnone := apply_eq_none.mpr ⟨c, hc, beq_iff_eq.mpr heq⟩
  rw [h] at hnone
  cases hnone

end ConstraintSet

/-! ## atoms -/

/-- a functor applied to individuals -/
structure GroundAtom where
  functor : String
  args : List Constant
deriving DecidableEq

/-- a ground atom with the range of its values -/
structure RandomVariable where
  atom : GroundAtom
  range : Range
deriving DecidableEq

namespace Atom

/-- the ground instance of an atom -/
def ground (a : Atom) (γ : Valuation) : GroundAtom := ⟨a.functor, a.terms.map (·.eval γ)⟩

/-- the random variable of an atom -/
def groundVar (a : Atom) (γ : Valuation) : RandomVariable := ⟨a.ground γ, a.range⟩

theorem ground_apply (a : Atom) (s : Substitution) (γ : Valuation) :
    (a.apply s).ground γ = a.ground (s.pull γ) := by
  unfold ground apply
  rw [List.map_map]
  exact congrArg _ (List.map_congr_left fun t _ => s.eval_apply γ t)

theorem groundVar_apply (a : Atom) (s : Substitution) (γ : Valuation) :
    (a.apply s).groundVar γ = a.groundVar (s.pull γ) := by
  unfold groundVar
  rw [ground_apply, apply_range]

theorem ground_congr {a : Atom} {γ δ : Valuation} (h : ∀ x ∈ a.variables, γ x = δ x) :
    a.ground γ = a.ground δ := by
  unfold ground
  refine congrArg _ (List.map_congr_left fun t ht => ?_)
  cases t with
  | var x => exact h x (mem_variables.mpr ht)
  | const c => rfl

theorem groundVar_congr {a : Atom} {γ δ : Valuation} (h : ∀ x ∈ a.variables, γ x = δ x) :
    a.groundVar γ = a.groundVar δ := by
  unfold groundVar
  rw [ground_congr h]

theorem eq_of_ground_eq {a : Atom} {γ δ : Valuation} (h : a.ground γ = a.ground δ) {x : LogVar}
    (hx : x ∈ a.variables) : γ x = δ x := by
  have hl : a.terms.map (·.eval γ) = a.terms.map (·.eval δ) := congrArg GroundAtom.args h
  exact List.map_inj_left.mp hl _ (mem_variables.mp hx)

theorem mem_variables_apply {a : Atom} {s : Substitution} {x : LogVar} :
    x ∈ (a.apply s).variables ↔ ∃ y ∈ a.variables, s.apply (.var y) = .var x := by
  rw [mem_variables]
  constructor
  · intro h
    obtain ⟨t, ht, htx⟩ := List.mem_map.mp h
    cases t with
    | var y => exact ⟨y, mem_variables.mpr ht, htx⟩
    | const c => cases htx
  · rintro ⟨y, hy, hyx⟩
    exact List.mem_map.mpr ⟨_, mem_variables.mp hy, hyx⟩

end Atom

end LiftedElimination
