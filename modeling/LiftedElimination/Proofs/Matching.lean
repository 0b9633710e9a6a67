import LiftedElimination.Proofs.Separation
import LiftedElimination.Proofs.Counted

/-!
# The renaming between identical extents

Where two extents are found identical, the unifier pairs the variables of the two atoms.  The
renaming sends every free variable of one atom to its partner in the other one, and touches nothing
else.

* `back_away`          the way back undoes the renaming apart;
* `Identical`          what the comparison has found;
* `Partner`            two variables at the same places of the two atoms;
* `Identical.carry`    an instance of one atom, read at the partners, is one of the other;
* `Renames`            what the renaming does, and `renames_of_renaming?`.
-/

namespace LiftedElimination

namespace Extent

variable {a b : Extent} {o : Overlap} {rho : Substitution} {x y z : LogVar}

/-! ## the way back -/

/-- **The way back** undoes the renaming apart. -/
theorem back_away {e other : Extent} (hx : x ∈ e.atom.variables)
    (h : (e.away other).apply (.var x) = .var z) :
    (e.apartFrom other).2.apply (.var z) = .var x := by
  have hpairs := freshPairs other.names (other.names ++ e.names) e.atom.variables
  have hget : (e.apartFrom other).2.get? z
      = (((freshVars other.names (other.names ++ e.names) e.atom.variables).map
          fun p => (p.2, p.1)).find? (·.1 = z)).map (.var ·.2) := get?_replacing _ z
  rcases away_cases other hx with ⟨hxx, -⟩ | ⟨w, hw, -, -, hp⟩
  · cases Term.var.inj (hxx.symm.trans h)
    refine Substitution.apply_of_get?_none ?_
    rw [hget, Option.map_eq_none_iff, List.find?_eq_none]
    intro p hp hpx
    obtain ⟨r, hr, rfl⟩ := List.mem_map.mp hp
    have hname : r.2.name = x.name := congrArg LogVar.name (of_decide_eq_true hpx)
    exact hpairs.fresh r hr (List.mem_append_right _ (hname ▸ name_mem hx))
  · cases Term.var.inj (hw.symm.trans h)
    cases hf : ((freshVars other.names (other.names ++ e.names) e.atom.variables).map
        fun p => (p.2, p.1)).find? (·.1 = z) with
    | none =>
      have hnone := List.find?_eq_none.mp hf _ (List.mem_map_of_mem hp)
      exact absurd (decide_eq_true rfl) hnone
    | some p =>
      obtain ⟨r, hr, rfl⟩ := List.mem_map.mp (List.mem_of_find?_eq_some hf)
      have hrz : r.2 = z := by simpa using List.find?_some hf
      have hrx : r = (x, z) := List.inj_on_of_nodup_map hpairs.names hr hp
        (congrArg LogVar.name hrz)
      rw [hf] at hget
      rw [Substitution.apply_of_mem (Substitution.get?_eq_some.mp hget), hrx]

/-! ## identical extents -/

/-- the unifier of two closed extents of which neither needs a refinement -/
structure Identical (a b : Extent) (o : Overlap) : Prop where
  right : o.right = (b.apartFrom a).1
  back : o.back = (b.apartFrom a).2
  closed : b.IsClosed
  covered : Covered a o.right o.theta
  covers : Covered o.right a o.theta

theorem back_of_overlap? (h : a.overlap? b = some o) : o.back = (b.apartFrom a).2 := by
  simp only [overlap?] at h
  split at h
  · split at h
    · cases h
    · split at h
      · split at h
        · cases h
        · split at h
          · cases h
            rfl
          · cases h
      · cases h
  · cases h

/-- extents that are renamed to one another overlap -/
theorem exists_overlap_of_renaming? (h : a.renaming? b = some rho) : ∃ o, a.overlap? b = some o := by
  unfold renaming? at h
  split at h
  · split at h
    · cases h
    · exact ⟨_, ‹_›⟩
  · cases h

theorem renaming?_ok (ha : a.IsClosed) (hb : b.IsClosed) (h : a.renaming? b = some rho) :
    ∃ o, Identical a b o ∧ a.renameFrom o o.right.atom.variables .identity = some rho := by
  unfold renaming? at h
  split at h
  · rename_i hcompare
    have hident : a.compare b = .overlapping none none := by
      unfold Relation.isIdentical at hcompare
      split at hcompare
      · assumption
      · cases hcompare
    obtain ⟨o, ho, hl, hr⟩ := compare_eq_overlapping hident
    rw [ho] at h
    have hover := overlaps_of_overlap? ho
    exact ⟨o, ⟨hover.right, back_of_overlap? ho, hb, hover.covered hb hl,
      hover.covered_right ha (Option.map_eq_none_iff.mp hr)⟩, h⟩
  · cases h

/-- `z` of the right atom and `x` of the left atom have one image -/
structure Partner (a b : Extent) (o : Overlap) (z x : LogVar) : Prop where
  left_mem : z ∈ b.atom.variables
  right_mem : x ∈ a.atom.variables
  image : o.theta.apply ((b.away a).apply (.var z)) = o.theta.apply (.var x)

namespace Identical

/-- a variable of the right atom under its name for the unification -/
theorem exists_away (h : Identical a b o) (hz : z ∈ b.atom.variables) :
    ∃ y ∈ o.right.atom.variables, (b.away a).apply (.var z) = .var y
      ∧ y.population = z.population ∧ o.back.apply (.var y) = .var z := by
  obtain ⟨y, hy, hpop⟩ := away_isRenaming b a z
  refine ⟨y, ?_, hy, hpop, ?_⟩
  · rw [h.right]
    exact Atom.mem_variables_apply.mpr ⟨z, hz, hy⟩
  · rw [h.back]
    exact back_away hz hy

theorem exists_of_mem_right (h : Identical a b o) (hy : y ∈ o.right.atom.variables) :
    ∃ z ∈ b.atom.variables, (b.away a).apply (.var z) = .var y := by
  rw [h.right] at hy
  exact Atom.mem_variables_apply.mp hy

theorem partner_unique (h : Identical a b o) {x' : LogVar} (hx : Partner a b o z x)
    (hx' : Partner a b o z x') : x = x' :=
  h.covered.injOn x hx.right_mem x' hx'.right_mem (hx.image.symm.trans hx'.image)

theorem partner_injective (h : Identical a b o) {z' : LogVar} (hz : Partner a b o z x)
    (hz' : Partner a b o z' x) : z = z' := by
  obtain ⟨y, hy, hzy, -⟩ := h.exists_away hz.left_mem
  obtain ⟨y', hy', hzy', -⟩ := h.exists_away hz'.left_mem
  have himage := hz.image.trans hz'.image.symm
  rw [hzy, hzy'] at himage
  have hyy := h.covers.injOn y hy y' hy' himage
  exact away_injOn b a z hz.left_mem z' hz'.left_mem (by rw [hzy, hzy', hyy])

/-- every variable of the left atom has a partner -/
theorem exists_partner (h : Identical a b o) (hx : x ∈ a.atom.variables) :
    ∃ z, Partner a b o z x := by
  obtain ⟨w, hw⟩ := h.covered.var x hx
  have hmem := List.mem_map_of_mem (f := o.theta.apply) (Atom.mem_variables.mp hx)
  rw [h.covered.terms, hw] at hmem
  obtain ⟨t, ht, htw⟩ := List.mem_map.mp hmem
  cases t with
  | const c => cases htw
  | var y =>
    obtain ⟨z, hz, hzy⟩ := h.exists_of_mem_right (Atom.mem_variables.mpr ht)
    exact ⟨z, hz, hx, by rw [hzy, htw, hw]⟩

theorem population_eq (h : Identical a b o) (hx : Partner a b o z x) :
    x.population = z.population := by
  obtain ⟨y, hy, hzy, hpop, -⟩ := h.exists_away hx.left_mem
  have himage := hx.image
  rw [hzy] at himage
  obtain ⟨w, hw⟩ := h.covered.var x hx.right_mem
  rcases population_apply h.covered.populations x with ⟨w', hw', hxw⟩ | ⟨c, hc, -⟩
  · rcases population_apply h.covered.populations y with ⟨v, hv, hyv⟩ | ⟨c, hc, -⟩
    · rw [hw', hv] at himage
      rw [← hxw, ← Term.var.inj himage, hyv, hpop]
    · rw [hw', hc] at himage
      cases himage
  · rw [hw] at hc
    cases hc

/-- **An instance of the right atom**, read at the partners, is one of the left atom. -/
theorem carry (h : Identical a b o) {γ : Valuation} (hγ : γ.Solves b.constraints b.atom.variables) :
    ∃ δ : Valuation, δ.Solves a.constraints a.atom.variables
      ∧ ∀ z x, Partner a b o z x → δ x = γ z := by
  obtain ⟨ε, hε⟩ := Substitution.exists_pull (away_isRenaming b a) (away_injOn b a) γ
  have hsolves : ε.Solves o.right.constraints o.right.atom.variables := by
    rw [h.right]
    exact (solves_apartFrom h.closed).mpr (hγ.congr fun x hx => (hε x hx).symm)
  refine ⟨Covered.carry o.right o.theta ε,
    ⟨fun x hx => h.covers.carry_mem hsolves hx, fun c hc _ => h.covers.holds_carry hsolves hc⟩,
    fun z x hx => ?_⟩
  obtain ⟨y, hy, hzy, -⟩ := h.exists_away hx.left_mem
  have himage := hx.image
  rw [hzy] at himage
  have hown := toOwn_apply h.covers.var h.covers.injOn (t := .var y) fun _ ht =>
    Term.var.inj ht ▸ hy
  rw [Covered.carry, Covered.unifiedValue, ← himage, hown, ← hε z hx.left_mem,
    Substitution.pull, hzy]
  rfl

/-- every variable of the right atom has a partner -/
theorem exists_partner_right (h : Identical a b o) (hz : z ∈ b.atom.variables) :
    ∃ x, Partner a b o z x := by
  obtain ⟨y, hy, hzy, -⟩ := h.exists_away hz
  obtain ⟨w, hw⟩ := h.covers.var y hy
  have hmem := List.mem_map_of_mem (f := o.theta.apply) (Atom.mem_variables.mp hy)
  rw [h.covers.terms, hw] at hmem
  obtain ⟨t, ht, htw⟩ := List.mem_map.mp hmem
  cases t with
  | const c => cases htw
  | var x => exact ⟨x, hz, Atom.mem_variables.mpr ht, by rw [hzy, hw, htw]⟩

/-- an inequality of two variables of the left atom is one of their partners -/
theorem exists_constraint (h : Identical a b o) {c : Constraint} (hc : c ∈ a.constraints)
    {x' z' : LogVar} (hvar : c.otherVar? x = some x') (hz : Partner a b o z x)
    (hz' : Partner a b o z' x') :
    ∃ k ∈ b.constraints, z ∈ k.variables ∧ z' ∈ k.variables := by
  obtain ⟨y, hy, hzy, -⟩ := h.exists_away hz.left_mem
  obtain ⟨y', hy', hzy', -⟩ := h.exists_away hz'.left_mem
  have hown : ∀ {u v : LogVar}, v ∈ o.right.atom.variables →
      o.theta.apply (.var v) = o.theta.apply (.var u) →
      toOwn o.theta o.right.atom.variables (o.theta.apply (.var u)) = some (.var v) := by
    intro u v hv huv
    rw [← huv]
    exact toOwn_apply h.covers.var h.covers.injOn fun _ ht => Term.var.inj ht ▸ hv
  have hx := hown hy (hzy ▸ hz.image)
  have hx' := hown hy' (hzy' ▸ hz'.image)
  have hk : toOwnConstraint o.theta o.right.atom.variables c = some (.ordered y (.var y')) := by
    rcases Constraint.otherVar?_eq_some.mp hvar with ⟨rfl, hsecond⟩ | ⟨-, rfl, hsecond⟩
    · rw [toOwnConstraint, hsecond, hx, hx']
      rfl
    · rw [toOwnConstraint, hsecond, hx, hx']
      exact congrArg some (Constraint.ordered_comm y' y)
  have hentails := h.covers.entailed c hc _ hk
  have hmem : Constraint.ordered y (.var y') ∈ o.right.constraints := by
    have hvar : ∃ v, (Constraint.ordered y (.var y')).second = .var v := by
      rw [Constraint.ordered_var]
      split
      · exact ⟨y, rfl⟩
      · exact ⟨y', rfl⟩
    obtain ⟨v, hv⟩ := hvar
    rw [entails, hv, Bool.or_false] at hentails
    exact SortedSet.contains_iff_mem.mp hentails
  rw [h.right] at hmem
  obtain ⟨k, hk, happly⟩ := SortedSet.mem_filterMap.mp hmem
  have hback : ∀ {u v : LogVar}, u ∈ b.atom.variables → (b.away a).apply (.var u) = .var v →
      v ∈ (Constraint.ordered y (.var y')).variables → u ∈ k.variables := by
    intro u v hu huv hv
    obtain ⟨u', hu', huv'⟩ := (Constraint.mem_variables_of_apply happly).mp hv
    have hmem := h.closed u' (ConstraintSet.mem_variables.mpr ⟨k, hk, hu'⟩)
    rw [away_injOn b a u hu u' hmem (huv.trans huv'.symm)]
    exact hu'
  exact ⟨k, hk, hback hz.left_mem hzy (Constraint.mem_variables_ordered.mpr (.inl rfl)),
    hback hz'.left_mem hzy' (Constraint.mem_variables_ordered.mpr (.inr rfl))⟩

end Identical

/-! ## the renaming -/

/-- where a binding of the renaming comes from -/
def BindsPartner (a : Extent) (o : Overlap) (b : Binding) : Prop :=
  ∃ y ∈ o.right.atom.variables, ∃ x ∈ a.atom.variables, o.theta.apply (.var x) = o.theta.apply (.var y)
    ∧ o.right.counted ≠ some y ∧ o.back.apply (.var y) = .var b.source ∧ b.target = .var x

/-- what the renaming does with a variable of the right atom -/
def SendsPartner (a : Extent) (o : Overlap) (rho : Substitution) (y : LogVar) : Prop :=
  ∃ x ∈ a.atom.variables, o.theta.apply (.var x) = o.theta.apply (.var y)
    ∧ (o.right.counted = some y ↔ a.counted = some x)
    ∧ (o.right.counted ≠ some y → ∃ z, o.back.apply (.var y) = .var z
      ∧ (z = x ∨ (⟨z, .var x⟩ : Binding) ∈ rho.bindings))

theorem SendsPartner.mono {rho' : Substitution} (h : SendsPartner a o rho y)
    (hsub : ∀ b ∈ rho.bindings, b ∈ rho'.bindings) : SendsPartner a o rho' y := by
  obtain ⟨x, hx, himage, hcounted, hbind⟩ := h
  refine ⟨x, hx, himage, hcounted, fun hy => ?_⟩
  obtain ⟨z, hz, hzx⟩ := hbind hy
  exact ⟨z, hz, hzx.imp_right (hsub _)⟩

/-- one variable of the right atom is sent to its partner, by a binding if it has another name -/
theorem renameFrom_cons_ok {y : LogVar} {ys : List LogVar} (hy : y ∈ o.right.atom.variables)
    {rho₀ : Substitution} (h₀ : ∀ b ∈ rho₀.bindings, BindsPartner a o b)
    (h : a.renameFrom o (y :: ys) rho₀ = some rho) : ∃ rho₁, a.renameFrom o ys rho₁ = some rho
      ∧ (∀ b ∈ rho₀.bindings, b ∈ rho₁.bindings) ∧ (∀ b ∈ rho₁.bindings, BindsPartner a o b)
      ∧ SendsPartner a o rho₁ y := by
  rw [renameFrom] at h
  split at h
  · cases h
  rename_i x hfind
  have hx := List.mem_of_find?_eq_some hfind
  have himage : o.theta.apply (.var x) = o.theta.apply (.var y) := by
    simpa using List.find?_some hfind
  split at h
  · cases h
  rename_i hsame
  have hcounted : o.right.counted = some y ↔ a.counted = some x := by
    rw [Bool.not_eq_true, bne_eq_false_iff_eq, Bool.eq_iff_iff, beq_iff_eq, beq_iff_eq] at hsame
    exact hsame
  split at h
  · rename_i hy
    exact ⟨rho₀, h, fun _ hb => hb, h₀, x, hx, himage, hcounted, fun hne => absurd hy hne⟩
  rename_i hne
  split at h
  · cases h
  rename_i z hz
  have hback : o.back.apply (.var y) = .var z := Term.var?_eq_some.mp hz
  split at h
  · rename_i hzx
    exact ⟨rho₀, h, fun _ hb => hb, h₀, x, hx, himage, hcounted, fun _ => ⟨z, hback, .inl hzx⟩⟩
  split at h
  · cases h
  rename_i rho₁ hbind
  have hmem := fun c => Substitution.mem_bindings_bind hbind (c := c)
  refine ⟨rho₁, h, fun b hb => (hmem b).mpr (.inr hb), fun b hb => ?_,
    x, hx, himage, hcounted, fun _ => ⟨z, hback, .inr ((hmem _).mpr (.inl rfl))⟩⟩
  rcases (hmem b).mp hb with rfl | hb
  · exact ⟨y, hy, x, hx, himage, hne, hback, rfl⟩
  · exact h₀ b hb

/-- every listed variable is sent to its partner, and nothing else is bound -/
theorem renameFrom_ok {ys : List LogVar} (hys : ∀ y ∈ ys, y ∈ o.right.atom.variables)
    {rho₀ : Substitution} (h₀ : ∀ b ∈ rho₀.bindings, BindsPartner a o b)
    (h : a.renameFrom o ys rho₀ = some rho) : (∀ b ∈ rho₀.bindings, b ∈ rho.bindings)
      ∧ (∀ b ∈ rho.bindings, BindsPartner a o b) ∧ ∀ y ∈ ys, SendsPartner a o rho y := by
  induction ys generalizing rho₀ with
  | nil =>
    cases h
    exact ⟨fun _ hb => hb, h₀, fun y hy => absurd hy List.not_mem_nil⟩
  | cons y ys ih =>
    obtain ⟨rho₁, hrest, hsub, h₁, hsends⟩ := renameFrom_cons_ok (hys y List.mem_cons_self) h₀ h
    obtain ⟨hsub₁, hbinds, hothers⟩ := ih (fun z hz => hys z (List.mem_cons_of_mem _ hz)) h₁ hrest
    refine ⟨fun b hb => hsub₁ b (hsub b hb), hbinds, fun z hz => ?_⟩
    rcases List.mem_cons.mp hz with rfl | hz
    · exact hsends.mono hsub₁
    · exact hothers z hz

/-- the counted variable is renamed apart like the others -/
theorem counted_right (h : Identical a b o) (hb : ∀ z, b.counted = some z → z ∈ b.atom.variables)
    (hz : z ∈ b.atom.variables) (hzy : (b.away a).apply (.var z) = .var y) :
    o.right.counted = some y ↔ b.counted = some z := by
  have hcounted : o.right.counted = b.counted.map (rename (b.away a)) := by
    rw [h.right]
    rfl
  rw [hcounted, Option.map_eq_some_iff]
  constructor
  · rintro ⟨z', hz', hy⟩
    obtain ⟨y', hy', -⟩ := away_isRenaming b a z'
    rw [rename, hy'] at hy
    have hyy : y' = y := hy
    rw [away_injOn b a z hz z' (hb z' hz') (by rw [hzy, hy', hyy])]
    exact hz'
  · intro hz'
    refine ⟨z, hz', ?_⟩
    rw [rename, hzy]
    rfl

/-- every binding of the renaming belongs to a variable of the right atom and its partner -/
theorem BindsPartner.exists_partner {c : Binding} (h : BindsPartner a o c) (ho : Identical a b o) :
    ∃ x y, Partner a b o c.source x ∧ c.target = .var x
      ∧ (b.away a).apply (.var c.source) = .var y ∧ o.right.counted ≠ some y := by
  obtain ⟨y, hy, x, hx, himage, hne, hback, htarget⟩ := h
  obtain ⟨z, hz, hzy⟩ := ho.exists_of_mem_right hy
  have hsource : z = c.source := by
    have haway := back_away hz hzy
    rw [← ho.back, hback] at haway
    exact (Term.var.inj haway).symm
  subst hsource
  exact ⟨x, y, ⟨hz, hx, by rw [hzy, himage]⟩, htarget, hzy, hne⟩

/-- variables are only renamed within their populations -/
theorem isRenaming_of_renaming? (ha : a.IsClosed) (hb : b.IsClosed) (h : a.renaming? b = some rho) :
    rho.IsRenaming := by
  obtain ⟨o, ho, hrename⟩ := renaming?_ok ha hb h
  obtain ⟨-, hbinds, -⟩ := renameFrom_ok (fun _ hy => hy)
    (fun c hc => absurd hc List.not_mem_nil) hrename
  refine Substitution.isRenaming_of_get? fun z t ht => ?_
  obtain ⟨x, -, hx, htarget, -, -⟩ :=
    (hbinds _ (Substitution.get?_eq_some.mp ht)).exists_partner ho
  exact ⟨x, htarget, ho.population_eq hx⟩

/-- **What the renaming does**: free variables go to their partners, counted variables have counted
partners, and everything else stays. -/
structure Renames (a b : Extent) (o : Overlap) (rho : Substitution) : Prop where
  identical : Identical a b o
  free : ∀ z x, Partner a b o z x → b.counted ≠ some z → rho.apply (.var z) = .var x
  counted : ∀ z x, Partner a b o z x → (b.counted = some z ↔ a.counted = some x)
  outside : ∀ z, z ∉ b.atom.variables ∨ b.counted = some z → rho.apply (.var z) = .var z

theorem renames_of_renaming? (ha : a.IsClosed) (hb : b.IsClosed)
    (hcounted : ∀ z, b.counted = some z → z ∈ b.atom.variables) (h : a.renaming? b = some rho) :
    ∃ o, Renames a b o rho := by
  obtain ⟨o, ho, hrename⟩ := renaming?_ok ha hb h
  obtain ⟨-, hbinds, hsends⟩ := renameFrom_ok (fun _ hy => hy)
    (fun c hc => absurd hc List.not_mem_nil) hrename
  have hbinding : ∀ z t, rho.get? z = some t →
      ∃ x, Partner a b o z x ∧ b.counted ≠ some z ∧ t = .var x := by
    intro z t ht
    obtain ⟨x, y, hx, rfl, hzy, hne⟩ := (hbinds _ (Substitution.get?_eq_some.mp ht)).exists_partner ho
    exact ⟨x, hx, fun h => hne ((counted_right ho hcounted hx.left_mem hzy).mpr h), rfl⟩
  have hpartner : ∀ z x, Partner a b o z x → (b.counted = some z ↔ a.counted = some x)
      ∧ (b.counted ≠ some z → rho.apply (.var z) = .var x) := by
    intro z x hx
    obtain ⟨y, hy, hzy, -, hback⟩ := ho.exists_away hx.left_mem
    obtain ⟨x', hx', himage, hiff, hbind⟩ := hsends y hy
    have hxx : x' = x :=
      ho.partner_unique ⟨hx.left_mem, hx', by rw [hzy, himage]⟩ hx
    subst hxx
    have hright := counted_right ho hcounted hx.left_mem hzy
    refine ⟨hright.symm.trans hiff, fun hne => ?_⟩
    obtain ⟨z', hz', hcases⟩ := hbind fun h => hne (hright.mp h)
    cases Term.var.inj (hback.symm.trans hz')
    rcases hcases with rfl | hmem
    · cases hget : rho.get? z with
      | none => exact Substitution.apply_of_get?_none hget
      | some t =>
        obtain ⟨w, hw, -, rfl⟩ := hbinding z t hget
        rw [Substitution.apply_of_mem (Substitution.get?_eq_some.mp hget)]
        exact congrArg _ (ho.partner_unique hw hx)
    · exact Substitution.apply_of_mem hmem
  refine ⟨o, ho, fun z x hx hne => (hpartner z x hx).2 hne, fun z x hx => (hpartner z x hx).1,
    fun z hz => Substitution.apply_of_get?_none ?_⟩
  cases hget : rho.get? z with
  | none => rfl
  | some t =>
    obtain ⟨x, hx, hne, -⟩ := hbinding z t hget
    exact absurd hz (not_or.mpr ⟨fun h => h hx.left_mem, hne⟩)

end Extent

end LiftedElimination
