import LiftedElimination.Proofs.Guarded
import LiftedElimination.Proofs.Inherited

/-!
# Counting, expanding and grounding meet only errors without a guard

Each operation asks before it starts whether it applies.  What is asked is enough for a whole
expansion or grounding: the splits and the expansions on the way are possible, for what is taken out
of a group or of a domain leaves the other individuals there.

* `Parfactor.errorsIn_count`, `errorsIn_expandAll`, `errorsIn_groundAll`   one parfactor;
* `ConstraintSet.Roomy`, `Parfactor.Groundable`   what lets a variable be grounded on its individuals
                             one by one;
* `Component.closed_regular` all steps stay inside a schema.
-/

namespace LiftedElimination

variable {K : Type} {s : Schema}

/-! ## room for groundings -/

namespace ConstraintSet

/-- the inequalities relate `x` to variables with a choice only: grounding another variable because
it has one individual left does not take anybody away from `x` -/
def Roomy (cs : ConstraintSet) (x : LogVar) : Prop :=
  ∃ S : Set LogVar, x ∈ S ∧ (∀ c ∈ cs, ∀ y ∈ c.variables, y ∈ S → ∀ z ∈ c.variables, z ∈ S)
    ∧ ∀ y ∈ S, y ≠ x → ∃ a b, a ≠ b ∧ a ∈ y.domain cs ∧ b ∈ y.domain cs

variable {cs ds : ConstraintSet} {x z : LogVar} {c d : Constant}

/-- an individual excluded from `x` -/
theorem Roomy.insert (h : cs.Roomy x) : Roomy (cs.insert (.ofBinding ⟨x, .const c⟩)) x := by
  obtain ⟨S, hx, hclosed, hroom⟩ := h
  have hdomain : ∀ {y : LogVar} {a : Constant}, y ≠ x → a ∈ y.domain cs →
      a ∈ y.domain (cs.insert (.ofBinding ⟨x, .const c⟩)) := by
    intro y a hyx ha
    obtain ⟨hpop, hnot⟩ := LogVar.mem_domain.mp ha
    refine LogVar.mem_domain.mpr ⟨hpop, fun k hk => ?_⟩
    rcases SortedSet.mem_insert.mp hk with rfl | hk
    · exact fun h => hyx (Constraint.excluded?_eq_some.mp h).1.symm
    · exact hnot k hk
  refine ⟨S, hx, fun k hk y hy hyS z hz => ?_, fun y hyS hyx => ?_⟩
  · rcases SortedSet.mem_insert.mp hk with rfl | hk
    · rcases Constraint.mem_variables.mp hz with rfl | hz
      · exact hx
      · cases hz
    · exact hclosed k hk y hy hyS z hz
  · obtain ⟨a, b, hab, ha, hb⟩ := hroom y hyS hyx
    exact ⟨a, b, hab, hdomain hyx ha, hdomain hyx hb⟩

/-- no inequality mentions a variable that has become an individual -/
theorem notMem_of_apply_single (happly : cs.apply (.single ⟨z, .const d⟩) = some ds) :
    ∀ k ∈ ds, z ∉ k.variables := by
  intro k hk hzk
  obtain ⟨k', -, hk'⟩ := (mem_of_apply happly).mp hk
  obtain ⟨y, -, hy⟩ := (Constraint.mem_variables_of_apply hk').mp hzk
  rcases Substitution.apply_single_eq_var.mp hy with ⟨-, hself⟩ | ⟨-, ht⟩
  · exact hself rfl
  · cases ht

/-- what is said about variables that `z` is not related to is said before already -/
theorem mem_of_apply_single {S : Set LogVar} (hcs : cs.IsOrdered)
    (happly : cs.apply (.single ⟨z, .const d⟩) = some ds) (hz : z ∉ S)
    (hclosed : ∀ k ∈ cs, ∀ y ∈ k.variables, y ∈ S → ∀ z ∈ k.variables, z ∈ S) :
    ∀ k ∈ ds, ∀ y ∈ k.variables, y ∈ S → k ∈ cs := by
  intro k hk y hy hyS
  obtain ⟨k', hk', happly'⟩ := (mem_of_apply happly).mp hk
  obtain ⟨y', hy', hyy'⟩ := (Constraint.mem_variables_of_apply happly').mp hy
  rcases Substitution.apply_single_eq_var.mp hyy' with ⟨heq, -⟩ | ⟨-, ht⟩
  · cases heq
    have hout : z ∉ k'.variables := fun hmem => hz (hclosed k' hk' y hy' hyS z hmem)
    have hfirst : k'.first ≠ z := fun h => hout (Constraint.mem_variables.mpr (.inl h.symm))
    have hsecond : (Substitution.single ⟨z, .const d⟩).apply k'.second = k'.second := by
      cases hcase : k'.second with
      | const e => rfl
      | var w =>
        refine Substitution.apply_single_ne ?_
        rintro rfl
        exact hout (Constraint.mem_variables.mpr (.inr hcase))
    rw [← hcs k' hk', Constraint.apply_ordered (Substitution.apply_single_ne hfirst), hsecond,
      hcs k' hk'] at happly'
    cases happly'
    exact hk'
  · cases ht

/-- **A variable with one individual left is grounded.**  The others that `x` is related to keep
their inequalities, for it is none of them. -/
theorem Roomy.ground (h : cs.Roomy x) (hcs : cs.IsOrdered) (hz : (z.domain cs).individuals = [d])
    (happly : cs.apply (.single ⟨z, .const d⟩) = some ds) :
    Roomy ds x ∧ ∀ c ∈ x.domain cs, c ∈ x.domain ds := by
  obtain ⟨S, hx, hclosed, hroom⟩ := h
  by_cases hzx : z = x
  · -- no inequality mentions `x` any more
    subst hzx
    have hgone := notMem_of_apply_single happly
    refine ⟨⟨{z}, rfl, ?_, fun y hy hne => absurd hy hne⟩, fun c hc => ?_⟩
    · rintro k hk y hy rfl
      exact absurd hy (hgone k hk)
    · refine LogVar.mem_domain.mpr ⟨(LogVar.mem_domain.mp hc).1, fun k hk hexcluded => ?_⟩
      exact hgone k hk (Constraint.mem_variables.mpr
        (.inl (Constraint.excluded?_eq_some.mp hexcluded).1.symm))
  · have hzS : z ∉ S := by
      intro hzS
      obtain ⟨a, b, hab, ha, hb⟩ := hroom z hzS hzx
      have hsole : ∀ e ∈ z.domain cs, e = d := fun e he => List.mem_singleton.mp
        (hz ▸ (show e ∈ (z.domain cs).individuals from he))
      exact hab ((hsole a ha).trans (hsole b hb).symm)
    have hsame := mem_of_apply_single hcs happly hzS hclosed
    have hdomain : ∀ y ∈ S, ∀ c ∈ y.domain cs, c ∈ y.domain ds := by
      intro y hyS c hc
      obtain ⟨hpop, hnot⟩ := LogVar.mem_domain.mp hc
      refine LogVar.mem_domain.mpr ⟨hpop, fun k hk hexcluded => ?_⟩
      have hy : y ∈ k.variables := Constraint.mem_variables.mpr
        (.inl (Constraint.excluded?_eq_some.mp hexcluded).1.symm)
      exact hnot k (hsame k hk y hy hyS) hexcluded
    refine ⟨⟨S, hx, fun k hk y hy hyS => hclosed k (hsame k hk y hy hyS) y hy hyS,
      fun y hyS hyx => ?_⟩, hdomain x hx⟩
    obtain ⟨a, b, hab, ha, hb⟩ := hroom y hyS hyx
    exact ⟨a, b, hab, hdomain y hyS a ha, hdomain y hyS b hb⟩

end ConstraintSet

namespace Parfactor

variable {p q : Parfactor K} {x : LogVar}

/-! ## counting -/

section
variable [Scalar K]

/-- **Counting a countable variable.** -/
theorem errorsIn_count (hp : (Component.standard p).Regular s) (hcountable : p.isCountable x = true) :
    ErrorsIn Error.Unguarded (p.count x) := by
  obtain ⟨i, a, hholder⟩ := exists_holder hcountable
  rw [count_eq_rebuild hp.constraints.satisfiable hcountable hholder]
  refine errorsIn_rebuild .overflow fun digits => ?_
  unfold countEntry
  split
  · exact .error .bounds
  · exact errorsIn_countedEntry fun _ _ => Factor.errorsIn_entry .overflow .bounds _ _ _

theorem regular_count (hp : (Component.standard p).Regular s) (h : p.count x = .ok q) :
    (Component.standard q).Regular s :=
  ⟨(hereditary_follows s).count hp.toMeets h, (bulk_count hp.formed h).1⟩

end

/-! ## expansions -/

theorem isExpandable_const {f : CountingFormula} {c : Constant} (hf : Prv.count f ∈ p.prvs)
    (hexcluded : f.excludedVars = []) (hc : c ∈ f.individuals) :
    p.isExpandable f (.const c) = true := by
  refine isExpandable_of_prerequisite? hf ?_ nofun ?_
  · simp [CountingFormula.isExpandable, hexcluded, hc]
  · refine List.findSome?_eq_none_iff.mpr fun t ht => ?_
    cases t with
    | var y =>
      have hy : y ∈ f.excludedVars := CountingFormula.mem_excludedVars_iff.mpr ht
      rw [hexcluded] at hy
      cases hy
    | const d => rfl

theorem excludedVars_excluding {f : CountingFormula} {c : Constant} (hf : f.excludedVars = []) :
    (f.excluding (.const c)).excludedVars = [] := by
  refine List.eq_nil_iff_forall_not_mem.mpr fun y hy => ?_
  rw [CountingFormula.mem_excludedVars_iff, CountingFormula.mem_exclusions_excluding
    (show Term.const c ≠ .var f.bound from nofun)] at hy
  rcases hy with hy | hy
  · cases hy
  · rw [← CountingFormula.mem_excludedVars_iff, hf] at hy
    cases hy

/-- **Expansions on the individuals of a formula**, one after the other. -/
theorem errorsIn_expandAll {o : Option CountingFormula} {cs : List Constant} (hcs : cs.Nodup)
    (ho : ∀ f ∈ o, Prv.count f ∈ p.prvs ∧ f.excludedVars = [] ∧ ∀ c ∈ cs, c ∈ f.individuals) :
    ErrorsIn Error.Unguarded (Operation.expandAll p o cs) := by
  induction cs generalizing p o with
  | nil => cases o <;> exact .ok _
  | cons c cs ih =>
    cases o with
    | none => exact .ok _
    | some f =>
      obtain ⟨hf, hexcluded, hall⟩ := ho f rfl
      obtain ⟨hnot, hcs⟩ := List.nodup_cons.mp hcs
      have hexpandable := isExpandable_const hf hexcluded (hall c List.mem_cons_self)
      unfold Operation.expandAll CountingFormula.expand
      rw [if_pos (expandsOn_of_isExpandable hexpandable).expandable]
      dsimp only
      split
      · rename_i e he
        exact .error (errorsIn_expand .overflow .bounds
          (fun h => absurd (h.symm.trans hexpandable) nofun) e he)
      · rename_i q hq
        refine ih hcs fun g hg => ?_
        split at hg
        · cases hg
          refine ⟨?_, excludedVars_excluding hexcluded, fun d hd => ?_⟩
          · obtain ⟨i, -, -, ⟨-, hrebuild⟩ | ⟨hzero, -⟩⟩ := expand_ok hq
            · obtain ⟨-, hprvs, -⟩ := rebuild_ok hrebuild
              rw [hprvs]
              simp
            · omega
          · have hne : Term.const c ≠ .var f.bound := nofun
            exact (CountingFormula.mem_individuals_excluding hne).mpr
              ⟨hall d (List.mem_cons_of_mem _ hd), fun h => hnot (Term.const.inj h ▸ hd)⟩
        · cases hg

/-! ## groundings -/

/-- the sides of an inequality have the same individuals once no split is asked for -/
theorem mem_domain_iff_of_violation? {c : Constraint} {y : LogVar} (hp : p.violation? = none)
    (hmatched : c.IsMatched) (hc : c ∈ p.constraints) (hy : c.second = .var y) (a : Constant) :
    a ∈ c.first.domain p.constraints ↔ a ∈ y.domain p.constraints := by
  have hnone := List.findSome?_eq_none_iff.mp hp c hc
  rw [hy] at hnone
  dsimp only at hnone
  rw [if_pos (hmatched y hy).symm] at hnone
  split at hnone
  · cases hnone
  · rename_i hleft
    exact ⟨Population.isWithin_iff.mp (Option.isNone_iff_eq_none.mpr hleft) a,
      Population.isWithin_iff.mp (Option.isNone_iff_eq_none.mpr (Option.map_eq_none_iff.mp hnone)) a⟩

/-- once no split is asked for, a variable with two individuals is related to such variables only -/
theorem roomy_of_violation? (hp : (Component.standard p).Regular s) (hviolation : p.violation? = none)
    {a b : Constant} (hab : a ≠ b) (ha : a ∈ x.domain p.constraints)
    (hb : b ∈ x.domain p.constraints) : p.constraints.Roomy x := by
  refine ⟨{y | ∀ c, c ∈ y.domain p.constraints ↔ c ∈ x.domain p.constraints}, fun c => Iff.rfl,
    fun k hk y hy hyS z hz c => ?_, fun y hy _ => ⟨a, b, hab, (hy a).mpr ha, (hy b).mpr hb⟩⟩
  have hside : ∀ w ∈ k.variables, (c ∈ w.domain p.constraints ↔ c ∈ k.first.domain p.constraints) := by
    intro w hw
    rcases Constraint.mem_variables.mp hw with rfl | hw
    · exact Iff.rfl
    · exact (mem_domain_iff_of_violation? hviolation (hp.constraints.matched k hk) hk hw c).symm
  exact (hside z hz).trans ((hside y hy).symm.trans (hyS c))

/-- the listed individuals can be given to `x` one after the other -/
structure Groundable (x : LogVar) (cs : List Constant) (p : Parfactor K) : Prop where
  left : ∀ c ∈ cs, c ∈ x.domain p.constraints
  roomy : 1 < cs.length → p.constraints.Roomy x

theorem groundable_normalize {cs : List Constant} (hp : (Component.standard p).Regular s)
    (hroomy : p.constraints.Roomy x) (hleft : ∀ c ∈ cs, c ∈ x.domain p.constraints)
    (h : p.normalize = .ok (some q)) : q.Groundable x cs := by
  obtain ⟨g, hg, ⟨-, hr⟩ | ⟨r, t, u, rfl, ht, hu, hqu⟩⟩ := normalize_ok h
  · cases hr
  cases hqu
  obtain ⟨-, hroomy, hleft⟩ := (groundSingletons_ok
    (I := fun o => ∀ q, o = some q → (Component.standard q).Regular s ∧ q.constraints.Roomy x
      ∧ ∀ c ∈ cs, c ∈ x.domain q.constraints) (fun _ _ _ => nofun)
    (fun q y c hq hy hc r hr => by
      obtain ⟨hregular, hroomy, hleft⟩ := hq q rfl
      obtain ⟨ds, hds, rfl⟩ := apply_eq_some hr
      obtain ⟨hroomy', hsub⟩ := hroomy.ground hregular.constraints.ordered hc hds
      exact ⟨regular_instance hregular (binds_of_individuals_eq hc hy) hr, hroomy',
        fun a ha => hsub a (hleft a ha)⟩)
    (fun q hq => by cases hq; exact ⟨hp, hroomy, hleft⟩) hg).1 r rfl
  have hsimple := (settle_ok (p := fun q : Parfactor K => q.constraints = r.constraints)
    (fun a b ha hab => by
      obtain ⟨i, f, -, ⟨-, hdrop⟩ | ⟨-, -, -, rfl⟩⟩ := simplifyRound_ok hab
      · exact (rebuild_ok hdrop).1.trans ha
      · exact ha) rfl ht).1
  have hmerged := (settle_ok (p := fun q : Parfactor K => q.constraints = r.constraints)
    (fun a b ha hab => by
      obtain ⟨_, _, _, -, -, -, hmerge⟩ := mergeRound_ok hab
      exact (rebuild_ok hmerge).1.trans ha) hsimple hu).1
  exact ⟨by rwa [hmerged], fun _ => by rwa [hmerged]⟩

/-- what is left after the split on one individual can be grounded on the others -/
theorem groundable_residual {c : Constant} {cs : List Constant}
    (hp : (Component.standard p).Regular s) (hgroundable : p.Groundable x (c :: cs)) (hnot : c ∉ cs)
    (hb : Binds p.logVars ⟨x, .const c⟩) (h : Parfactor.normalize
      { p with constraints := p.constraints.insert (.ofBinding ⟨x, .const c⟩) } = .ok (some q)) :
    q.Groundable x cs := by
  cases cs with
  | nil => exact ⟨fun d hd => absurd hd List.not_mem_nil, fun h => absurd h (by simp)⟩
  | cons d ds =>
    refine groundable_normalize (regular_residual hp hb) (hgroundable.roomy (by simp)).insert
      (fun e he => ?_) h
    obtain ⟨hpop, hfresh⟩ := LogVar.mem_domain.mp (hgroundable.left e (List.mem_cons_of_mem _ he))
    refine LogVar.mem_domain.mpr ⟨hpop, fun k hk => ?_⟩
    rcases SortedSet.mem_insert.mp hk with rfl | hk
    · rintro hexcluded
      cases (Constraint.excluded?_eq_some.mp hexcluded).2
      exact hnot he
    · exact hfresh k hk

/-- **Groundings of a variable on its individuals**, one after the other. -/
theorem errorsIn_groundAll [Scalar K] {o : Option (Parfactor K)} {cs : List Constant}
    (hcs : cs.Nodup) (ho : ∀ p ∈ o, (Component.standard p).Regular s ∧ p.Groundable x cs) :
    ErrorsIn Error.Unguarded (Operation.groundAll x o cs) := by
  induction cs generalizing o with
  | nil => cases o <;> exact .ok _
  | cons c cs ih =>
    cases o with
    | none => exact .ok _
    | some p =>
      obtain ⟨hregular, hgroundable⟩ := ho p rfl
      obtain ⟨hnot, hcs⟩ := List.nodup_cons.mp hcs
      unfold Operation.groundAll
      split
      · rename_i hx
        have hsplittable :=
          isSplittable_const hregular.constraints hx (hgroundable.left c List.mem_cons_self)
        refine (errorsIn_split fun h => absurd hsplittable (by rw [h]; exact Bool.false_ne_true)).bind
          fun t ht => ?_
        obtain ⟨hon, hfragment, hresidual⟩ := split_ok ht
        have hb := hon.binds
        have hregular' : (Component.standard t.residual).Regular s :=
          hresidual ▸ regular_residual hregular hb
        refine (errorsIn_normalize .overflow .bounds
          (regular_instance hregular hb hfragment).proper).bind fun fragment _ => ?_
        refine (errorsIn_normalize .overflow .bounds hregular'.proper).bind fun residual hr => ?_
        refine (ih hcs fun q hq => ?_).bind fun _ _ => .ok _
        cases hq
        exact ⟨regular_normalize hregular' hr,
          groundable_residual hregular hgroundable hnot hb (hresidual ▸ hr)⟩
      · exact .ok _

end Parfactor

/-- **All steps of the operations stay inside the schema.** -/
theorem Component.closed_regular [Scalar K] (s : Schema) :
    Component.Closed fun c : Component K => c.Regular s where
  squared hc := hc.squared
  normalize hc h := hc.normalize h
  pieces hc h := hc.pieces h
  count := Parfactor.regular_count
  multiply hp hq h := ⟨Hereditary.multiply hp.toMeets hq.toMeets h, hp.proper.multiply hq.proper h⟩
  sumOut hp h := ⟨(hereditary_follows s).sumOut hp.toMeets h, hp.proper.sumOut h⟩

end LiftedElimination
