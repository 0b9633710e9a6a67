import LiftedElimination.Proofs.Inherited
import LiftedElimination.Proofs.Idempotence
import LiftedElimination.Proofs.Refinable

/-!
# Excluded variables that are kept apart

A formula over `A` with `A ≠ X` and `A ≠ Y` counts two individuals less only where `X` and `Y`
differ.  It is spaced in a parfactor whose constraints say so: whatever the formula excludes differs
from each of its excluded variables.  Then no substitution changes the number of individuals counted,
and every operation on parfactors leaves its formulas spaced.

* `Parfactor.Spaces`     what a formula excludes is kept apart by the constraints of the parfactor;
* `domainSize_eq`        a formula counts the population without the terms of it that are excluded;
* `domainSize_apply_of_spaces`   substitution leaves this number alone;
* `Parfactor.Spaced`     all formulas of the parfactor are spaced;
* `Spaced.apply`, .., `Spaced.sumOut`   the operations keep it.
-/

namespace LiftedElimination

open Finset

variable {K : Type}

namespace CountingFormula

variable {f : CountingFormula} {s : Substitution} {t : Term}

/-! ## what a formula leaves out of its group -/

/-- the excluded terms, without the constants that are not in the population -/
def absent (f : CountingFormula) : List Term :=
  f.exclusions.filter fun t => t.const?.all (· ∈ f.bound.population)

theorem mem_absent :
    t ∈ f.absent ↔ t ∈ f.exclusions ∧ ∀ c, t = .const c → c ∈ f.bound.population := by
  rw [absent, List.mem_filter]
  refine and_congr_right fun _ => ?_
  cases t <;> simp [Term.const?]

theorem nodup_absent (hf : f.constraints.IsOrdered) : f.absent.Nodup := by
  refine List.Nodup.filter _ (List.pairwise_filterMap.mpr ?_)
  refine (SortedSet.nodup_toList _).imp_of_mem ?_
  rintro c c' hc hc' hne t ht _ ht' rfl
  exact hne ((Constraint.eq_ordered_of_other? (hf c hc) ht).trans
    (Constraint.eq_ordered_of_other? (hf c' hc') ht').symm)

/-- **The domain size** is the population less the absent terms. -/
theorem domainSize_eq (hf : f.constraints.IsOrdered) :
    f.domainSize = f.bound.population.toFinset.card - f.absent.length := by
  have hconsts : (f.absent.filterMap Term.const?).Nodup := by
    refine List.pairwise_filterMap.mpr ((nodup_absent hf).imp ?_)
    rintro t u hne c ht _ hu rfl
    exact hne ((Term.const?_eq_some.mp ht).trans (Term.const?_eq_some.mp hu).symm)
  have hmem : ∀ c, c ∈ f.absent.filterMap Term.const?
      ↔ c ∈ f.bound.population ∧ .const c ∈ f.exclusions := by
    intro c
    simp only [List.mem_filterMap, Term.const?_eq_some, exists_eq_right, mem_absent,
      Term.const.injEq, forall_eq']
    exact And.comm
  have hindividuals : f.individuals.toFinset
      = f.bound.population.toFinset \ (f.absent.filterMap Term.const?).toFinset := by
    ext c
    rw [mem_sdiff, Population.mem_toFinset, Population.mem_toFinset, List.mem_toFinset, hmem,
      mem_individuals]
    exact and_congr_right fun hc => not_congr (and_iff_right hc).symm
  have hsub : (f.absent.filterMap Term.const?).toFinset ⊆ f.bound.population.toFinset :=
    fun c hc => Population.mem_toFinset.mpr ((hmem c).mp (List.mem_toFinset.mp hc)).1
  have hvars : f.excludedVars = f.absent.filterMap Term.var? := by
    rw [excludedVars, absent, List.filterMap_filter]
    refine List.filterMap_congr fun t _ => ?_
    cases t <;> simp [Term.const?, Term.var?]
  have hlength : (f.absent.filterMap Term.var?).length + (f.absent.filterMap Term.const?).length
      = f.absent.length := length_filterMap_var?_add id f.absent
  rw [domainSize, ← card_individuals, hindividuals, card_sdiff_of_subset hsub,
    List.toFinset_card_of_nodup hconsts, hvars]
  omega

/-- **A substitution that keeps the absent terms apart**, and sends none out of the population, makes
their images absent. -/
theorem absent_apply (hf : f.Valid) (hs : f.Avoids s) (hordered : f.constraints.IsOrdered)
    (hinj : ∀ t ∈ f.absent, ∀ u ∈ f.absent, s.apply t = s.apply u → t = u)
    (himage : ∀ c, ∀ y ∈ f.excludedVars, s.apply (.var y) = .const c → c ∈ f.bound.population) :
    (f.apply s).absent.Perm (f.absent.map s.apply) := by
  have hordered' : (f.apply s).constraints.IsOrdered := Prv.isOrdered_apply (.count f) s _ rfl
  refine (List.perm_ext_iff_of_nodup (nodup_absent hordered')
    ((nodup_absent hordered).map_on hinj)).mpr fun u => ?_
  rw [mem_absent, mem_exclusions_apply hf hs, List.mem_map]
  constructor
  · rintro ⟨⟨t, ht, rfl⟩, hpop⟩
    exact ⟨t, mem_absent.mpr ⟨ht, fun c hc => hpop c (by rw [hc]; rfl)⟩, rfl⟩
  · rintro ⟨t, ht, rfl⟩
    obtain ⟨htf, htpop⟩ := mem_absent.mp ht
    refine ⟨⟨t, htf, rfl⟩, fun c hc => ?_⟩
    cases t with
    | const d =>
      cases hc
      exact htpop c rfl
    | var y => exact himage c y (mem_excludedVars_iff.mpr htf) hc

/-- the formula then counts as many individuals as before -/
theorem domainSize_apply_of_injOn (hf : f.Valid) (hs : f.Avoids s)
    (hordered : f.constraints.IsOrdered)
    (hinj : ∀ t ∈ f.absent, ∀ u ∈ f.absent, s.apply t = s.apply u → t = u)
    (himage : ∀ c, ∀ y ∈ f.excludedVars, s.apply (.var y) = .const c → c ∈ f.bound.population) :
    (f.apply s).domainSize = f.domainSize := by
  have hperm := absent_apply hf hs hordered hinj himage
  rw [domainSize_eq (Prv.isOrdered_apply (.count f) s _ rfl), domainSize_eq hordered,
    hperm.length_eq, List.length_map]
  rfl

end CountingFormula

namespace Parfactor

variable {p q r : Parfactor K} {f : CountingFormula} {s : Substitution} {t : Term} {x y z : LogVar}

/-! ## terms that constraints keep apart -/

theorem separates_var : p.separates y (.var x) = true
    ↔ x ≠ y ∧ Constraint.ordered y (.var x) ∈ p.constraints := by
  rw [separates, Bool.and_eq_true, bne_iff_ne, ConstraintSet.separates_iff]

theorem separates_const {c : Constant} : p.separates y (.const c) = true
    ↔ c ∉ y.population ∨ Constraint.ordered y (.const c) ∈ p.constraints := by
  rw [separates, Bool.or_eq_true, decide_eq_true_eq, ConstraintSet.separates_iff]

theorem separates_var_comm : p.separates y (.var x) = true ↔ p.separates x (.var y) = true := by
  rw [separates_var, separates_var, Constraint.ordered_comm]
  exact and_congr_left' ne_comm

theorem separates_mono (h : Constraint.ordered y t ∈ p.constraints →
    Constraint.ordered y t ∈ q.constraints) (hp : p.separates y t = true) :
    q.separates y t = true := by
  cases t with
  | var x => exact separates_var.mpr ((separates_var.mp hp).imp_right h)
  | const c => exact separates_const.mpr ((separates_const.mp hp).imp_right h)

theorem mem_of_separates (hp : p.separates y t = true)
    (ht : ∀ c, t = .const c → c ∈ y.population) : Constraint.ordered y t ∈ p.constraints := by
  cases t with
  | var x => exact (separates_var.mp hp).2
  | const c => exact (separates_const.mp hp).resolve_left fun hc => hc (ht c rfl)

/-- an instance leaves different what the constraints keep apart -/
theorem apply_ne_of_separates (h : p.apply s = some q) (hp : p.separates y t = true)
    (ht : ∀ c, t = .const c → c ∈ y.population) : s.apply (.var y) ≠ s.apply t := by
  intro heq
  obtain ⟨ds, hds, -⟩ := apply_eq_some h
  rw [ConstraintSet.apply_eq_none.mpr ⟨_, mem_of_separates hp ht,
    Constraint.isViolatedBy_ordered heq⟩] at hds
  cases hds

/-- an instance keeps apart what the constraints have kept apart -/
theorem separates_apply (h : p.apply s = some q) (hp : p.separates y t = true)
    (hz : s.apply (.var y) = .var z) (hpop : z.population = y.population)
    (hne : s.apply t ≠ .var z) : q.separates z (s.apply t) = true := by
  obtain ⟨ds, hds, rfl⟩ := apply_eq_some h
  have hmem : Constraint.ordered y t ∈ p.constraints → Constraint.ordered z (s.apply t) ∈ ds :=
    fun hk => (ConstraintSet.mem_of_apply hds).mpr ⟨_, hk, Constraint.apply_ordered hz⟩
  cases t with
  | const c =>
    refine separates_const.mpr ((separates_const.mp hp).imp (fun hc => ?_) hmem)
    rwa [hpop]
  | var x =>
    have hmem := hmem (separates_var.mp hp).2
    cases hx : s.apply (.var x) with
    | const c =>
      rw [hx] at hmem
      exact separates_const.mpr (.inr hmem)
    | var w =>
      rw [hx] at hmem hne
      exact separates_var.mpr ⟨fun hw => hne (congrArg _ hw), hmem⟩

/-! ## spaced formulas -/

/-- the excluded variables of `f` draw from the population that is counted, and the constraints keep
each of them apart from everything else that `f` excludes -/
structure Spaces (p : Parfactor K) (f : CountingFormula) : Prop where
  population : ∀ y ∈ f.excludedVars, y.population = f.bound.population
  apart : ∀ y ∈ f.excludedVars, ∀ t ∈ f.exclusions, t ≠ .var y → p.separates y t = true

theorem Spaces.mono (h : p.Spaces f)
    (hcs : ∀ y ∈ f.excludedVars, ∀ t ∈ f.exclusions, Constraint.ordered y t ∈ p.constraints →
      Constraint.ordered y t ∈ q.constraints) : q.Spaces f where
  population := h.population
  apart y hy t ht hne := separates_mono (hcs y hy t ht) (h.apart y hy t ht hne)

/-- all inequalities are written in their canonical form, and all formulas are spaced -/
structure Spaced (p : Parfactor K) : Prop where
  proper : p.Proper
  ordered : (Component.standard p).IsOrdered
  spaces : ∀ f, Prv.count f ∈ p.prvs → p.Spaces f

/-- an instance keeps apart whatever a spaced formula excludes -/
theorem Spaces.injOn_absent (hspaces : p.Spaces f) (h : p.apply s = some q) :
    ∀ t ∈ f.absent, ∀ u ∈ f.absent, s.apply t = s.apply u → t = u := by
  have hvar : ∀ y t, .var y ∈ f.absent → t ∈ f.absent → s.apply (.var y) = s.apply t →
      .var y = t := by
    intro y t hy ht heq
    by_contra hne
    have hyf := CountingFormula.mem_excludedVars_iff.mpr (CountingFormula.mem_absent.mp hy).1
    obtain ⟨htf, htpop⟩ := CountingFormula.mem_absent.mp ht
    refine apply_ne_of_separates h (hspaces.apart y hyf t htf (Ne.symm hne)) (fun c hc => ?_) heq
    rw [hspaces.population y hyf]
    exact htpop c hc
  intro t ht u hu heq
  cases t with
  | var y => exact hvar y u ht hu heq
  | const c =>
    cases u with
    | var y => exact (hvar y _ hu ht heq.symm).symm
    | const d => exact heq

/-- an excluded variable is a logical variable of the parfactor -/
theorem mem_logVars_of_excluded (hf : Prv.count f ∈ p.prvs) (hx : x ∈ f.excludedVars) :
    x ∈ p.logVars :=
  mem_logVars.mpr (.inl ⟨_, hf, CountingFormula.mem_freeVars.mpr (.inr hx)⟩)

/-- **Substitution leaves the number of individuals alone** that a spaced formula counts. -/
theorem domainSize_apply_of_spaces (hp : p.Spaced) (hs : p.Admits s) (h : p.apply s = some q)
    (hf : Prv.count f ∈ p.prvs) : (f.apply s).domainSize = f.domainSize := by
  refine CountingFormula.domainSize_apply_of_injOn (hp.proper.valid _ hf) (hs.avoids hf)
    (hp.ordered.prvs _ hf f rfl) ((hp.spaces f hf).injOn_absent h) fun c y hy hc => ?_
  rcases hs.image y (mem_logVars_of_excluded hf hy) with ⟨z, hz, -⟩ | ⟨d, hd, hpop⟩
  · cases hz.symm.trans hc
  · cases hd.symm.trans hc
    rwa [(hp.spaces f hf).population y hy] at hpop

theorem Spaces.apply (hp : p.Spaced) (hs : p.Admits s) (h : p.apply s = some q)
    (hf : Prv.count f ∈ p.prvs) : q.Spaces (f.apply s) := by
  have hvalid : f.Valid := hp.proper.valid _ hf
  have havoids : f.Avoids s := hs.avoids hf
  -- an excluded variable of the instance is the image of one
  have hsource : ∀ z ∈ (f.apply s).excludedVars, ∃ y ∈ f.excludedVars,
      s.apply (.var y) = .var z ∧ z.population = y.population := by
    intro z hz
    obtain ⟨t, ht, htz⟩ := (CountingFormula.mem_exclusions_apply hvalid havoids).mp
      (CountingFormula.mem_excludedVars_iff.mp hz)
    cases t with
    | const c => cases htz
    | var y =>
      have hy := CountingFormula.mem_excludedVars_iff.mpr ht
      refine ⟨y, hy, htz, ?_⟩
      rcases hs.image y (mem_logVars_of_excluded hf hy) with ⟨w, hw, hpop⟩ | ⟨d, hd, -⟩
      · cases hw.symm.trans htz
        exact hpop
      · cases hd.symm.trans htz
  refine ⟨fun z hz => ?_, fun z hz u hu hne => ?_⟩
  · obtain ⟨y, hy, -, hpop⟩ := hsource z hz
    exact hpop.trans ((hp.spaces f hf).population y hy)
  · obtain ⟨y, hy, hyz, hpop⟩ := hsource z hz
    obtain ⟨t, ht, rfl⟩ := (CountingFormula.mem_exclusions_apply hvalid havoids).mp hu
    refine separates_apply h ((hp.spaces f hf).apart y hy t ht fun hty => hne ?_) hyz hpop hne
    rw [hty, hyz]

/-- the formula without `t`, where whatever it excludes is kept apart from `t` -/
theorem Spaces.excluding (hf : p.Spaces f) (h : p.ExpandsOn f t) : p.Spaces (f.excluding t) := by
  have hmem : ∀ u, u ∈ (f.excluding t).exclusions ↔ u = t ∨ u ∈ f.exclusions := fun u =>
    CountingFormula.mem_exclusions_excluding h.ne_bound
  have hvar : ∀ y ∈ (f.excluding t).excludedVars, t = .var y ∨ y ∈ f.excludedVars := fun y hy =>
    ((hmem _).mp (CountingFormula.mem_excludedVars_iff.mp hy)).imp Eq.symm
      CountingFormula.mem_excludedVars_iff.mpr
  refine ⟨fun y hy => ?_, fun y hy u hu hne => ?_⟩
  · rcases hvar y hy with rfl | hy
    · exact (CountingFormula.isExpandable_var h.expandable).2.1
    · exact hf.population y hy
  · rcases hvar y hy with rfl | hyf
    · -- `y` is the term that is taken out
      rcases (hmem u).mp hu with rfl | hu
      · exact absurd rfl hne
      · cases u with
        | var z =>
          exact separates_var_comm.mp (h.separates (CountingFormula.mem_excludedVars_iff.mpr hu))
        | const c => exact h.separates_const hu
    · rcases (hmem u).mp hu with rfl | hu
      · exact h.separates hyf
      · exact hf.apart y hyf u hu hne

/-! ## spaced parfactors -/

theorem Spaced.apply (hp : p.Spaced) (hs : p.Admits s) (h : p.apply s = some q) : q.Spaced := by
  have hspaces := fun f hf => Spaces.apply hp hs h (f := f) hf
  have hproper := hp.proper.apply hs h
  obtain ⟨ds, hds, rfl⟩ := apply_eq_some h
  refine ⟨hproper, ⟨ConstraintSet.isOrdered_of_apply hds, fun r hr => ?_⟩, fun f hf => ?_⟩
  · obtain ⟨r, -, rfl⟩ := List.mem_map.mp hr
    exact r.isOrdered_apply s
  · obtain ⟨r, hr, hrf⟩ := List.mem_map.mp hf
    cases r with
    | atom a => cases hrf
    | count g =>
      cases hrf
      exact hspaces g hr

/-- fewer formulas under the same constraints -/
theorem Spaced.of_formulas (hp : p.Spaced) (hproper : q.Proper)
    (hordered : (Component.standard q).IsOrdered) (hcs : q.constraints = p.constraints)
    (hf : ∀ f, Prv.count f ∈ q.prvs → Prv.count f ∈ p.prvs) : q.Spaced :=
  ⟨hproper, hordered, fun f hfq => (hp.spaces f (hf f hfq)).mono fun _ _ _ _ hk => hcs ▸ hk⟩

theorem Spaced.simplifyRound (hp : p.Spaced) (h : p.simplifyRound = .ok (some q)) : q.Spaced := by
  refine hp.of_formulas (bulk_simplifyRound hp.proper h).1
    (hereditary_isOrdered.simplifyRound hp.ordered h) ?_ fun f hf => ?_
  all_goals obtain ⟨i, g, hi, ⟨-, hdrop⟩ | ⟨-, a, -, rfl⟩⟩ := simplifyRound_ok h
  · exact (rebuild_ok hdrop).1
  · rfl
  · rw [(rebuild_ok hdrop).2.1] at hf
    exact List.mem_of_mem_eraseIdx hf
  · rcases List.mem_or_eq_of_mem_set hf with hf | hf
    · exact hf
    · cases hf

theorem Spaced.mergeRound (hp : p.Spaced) (h : p.mergeRound = .ok (some q)) : q.Spaced := by
  obtain ⟨i, j, r, -, -, -, hmerge⟩ := mergeRound_ok h
  obtain ⟨hcs, hprvs, -⟩ := rebuild_ok hmerge
  refine hp.of_formulas (bulk_mergeRound hp.proper h).1
    (Hereditary.mergeRound hp.ordered h) hcs fun f hf => ?_
  rw [hprvs] at hf
  exact List.mem_of_mem_eraseIdx hf

theorem Spaced.expand (hp : p.Spaced) (h : p.expand f t = .ok q) : q.Spaced := by
  refine ⟨(bulk_expand hp.proper h).1, hereditary_isOrdered.expand hp.ordered h, fun g hg => ?_⟩
  obtain ⟨i, hi, hon, hcases⟩ := expand_ok h
  have hspaces : p.Spaces g := by
    have hold : ∀ {r}, r ∈ p.prvs.take i ∨ r ∈ p.prvs.drop (i + 1) → r ∈ p.prvs := fun hr =>
      hr.elim List.mem_of_mem_take List.mem_of_mem_drop
    rcases hcases with ⟨-, hq⟩ | ⟨-, hq⟩ <;>
      simp only [(rebuild_ok hq).2.1, List.mem_append, List.mem_cons, reduceCtorEq, false_or] at hg
    · rcases hg with hg | hg | hg
      · exact hp.spaces g (hold (.inl hg))
      · cases hg
        exact (hp.spaces f (List.mem_of_getElem? hi)).excluding hon
      · exact hp.spaces g (hold (.inr hg))
    · exact hp.spaces g (hold hg)
  refine hspaces.mono fun _ _ _ _ hk => ?_
  rcases hcases with ⟨-, hq⟩ | ⟨-, hq⟩ <;> rwa [(rebuild_ok hq).1]

section
variable [Scalar K]

theorem Spaced.split {b : Binding} {parts : Split (Parfactor K)} (hp : p.Spaced)
    (h : p.split b = .ok parts) : parts.fragment.Spaced ∧ parts.residual.Spaced := by
  have hproper := (bulk_split hp.proper h).1
  have hordered := fun d hd => hereditary_isOrdered.pieces hp.ordered (.split h) d hd
  obtain ⟨hon, hfragment, hresidual⟩ := split_ok h
  refine ⟨hp.apply (hp.proper.admits hon.binds) hfragment, hproper.2, ?_, fun f hf => ?_⟩
  · exact hordered _ (by simp)
  · rw [hresidual] at hf ⊢
    exact (hp.spaces f hf).mono fun _ _ _ _ hk => SortedSet.mem_insert.mpr (.inr hk)

omit [Scalar K] in
/-- the neighbours of a countable variable draw from what its own constraints leave it, and are kept
apart from each other -/
theorem neighbours_of_isCountable (h : p.isCountable x = true) :
    (∀ y ∈ p.neighbours x, y.population = x.population
      ∧ ∀ c ∈ y.domain p.constraints, c ∈ x.domain p.constraints)
    ∧ ∀ y ∈ p.neighbours x, ∀ z ∈ p.neighbours x, y ≠ z →
      p.constraints.separates y (.var z) = true := by
  unfold isCountable at h
  split at h
  · rw [Bool.and_eq_true, List.all_eq_true, decide_eq_true_eq] at h
    obtain ⟨hdomains, hpairs⟩ := h
    refine ⟨fun y hy => ?_, fun y hy z hz hne => ?_⟩
    · have hy := hdomains y hy
      rwa [Bool.and_eq_true, beq_iff_eq, Population.isWithin_iff] at hy
    · have : Std.Symm fun y z => p.constraints.separates z (.var y) = true :=
        ⟨fun a b hab => by rwa [ConstraintSet.separates_comm]⟩
      rw [ConstraintSet.separates_comm]
      exact hpairs.forall hy hz hne
  · cases h

omit [Scalar K] in
/-- the formula over a countable variable is spaced by the constraints that are left -/
theorem TurnsInto.spaces {f : CountingFormula} {i : Nat} (h : TurnsInto p f i q)
    (hcountable : p.isCountable f.bound = true) : q.Spaces f := by
  obtain ⟨hdomains, hpairs⟩ := neighbours_of_isCountable hcountable
  have hown : ∀ {k}, k ∈ f.constraints → k ∈ p.constraints := fun hk =>
    (ConstraintSet.mem_onVariable.mp (h.own ▸ hk)).1
  have hneighbour : ∀ y ∈ f.excludedVars, y ∈ p.neighbours f.bound := by
    intro y hy
    obtain ⟨k, hk, hky⟩ := CountingFormula.mem_excludedVars.mp hy
    exact List.mem_filterMap.mpr ⟨k, hown hk, hky⟩
  refine ⟨fun y hy => (hdomains y (hneighbour y hy)).1, fun y hy t ht hne => ?_⟩
  have hyx : y ≠ f.bound := h.valid.ne_bound hy
  have hleft : ∀ {t}, Constraint.ordered y t ∈ p.constraints → t ≠ .var f.bound →
      Constraint.ordered y t ∈ q.constraints := fun hk htx => by
    rw [h.constraints_eq]
    exact ConstraintSet.mem_notOnVariable.mpr ⟨hk, fun hmem =>
      (Constraint.mem_variables_ordered.mp hmem).elim (fun h => hyx h.symm) htx⟩
  cases t with
  | var z =>
    have hz := CountingFormula.mem_excludedVars_iff.mpr ht
    have hzy : z ≠ y := fun h => hne (congrArg _ h)
    refine separates_var.mpr ⟨hzy, hleft ?_ fun heq => h.valid.ne_bound hz (Term.var.inj heq)⟩
    exact ConstraintSet.separates_iff.mp
      (hpairs y (hneighbour y hy) z (hneighbour z hz) hzy.symm)
  | const c =>
    -- what a constant takes from the counted variable it takes from the neighbours, too
    have hcx : c ∉ f.bound.domain p.constraints := fun hc => by
      obtain ⟨k, hk, hkc⟩ := CountingFormula.mem_exclusions.mp ht
      refine (LogVar.mem_domain.mp hc).2 k (hown hk) ?_
      rw [Constraint.excluded?_eq, hkc]
      rfl
    by_cases hcy : c ∈ y.population
    · obtain ⟨k, hk, hkc⟩ : ∃ k ∈ p.constraints, k.excluded? y = some c := by
        by_contra hnone
        refine hcx ((hdomains y (hneighbour y hy)).2 c (LogVar.mem_domain.mpr ⟨hcy, ?_⟩))
        exact fun k hk hkc => hnone ⟨k, hk, hkc⟩
      rw [Constraint.eq_of_excluded? hkc] at hk
      exact separates_const.mpr (.inr (hleft hk nofun))
    · exact separates_const.mpr (.inl hcy)

theorem Spaced.count (hp : p.Spaced) (h : p.count x = .ok r) : r.Spaced := by
  obtain ⟨hcountable, g, i, rfl, hturns, -⟩ := turnsInto_of_count h
  refine ⟨hturns.proper hp.proper, hereditary_isOrdered.count hp.ordered h, fun f hf => ?_⟩
  rcases hturns.mem_prvs.mp hf with hf | hf
  · cases hf
    exact hturns.spaces hcountable
  · -- the others do not mention the counted variable, and neither do their constraints
    have hx := hturns.sole _ hf
    have hfree : ∀ y ∈ f.excludedVars, y ≠ g.bound := fun y hy hyx =>
      hx (hyx ▸ CountingFormula.mem_freeVars.mpr (.inr hy))
    refine (hp.spaces f (List.mem_of_mem_eraseIdx hf)).mono fun y hy t ht hk => ?_
    rw [hturns.constraints_eq]
    refine ConstraintSet.mem_notOnVariable.mpr ⟨hk, fun hmem => ?_⟩
    rcases Constraint.mem_variables_ordered.mp hmem with hxy | htx
    · exact hfree y hy hxy.symm
    · exact hfree g.bound (CountingFormula.mem_excludedVars_iff.mpr (htx ▸ ht)) rfl

theorem Spaced.multiply (hp : p.Spaced) (hq : q.Spaced) (h : p.multiply q = .ok r) : r.Spaced := by
  obtain ⟨hpq, -⟩ := multiply_ok h
  have hrp := alongside_multiply h
  have hmem := fun s => mem_prvs_multiply h (s := s)
  refine ⟨hp.proper.multiply hq.proper h, Hereditary.multiply hp.ordered hq.ordered h,
    fun f hf => ?_⟩
  rcases (hmem _).mp hf with hf | hf
  · exact (hp.spaces f hf).mono fun _ _ _ _ hk => hrp.constraints ▸ hk
  · exact (hq.spaces f hf).mono fun _ _ _ _ hk => (hrp.constraints.trans hpq.constraints) ▸ hk

theorem Spaced.sumOut {v : Prv} (hp : p.Spaced) (h : p.sumOut v = .ok r) : r.Spaced := by
  obtain ⟨hcs, hprvs⟩ := parts_sumOut h
  have hmem : ∀ t ∈ r.prvs, t ∈ p.prvs := fun t ht => List.mem_of_mem_erase (hprvs ▸ ht)
  refine ⟨hp.proper.sumOut h, hereditary_isOrdered.sumOut hp.ordered h, fun f hf => ?_⟩
  -- the variables that a formula excludes stay with it, and so do their constraints
  have hstay : ∀ y ∈ f.excludedVars, y ∈ p.staying v := fun y hy =>
    mem_staying.mpr ⟨.count f, hprvs ▸ hf, CountingFormula.mem_freeVars.mpr (.inr hy)⟩
  refine (hp.spaces f (hmem _ hf)).mono fun y hy t ht hk => ?_
  rw [hcs]
  refine ConstraintSet.mem_restrictTo.mpr ⟨hk, fun z hz => ?_⟩
  rcases Constraint.mem_variables_ordered.mp hz with rfl | rfl
  · exact hstay z hy
  · exact hstay z (CountingFormula.mem_excludedVars_iff.mpr ht)

end

end Parfactor

end LiftedElimination
