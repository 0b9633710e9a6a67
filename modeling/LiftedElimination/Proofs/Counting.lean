import LiftedElimination.Proofs.Refinement
import LiftedElimination.Proofs.Spacing

/-!
# Counting keeps the meaning

A variable that occurs in one atom only is turned into the bound variable of a counting formula.  The
entry of the counted table is the product of the entries of the old one for the values that are
counted, each as often as it is counted: this is the product over the individuals of the variable.

* `TurnsInto.prod_solutions`   the groundings are those of the counted parfactor, each of them with
                           every individual that is counted;
* `TurnsInto.exact`        the neighbours of a countable variable make its formula exact;
* `countedEntry_ok`        an entry of the counted table;
* `TurnsInto.restates`     the counted parfactor restates the parfactor.
-/

namespace LiftedElimination

open Finset

variable {K : Type}

namespace Parfactor

theorem pairwise_neighbours {p : Parfactor K} {x : LogVar} (h : p.isCountable x = true) :
    (p.neighbours x).Pairwise fun y z => p.constraints.separates z (.var y) = true := by
  unfold isCountable at h
  split at h
  · exact of_decide_eq_true (Bool.and_eq_true_iff.mp h).2
  · cases h

namespace TurnsInto

variable {p r : Parfactor K} {f : CountingFormula} {i : Nat} {γ : Valuation} {w : World}

/-- the constraints on the counted variable say nothing about the others -/
theorem solutions_eq (h : TurnsInto p f i r) :
    r.solutions = p.constraints.solutions r.logVars := by
  ext γ
  rw [solutions, h.constraints_eq, ConstraintSet.mem_solutions, ConstraintSet.mem_solutions]
  refine and_congr_left' ⟨fun hs => ⟨hs.mem, fun c hc hv => hs.holds c ?_ hv⟩,
    fun hs => ⟨hs.mem, fun c hc => hs.holds c (ConstraintSet.mem_notOnVariable.mp hc).1⟩⟩
  exact ConstraintSet.mem_notOnVariable.mpr ⟨hc, fun hx => h.bound_notMem (hv _ hx)⟩

theorem update_mem (h : TurnsInto p f i r) (hγ : γ ∈ r.solutions) {c : Constant}
    (hc : c ∈ f.counted γ) : Function.update γ f.bound c ∈ p.solutions :=
  CountingFormula.update_mem_solutions h.own h.bound_notMem h.logVars (h.solutions_eq ▸ hγ) hc

/-- **The groundings** are those of the counted parfactor, with every individual that is counted. -/
theorem prod_solutions {M : Type} [CommMonoid M] (h : TurnsInto p f i r) (F : Valuation → M) :
    ∏ ε ∈ p.solutions, F ε
      = ∏ γ ∈ r.solutions, ∏ c ∈ f.counted γ, F (Function.update γ f.bound c) := by
  rw [h.solutions_eq]
  exact CountingFormula.prod_solutions_insert h.own h.bound_notMem h.logVars
    (fun k hk _ z hz => mem_logVars.mpr (.inr (ConstraintSet.mem_variables.mpr ⟨k, hk, hz⟩))) F

/-- the others do not mention the counted variable -/
theorem update_eq (h : TurnsInto p f i r) {q : Prv} (hq : q ∈ p.prvs.eraseIdx i) (γ : Valuation)
    (c : Constant) : ∀ y ∈ q.freeVars, Function.update γ f.bound c y = γ y := by
  intro y hy
  rw [Function.update_of_ne]
  rintro rfl
  exact h.sole q hq hy

/-- the others read the same, whoever is counted -/
theorem digits_update (h : TurnsInto p f i r) (hp : ∀ q ∈ p.prvs, q.Valid) (c : Constant) :
    p.digits (Function.update γ f.bound c) w
      = (r.digits γ w).set i (w (f.member γ c)) := by
  have hothers : ∀ q ∈ p.prvs.eraseIdx i,
      q.read (Function.update γ f.bound c) w = q.read γ w := fun q hq =>
    Prv.read_congr (hp q (h.mem_prvs_old.mpr (.inr hq))) (h.update_eq hq γ c)
  obtain ⟨hlt, ha⟩ := List.getElem?_eq_some_iff.mp h.holder
  refine List.ext_getElem (by simp [digits, h.prvs_eq]) fun j hj _ => ?_
  have hj : j < p.prvs.length := by simpa [digits] using hj
  simp only [digits, h.prvs_eq, List.getElem_map, List.getElem_set]
  split
  · rename_i hij
    subst hij
    rw [ha]
    rfl
  · rename_i hij
    exact hothers _ (List.mem_eraseIdx_iff_getElem.mpr ⟨j, hj, Ne.symm hij, rfl⟩)

/-- **The neighbours** of a countable variable make its formula exact under every grounding, as long
as somebody is left: they differ pairwise, and draw from the individuals of the variable. -/
theorem card_counted (h : TurnsInto p f i r) (hcountable : p.isCountable f.bound = true)
    (hγ : γ.Solves p.constraints f.freeVars) :
    (f.counted γ).card = f.domainSize := by
  have hfree : ∀ y ∈ f.excludedVars, y ∈ f.freeVars := fun y hy =>
    CountingFormula.mem_freeVars.mpr (.inr hy)
  obtain ⟨hdomains, -⟩ := neighbours_of_isCountable hcountable
  have hsub : f.excludedVars.Sublist (p.neighbours f.bound) := by
    rw [CountingFormula.excludedVars_eq, h.own]
    exact List.filter_sublist.filterMap _
  have hpairs : (f.excludedVars.map γ).Nodup := by
    refine List.pairwise_map.mpr (List.Pairwise.imp_of_mem ?_
      ((pairwise_neighbours hcountable).sublist hsub))
    intro y z hy hz hyz heq
    have hmem := ConstraintSet.separates_iff.mp hyz
    have hholds := hγ.holds _ hmem fun u hu => by
      rcases Constraint.mem_variables_ordered.mp hu with rfl | hu
      · exact hfree u hz
      · cases hu
        exact hfree y hy
    exact (Constraint.holds_ordered z (.var y) γ).mp hholds heq.symm
  have hindividuals : ∀ y ∈ f.excludedVars, γ y ∈ f.individuals := by
    intro y hy
    obtain ⟨hpop, hmem⟩ := LogVar.mem_domain.mp
      ((hdomains y (hsub.subset hy)).2 _ (hγ.mem_domain (hfree y hy)))
    refine LogVar.mem_domain.mpr ⟨hpop, fun c hc => hmem c ?_⟩
    exact (ConstraintSet.mem_onVariable.mp (h.own ▸ hc)).1
  have hle : (f.excludedVars.map γ).toFinset ⊆ f.individuals.toFinset := by
    intro c hc
    obtain ⟨y, hy, rfl⟩ := List.mem_map.mp (List.mem_toFinset.mp hc)
    exact Population.mem_toFinset.mpr (hindividuals y hy)
  rw [h.valid.counted_eq, card_sdiff_of_subset hle, List.toFinset_card_of_nodup hpairs,
    List.length_map, CountingFormula.card_individuals]
  rfl

theorem accurate (h : TurnsInto p f i r) (hcountable : p.isCountable f.bound = true)
    (hγ : γ ∈ r.solutions) : f.Accurate γ := by
  rw [h.solutions_eq] at hγ
  exact h.card_counted hcountable ((ConstraintSet.solves_of_mem hγ).mono fun y hy =>
    mem_logVars.mpr (.inl ⟨_, h.mem_prvs.mpr (.inl rfl), hy⟩))

theorem exact (h : TurnsInto p f i r) (hcountable : p.isCountable f.bound = true)
    (hpos : 0 < f.domainSize) (hγ : γ ∈ r.solutions) : f.Exact γ :=
  ⟨h.accurate hcountable hγ, hpos⟩

/-- a grounding of the counted parfactor is one of the parfactor, with somebody in it -/
theorem exists_update (h : TurnsInto p f i r) (hexact : f.Exact γ) (hγ : γ ∈ r.solutions) :
    ∃ c, Function.update γ f.bound c ∈ p.solutions := by
  obtain ⟨c, hc⟩ := card_pos.mp (hexact.card ▸ hexact.pos)
  exact ⟨c, h.update_mem hγ hc⟩

theorem scope_subset (h : TurnsInto p f i r) (hp : ∀ q ∈ p.prvs, q.Valid)
    (hexact : ∀ γ ∈ r.solutions, f.Exact γ) : r.scope ⊆ p.scope := by
  intro v hv
  obtain ⟨γ, hγ, hv⟩ := mem_scope.mp hv
  obtain ⟨q, hq, hv⟩ := mem_owned.mp hv
  rcases h.mem_prvs.mp hq with rfl | hq
  · obtain ⟨c, hc, rfl⟩ := mem_image.mp hv
    exact mem_scope.mpr ⟨_, h.update_mem hγ hc, mem_owned.mpr ⟨.atom f.inner,
      h.mem_prvs_old.mpr (.inl rfl), mem_singleton_self _⟩⟩
  · obtain ⟨c, hc⟩ := h.exists_update (hexact γ hγ) hγ
    have hq' := h.mem_prvs_old.mpr (.inr hq)
    rw [← Prv.owned_congr (hp q hq') (h.update_eq hq γ c)] at hv
    exact mem_scope.mpr ⟨_, hc, mem_owned.mpr ⟨q, hq', hv⟩⟩

end TurnsInto

/-! ## the table -/

section
variable [ExactScalar K]

/-- the product of the entries for the values from `v` on, each as often as it is counted -/
theorem countedEntry_ok {t : Factor K} {sizes digits : List Nat} {i n v : Nat} {k : Nat → Nat}
    {acc x : K} (h : countedEntry t sizes i digits ((List.range' v n).map k) v acc = .ok x) :
    x = acc * ((List.range' v n).map fun u => t.lookup sizes (digits.set i u) ^ k u).prod := by
  induction n generalizing v acc with
  | zero =>
    cases h
    exact (mul_one _).symm
  | succ n ih =>
    rw [List.range'_succ, List.map_cons] at h ⊢
    unfold countedEntry at h
    split at h
    · cases h
    · rename_i y hy
      rw [ih h, ExactScalar.pow_eq, Factor.lookup_of_entry hy, List.prod_cons, mul_assoc]

variable {p r : Parfactor K} {f : CountingFormula} {i : Nat} {γ : Valuation} {w : World} {x : LogVar}

theorem TurnsInto.sound (h : TurnsInto p f i r) (hp : p.Sound)
    (hexact : ∀ γ ∈ r.solutions, f.Exact γ) {entry : List Nat → Except Error K}
    (hr : rebuild r.constraints r.prvs entry = .ok r) : r.Sound := by
  obtain ⟨hvalid, hbound⟩ := h.proper hp.proper
  refine sound_rebuild hr hvalid (fun c hc => ?_) hbound fun γ hγ q hq => ?_
  · rw [h.constraints_eq] at hc
    exact hp.satisfiable c (ConstraintSet.mem_notOnVariable.mp hc).1
  · rcases h.mem_prvs.mp hq with rfl | hq
    · exact hexact γ hγ
    · obtain ⟨c, hc⟩ := h.exists_update (hexact γ hγ) hγ
      have hq' := h.mem_prvs_old.mpr (.inr hq)
      exact Prv.exact_congr (hp.valid q hq') (h.update_eq hq γ c) (hp.exact _ hc q hq')

/-- **An entry of the counted table** is the product over the individuals that are counted. -/
theorem TurnsInto.prod_values (h : TurnsInto p f i r) (hp : ∀ q ∈ p.prvs, q.Valid)
    (haccurate : f.Accurate γ) (hw : w.Legal ((Prv.count f).owned γ)) {y : K}
    (hentry : p.countEntry f i (r.digits γ w) = .ok y) :
    ∏ c ∈ f.counted γ, p.value (Function.update γ f.bound c) w = y := by
  have hlegal : ∀ c ∈ f.counted γ, w (f.member γ c) < f.inner.range.size := fun c hc =>
    hw _ (mem_image_of_mem _ hc)
  -- the digit at the place of the formula is that of the histogram
  obtain ⟨hlt, -⟩ := List.getElem?_eq_some_iff.mp h.holder
  have hdigit : (r.digits γ w).getD i 0 = f.histograms.idxOf (f.histogram γ w) := by
    rw [digits, h.prvs_eq, List.map_set, List.getD_eq_getElem?_getD, List.getElem?_set_self
      (by rwa [List.length_map])]
    rfl
  have hhist : f.histograms.toArray[(r.digits γ w).getD i 0]? = some (f.histogram γ w) := by
    rw [hdigit, List.getElem?_toArray, List.getElem?_idxOf
      (CountingFormula.histogram_mem haccurate hlegal)]
  rw [countEntry, hhist] at hentry
  dsimp only at hentry
  rw [CountingFormula.histogram, List.range_eq_range'] at hentry
  rw [countedEntry_ok hentry, one_mul, ← List.range_eq_range']
  let entry := fun v => p.factor.lookup p.sizes ((r.digits γ w).set i v)
  calc ∏ c ∈ f.counted γ, p.value (Function.update γ f.bound c) w
      = ∏ c ∈ f.counted γ, entry (w (f.member γ c)) :=
        prod_congr rfl fun c _ => congrArg _ (h.digits_update hp c)
    _ = ∏ v ∈ range f.inner.range.size, ∏ c ∈ f.counted γ with w (f.member γ c) = v, entry v :=
        (prod_fiberwise_of_maps_to' (fun c hc => mem_range.mpr (hlegal c hc)) entry).symm
    _ = ∏ v ∈ range f.inner.range.size,
          entry v ^ ((f.counted γ).filter fun c => w (f.member γ c) = v).card :=
        prod_congr rfl fun v _ => prod_const _

/-- **Counting keeps the meaning**, also where nobody is counted. -/
theorem TurnsInto.meaning_eq (h : TurnsInto p f i r) (hp : ∀ q ∈ p.prvs, q.Valid)
    (hread : r.Readable) (hr : rebuild r.constraints r.prvs (p.countEntry f i) = .ok r)
    (hw : w.Legal r.scope) : r.meaning w = p.meaning w := by
  have hmem : Prv.count f ∈ r.prvs := h.mem_prvs.mpr (.inl rfl)
  rw [meaning, meaning, h.prod_solutions]
  refine prod_congr rfl fun γ hγ => ?_
  have hlegal : w.Legal (r.owned γ) := hw.mono (owned_subset_scope hγ)
  exact (h.prod_values hp (hread.accurate γ hγ _ hmem) (hlegal.mono (owned_subset_owned hmem γ))
    (value_rebuild hr hread hγ hlegal)).symm

/-- **Counting restates the parfactor**, as long as somebody is counted. -/
theorem TurnsInto.restates (h : TurnsInto p f i r) (hp : p.Sound)
    (hcountable : p.isCountable f.bound = true) (hpos : 0 < f.domainSize)
    (hr : rebuild r.constraints r.prvs (p.countEntry f i) = .ok r) :
    Restates (.standard p) [.standard r] := by
  have hexact := fun γ hγ => h.exact hcountable hpos (γ := γ) hγ
  have hsound : r.Sound := h.sound hp hexact hr
  have hscope := h.scope_subset hp.valid hexact
  refine ⟨fun d hd => ?_, fun d hd => ?_, fun w hw => ?_⟩
  · rw [List.mem_singleton.mp hd]
    exact hsound
  · rw [List.mem_singleton.mp hd]
    exact hscope
  · show r.meaning w * 1 = p.meaning w
    rw [mul_one, h.meaning_eq hp.valid hsound.readable hr (World.Legal.mono hw hscope)]

end

end Parfactor

end LiftedElimination
