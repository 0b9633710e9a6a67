import LiftedElimination.Proofs.Instance

/-!
# Normal forms

Bringing a potential into normal form does not change what it means.  A variable with one
individual left has that individual in every grounding, a counting formula over one individual
reads as its atom does, and of two equal random variables both digits are the same.

* `Refits`        another parfactor with the same groundings;
* `restates_grounded`   the instance for the only individual of a variable;
* `restates_replacePrv`   one random variable in the place of another one that it reads as;
* `restates_simplifyRound`, `restates_mergeRound`   the other two kinds of steps;
* `restates_normalize`   the normal form of a component restates it.
-/

namespace LiftedElimination

open Finset

variable {K : Type}

/-! ## variables with one individual -/

theorem Valuation.Solves.mem_domain {γ : Valuation} {cs : ConstraintSet} {vars : List LogVar}
    (h : γ.Solves cs vars) {x : LogVar} (hx : x ∈ vars) : γ x ∈ x.domain cs := by
  refine LogVar.mem_domain.mpr ⟨h.mem x hx, fun c hc hex => ?_⟩
  obtain ⟨hfirst, hsecond⟩ := Constraint.excluded?_eq_some.mp hex
  have hholds := h.holds c hc fun z hz => by
    rcases Constraint.mem_variables.mp hz with rfl | hs
    · rwa [hfirst]
    · rw [hsecond] at hs
      cases hs
  rw [Constraint.Holds, hfirst, hsecond] at hholds
  exact hholds rfl

section
variable {cs : ConstraintSet} {vars : List LogVar} {x : LogVar} {c : Constant} {γ : Valuation}

/-- the only individual of a variable is its value everywhere -/
theorem eq_of_individuals_eq (hc : (x.domain cs).individuals = [c]) (hx : x ∈ vars)
    (hγ : γ.Solves cs vars) : γ x = c := by
  have hmem : γ x ∈ (x.domain cs).individuals := hγ.mem_domain hx
  rw [hc] at hmem
  exact List.mem_singleton.mp hmem

theorem binds_of_individuals_eq (hc : (x.domain cs).individuals = [c]) (hx : x ∈ vars) :
    Binds vars ⟨x, .const c⟩ where
  source_mem := hx
  target_ne := nofun
  const d hd := by
    cases hd
    have hmem : c ∈ x.domain cs := show c ∈ (x.domain cs).individuals from
      hc ▸ List.mem_singleton.mpr rfl
    exact (LogVar.mem_domain.mp hmem).1
  var y hy := nomatch hy

theorem filter_of_individuals_eq (hc : (x.domain cs).individuals = [c]) (hx : x ∈ vars) :
    (cs.solutions vars).filter (fun γ => γ x = (Term.const c).eval γ) = cs.solutions vars :=
  filter_eq_self.mpr fun _ hγ => eq_of_individuals_eq hc hx (ConstraintSet.solves_of_mem hγ)

end

/-- a search without result leaves no grounding -/
theorem solutions_eq_empty {cs : ConstraintSet} {vars : List LogVar} (hnd : vars.Nodup)
    (h : cs.satisfiable vars = false) : cs.solutions vars = ∅ := by
  refine eq_empty_of_forall_notMem fun γ hγ => ?_
  rw [ConstraintSet.satisfiable_of_solves hnd (ConstraintSet.solves_of_mem hγ)] at h
  cases h

namespace Parfactor

variable {p q : Parfactor K} {γ : Valuation} {w : World}

theorem solutions_eq_empty_of_apply {b : Binding} (h : p.apply (.single b) = none) :
    p.solutions.filter (fun γ => γ b.source = b.target.eval γ) = ∅ := by
  refine filter_eq_empty_iff.mpr fun γ hγ heq => ?_
  obtain ⟨⟨-, hholds⟩, -⟩ := mem_solutions.mp hγ
  have hnone : p.constraints.apply (.single b) = none := Option.map_eq_none_iff.mp h
  refine ConstraintSet.not_holds_of_apply_none hnone γ ?_
  rwa [Binds.pull_of_eq heq]

section
variable [ExactScalar K]

theorem restates_empty (h : p.solutions = ∅) : Restates (.standard p) [] where
  sound _ hd := absurd hd List.not_mem_nil
  scope _ hd := absurd hd List.not_mem_nil
  meaning w _ := by
    show 1 = p.meaning w
    rw [meaning, h, prod_empty]

/-- **A variable with one individual** becomes that individual. -/
theorem restates_grounded {x : LogVar} {c : Constant} (hp : p.Sound) (hx : x ∈ p.logVars)
    (hc : (x.domain p.constraints).individuals = [c]) :
    Restates (.standard p) ((p.apply (.single ⟨x, .const c⟩)).toList.map .standard) := by
  have hb := binds_of_individuals_eq hc hx
  have hall : p.solutions.filter (fun γ => γ x = (Term.const c).eval γ) = p.solutions :=
    filter_of_individuals_eq hc hx
  cases h : p.apply (.single ⟨x, .const c⟩) with
  | none =>
    have hempty := solutions_eq_empty_of_apply h
    rw [show (⟨x, .const c⟩ : Binding).source = x from rfl] at hempty
    exact restates_empty (hall ▸ hempty)
  | some q =>
    refine ⟨fun d hd => ?_, fun d hd => ?_, fun w _ => ?_⟩
    · rw [List.mem_singleton.mp hd]
      exact hp.apply (hp.admits hb) h
    · rw [List.mem_singleton.mp hd]
      exact scope_apply hp.proper (hp.admits hb) h
    · show q.meaning w * 1 = p.meaning w
      rw [mul_one, meaning_apply hp.proper hp.accurate hb h, meaning, hall]

theorem restates_groundSingletons {r : Option (Parfactor K)} (hp : p.Sound)
    (h : groundSingletons logVars constraints apply p = .ok r) :
    Restates (.standard p) (r.toList.map .standard)
      ∧ ∀ q, r = some q → q.constraints.satisfiable q.logVars = true := by
  refine groundSingletons_ok (I := fun r => Restates (.standard p) (r.toList.map .standard))
    (fun q hq hsat => ?_) (fun q x c hq hx hc => ?_) (.refl hp) h
  · exact hq.trans (restates_empty (solutions_eq_empty q.nodup_logVars hsat))
  · exact hq.trans (restates_grounded (hq.sound _ (List.mem_singleton.mpr rfl)) hx hc)

end

/-! ## other tables -/

/-- `q` has the groundings of `p`, and depends on no more under each of them -/
structure Refits (p q : Parfactor K) : Prop where
  constraints : q.constraints = p.constraints
  logVars : ∀ x, x ∈ q.logVars ↔ x ∈ p.logVars
  owned : ∀ γ ∈ p.solutions, q.owned γ ⊆ p.owned γ

theorem Refits.solutions_eq (h : Refits p q) : q.solutions = p.solutions := by
  rw [solutions, solutions, h.constraints, ConstraintSet.solutions_congr h.logVars]

theorem Refits.bound (h : Refits p q) (hp : p.Proper) {f : CountingFormula}
    (hf : Prv.count f ∈ p.prvs) : f.bound ∉ q.logVars := fun hmem =>
  hp.bound f hf ((h.logVars _).mp hmem)

theorem Refits.scope_subset (h : Refits p q) : q.scope ⊆ p.scope := by
  refine biUnion_subset.mpr fun γ hγ => ?_
  rw [h.solutions_eq] at hγ
  exact (h.owned γ hγ).trans (owned_subset_scope hγ)

/-- the logical variables are the same if each side has the free variables of the other one -/
theorem mem_logVars_iff (hcs : q.constraints = p.constraints)
    (hq : ∀ r ∈ q.prvs, ∀ x ∈ r.freeVars, x ∈ p.logVars)
    (hp : ∀ r ∈ p.prvs, ∀ x ∈ r.freeVars, x ∈ q.logVars) (x : LogVar) :
    x ∈ q.logVars ↔ x ∈ p.logVars := by
  constructor
  · intro hx
    rcases mem_logVars.mp hx with ⟨r, hr, hxr⟩ | hxc
    · exact hq r hr x hxr
    · exact mem_logVars.mpr (.inr (hcs ▸ hxc))
  · intro hx
    rcases mem_logVars.mp hx with ⟨r, hr, hxr⟩ | hxc
    · exact hp r hr x hxr
    · exact mem_logVars.mpr (.inr (hcs.symm ▸ hxc))

section
variable [ExactScalar K]

/-- what selects the same entries means the same -/
theorem Refits.meaning_eq (h : Refits p q)
    (hvalue : ∀ γ ∈ p.solutions, ∀ w : World, w.Legal (p.owned γ) → q.value γ w = p.value γ w)
    (hw : w.Legal p.scope) : q.meaning w = p.meaning w := by
  rw [meaning, h.solutions_eq]
  exact prod_congr rfl fun γ hγ => hvalue γ hγ w (hw.mono (owned_subset_scope hγ))

theorem Refits.restates (h : Refits p q) (hq : q.Sound)
    (hvalue : ∀ γ ∈ p.solutions, ∀ w : World, w.Legal (p.owned γ) → q.value γ w = p.value γ w) :
    Restates (.standard p) [.standard q] := by
  refine ⟨fun d hd => ?_, fun d hd => ?_, fun w hw => ?_⟩
  · rw [List.mem_singleton.mp hd]
    exact hq
  · rw [List.mem_singleton.mp hd]
    exact h.scope_subset
  · show q.meaning w * 1 = p.meaning w
    rw [mul_one]
    exact h.meaning_eq hvalue hw

/-- what has to be checked of a rebuilt parfactor: its table fits by itself -/
theorem sound_rebuild {cs : ConstraintSet} {prvs : List Prv} {f : List Nat → Except Error K}
    (h : rebuild cs prvs f = .ok q) (hvalid : ∀ r ∈ prvs, r.Valid)
    (hsat : ∀ c ∈ cs, c.isContradiction = false)
    (hbound : ∀ f, Prv.count f ∈ prvs → f.bound ∉ q.logVars)
    (hexact : ∀ γ ∈ q.solutions, ∀ r ∈ prvs, r.Exact γ) : q.Sound := by
  obtain ⟨rfl, rfl, ht⟩ := rebuild_ok h
  exact ⟨hvalid, hsat, hbound, hexact, fun _ hpos => tabular_of_le (Factor.ofFn_ok ht).2.1 hpos⟩

omit [ExactScalar K] in
/-- the same for formulas that may count nobody -/
theorem readable_rebuild {cs : ConstraintSet} {prvs : List Prv} {f : List Nat → Except Error K}
    (h : rebuild cs prvs f = .ok q) (hvalid : ∀ r ∈ prvs, r.Valid)
    (haccurate : ∀ γ ∈ q.solutions, ∀ r ∈ prvs, r.Accurate γ) : q.Readable := by
  obtain ⟨rfl, rfl, ht⟩ := rebuild_ok h
  exact ⟨hvalid, haccurate, fun _ hpos => tabular_of_le (Factor.size_ofFn ht).2 hpos⟩

/-- a rebuilt table selects what it was built from -/
theorem value_rebuild_of_below {cs : ConstraintSet} {prvs : List Prv}
    {f : List Nat → Except Error K} (h : rebuild cs prvs f = .ok q)
    (hd : Index.Below (q.digits γ w) q.sizes) : f (q.digits γ w) = .ok (q.value γ w) := by
  obtain ⟨rfl, rfl, ht⟩ := rebuild_ok h
  exact (Factor.ofFn_ok ht).2.2 _ hd

theorem value_rebuild {cs : ConstraintSet} {prvs : List Prv}
    {f : List Nat → Except Error K} (h : rebuild cs prvs f = .ok q) (hq : q.Readable)
    (hγ : γ ∈ q.solutions) (hw : w.Legal (q.owned γ)) :
    f (q.digits γ w) = .ok (q.value γ w) := value_rebuild_of_below h (below_read hq hγ hw)

end

/-! ## counting formulas over one individual -/

/-- the only individual of a formula that excludes no variable -/
theorem soleAtom?_ok {f : CountingFormula} {a : Atom} (hf : f.Valid) (hsize : f.domainSize = 1)
    (h : soleAtom? f = some a) : ∃ c, a = f.instantiate (.const c) ∧ f.excludedVars = []
      ∧ ∀ γ, f.counted γ = {c} := by
  unfold soleAtom? at h
  split at h
  · rename_i hempty
    obtain ⟨c, hc, rfl⟩ := Option.map_eq_some_iff.mp h
    have hvars : f.excludedVars = [] := List.isEmpty_iff.mp hempty
    refine ⟨c, rfl, hvars, fun γ => ?_⟩
    have hone : f.individuals.toFinset.card = 1 := by
      rw [CountingFormula.card_individuals]
      rw [CountingFormula.domainSize, hvars] at hsize
      exact hsize
    have hmem : c ∈ f.individuals.toFinset :=
      Population.mem_toFinset.mpr (List.mem_of_getElem? hc)
    obtain ⟨d, hd⟩ := card_eq_one.mp hone
    rw [hd, mem_singleton] at hmem
    rw [hf.counted_eq, hvars, hd, hmem]
    rfl
  · cases h

theorem idxOf_sole {b v : Nat} (hv : v < b) :
    (Histogram.all b 1).idxOf (Histogram.sole b v) = v := by
  have hnd := Histogram.nodup_all b 1
  rw [Histogram.all_one] at hnd ⊢
  have hlen : v < ((List.range b).map (Histogram.sole b)).length := by simpa using hv
  have hget : ((List.range b).map (Histogram.sole b))[v] = Histogram.sole b v := by simp
  rw [← hget]
  exact hnd.idxOf_getElem v hlen

/-- one individual has the histogram of its value -/
theorem histogram_sole {f : CountingFormula} {c : Constant} (hc : f.counted γ = {c})
    (w : World) : f.histogram γ w = Histogram.sole f.inner.range.size (w (f.member γ c)) := by
  unfold CountingFormula.histogram Histogram.sole
  rw [hc]
  congr 1
  refine List.ext_getElem (by simp) fun v hv _ => ?_
  rw [List.getElem_map, List.getElem_range, filter_singleton, List.getElem_modify,
    List.getElem_replicate]
  split
  · rw [card_singleton]
  · rw [card_empty]

theorem groundVar_instantiate (f : CountingFormula) (t : Term) (γ : Valuation) :
    (f.instantiate t).groundVar γ = f.member γ (t.eval γ) := by
  rw [CountingFormula.instantiate, Atom.groundVar_apply, Substitution.pull_single]
  rfl

/-- a formula over one individual reads as its atom -/
theorem read_sole {f : CountingFormula} {c : Constant} (hc : f.counted γ = {c})
    (hsize : f.domainSize = 1) (hw : w (f.member γ c) < f.inner.range.size) :
    (Prv.count f).read γ w = (Prv.atom (f.instantiate (.const c))).read γ w := by
  rw [Prv.read_count, Prv.read_atom, groundVar_instantiate, histogram_sole hc,
    CountingFormula.histograms, hsize]
  exact idxOf_sole hw

theorem owned_sole {f : CountingFormula} {c : Constant} (hc : f.counted γ = {c}) :
    (Prv.count f).owned γ = (Prv.atom (f.instantiate (.const c))).owned γ := by
  rw [Prv.owned_count, Prv.owned_atom, groundVar_instantiate, hc, image_singleton]
  rfl

theorem mem_variables_instantiate {f : CountingFormula} {c : Constant} {x : LogVar} :
    x ∈ (f.instantiate (.const c)).variables ↔ x ∈ f.inner.variables ∧ x ≠ f.bound := by
  rw [CountingFormula.instantiate, Atom.mem_variables_apply]
  constructor
  · rintro ⟨y, hy, hyx⟩
    rcases Substitution.apply_single_eq_var.mp hyx with ⟨heq, hne⟩ | ⟨-, ht⟩
    · cases heq
      exact ⟨hy, hne⟩
    · cases ht
  · exact fun ⟨hx, hne⟩ => ⟨x, hx, Substitution.apply_single_ne hne⟩

/-- where the atom has a value the formula over one individual has one -/
theorem rangeSize_pos_of_sole {f : CountingFormula} (hsize : f.domainSize = 1)
    (hpos : 0 < f.inner.range.size) : 0 < f.rangeSize := by
  rw [CountingFormula.rangeSize_of_one hsize]
  exact lt_min hpos (by decide)

theorem set_eq_self {α : Type} {l : List α} {i : Nat} {a : α} (h : l[i]? = some a) :
    l.set i a = l := by
  obtain ⟨hlt, rfl⟩ := List.getElem?_eq_some_iff.mp h
  exact List.set_getElem_self hlt

/-- every element stays under `set`, or stood in the place that is set -/
theorem mem_set_or_eq {α : Type} {l : List α} {i : Nat} {a b r : α} (h : l[i]? = some b)
    (hr : r ∈ l) : r ∈ l.set i a ∨ r = b := by
  obtain ⟨j, hj⟩ := List.mem_iff_getElem?.mp hr
  by_cases hij : i = j
  · subst hij
    exact .inr (Option.some.inj (hj.symm.trans h))
  · refine .inl (List.mem_of_getElem? (i := j) ?_)
    rw [List.getElem?_set_ne hij, hj]

/-- `r` reads and owns under the groundings of `p` what `q` does -/
structure StandsFor (p : Parfactor K) (q r : Prv) : Prop where
  valid : r.Valid
  freeVars : ∀ x, x ∈ r.freeVars ↔ x ∈ q.freeVars
  bound : ∀ f, r = .count f → f.bound ∉ p.logVars
  exact : ∀ γ ∈ p.solutions, r.Exact γ
  owned : ∀ γ ∈ p.solutions, r.owned γ = q.owned γ
  read : ∀ γ ∈ p.solutions, ∀ w : World, w.Legal (q.owned γ) → r.read γ w = q.read γ w
  positive : p.solutions.Nonempty → 0 < r.rangeSize → 0 < q.rangeSize
  rangeSize : p.solutions.Nonempty → q.Tabular → r.rangeSize = q.rangeSize
  tabular : p.solutions.Nonempty → q.Tabular → r.Tabular

section
variable {i : Nat} {r s t : Prv}

theorem mem_prvs_replacePrv (h : t ∈ (p.replacePrv i r).prvs) : t ∈ p.prvs ∨ t = r :=
  List.mem_or_eq_of_mem_set h

theorem mem_replacePrv_self (hi : p.prvs[i]? = some s) : r ∈ (p.replacePrv i r).prvs := by
  refine List.mem_of_getElem? (i := i) ?_
  show (p.prvs.set i r)[i]? = _
  rw [List.getElem?_set_self', hi]
  rfl

theorem refits_replacePrv (hi : p.prvs[i]? = some s) (h : StandsFor p s r) :
    Refits p (p.replacePrv i r) := by
  have hmem : s ∈ p.prvs := List.mem_of_getElem? hi
  refine ⟨rfl, mem_logVars_iff rfl (fun t ht x hx => ?_) (fun t ht x hx => ?_), fun γ hγ v hv => ?_⟩
  · rcases mem_prvs_replacePrv ht with ht | rfl
    · exact mem_logVars.mpr (.inl ⟨t, ht, hx⟩)
    · exact mem_logVars.mpr (.inl ⟨s, hmem, (h.freeVars x).mp hx⟩)
  · rcases mem_set_or_eq (a := r) hi ht with ht | rfl
    · exact mem_logVars.mpr (.inl ⟨t, ht, hx⟩)
    · exact mem_logVars.mpr (.inl ⟨r, mem_replacePrv_self hi, (h.freeVars x).mpr hx⟩)
  · obtain ⟨t, ht, hvt⟩ := mem_owned.mp hv
    rcases mem_prvs_replacePrv ht with ht | rfl
    · exact mem_owned.mpr ⟨t, ht, hvt⟩
    · exact mem_owned.mpr ⟨s, hmem, h.owned γ hγ ▸ hvt⟩

/-- the entry stays the same -/
theorem value_replacePrv [ExactScalar K] (hp : p.Readable) (hi : p.prvs[i]? = some s)
    (h : StandsFor p s r) (hγ : γ ∈ p.solutions) (hw : w.Legal (p.owned γ)) :
    (p.replacePrv i r).value γ w = p.value γ w := by
  have hmem : s ∈ p.prvs := List.mem_of_getElem? hi
  have htab : s.Tabular := hp.tabular ⟨γ, hγ⟩ (sizes_pos hp hγ hw) s hmem
  have hdigits : (p.replacePrv i r).digits γ w = p.digits γ w := by
    show (p.prvs.set i r).map _ = _
    rw [List.map_set, h.read γ hγ w (hw.mono (owned_subset_owned hmem γ))]
    exact set_eq_self (by rw [List.getElem?_map, hi]; rfl)
  have hsizes : (p.replacePrv i r).sizes = p.sizes := by
    show (p.prvs.set i r).map _ = _
    rw [List.map_set, h.rangeSize ⟨γ, hγ⟩ htab]
    exact set_eq_self (by rw [List.getElem?_map, hi]; rfl)
  rw [value, value, hdigits, hsizes]
  rfl

end

/-- **One random variable in the place of another one** -/
theorem restates_replacePrv [ExactScalar K] {i : Nat} {r s : Prv} (hp : p.Sound)
    (hi : p.prvs[i]? = some s) (h : StandsFor p s r) : Refits p (p.replacePrv i r)
      ∧ Restates (.standard p) [.standard (p.replacePrv i r)] := by
  have hmem : s ∈ p.prvs := List.mem_of_getElem? hi
  have hnew : r ∈ (p.replacePrv i r).prvs := mem_replacePrv_self hi
  have hrefits := refits_replacePrv hi h
  have htabular : (p.replacePrv i r).solutions.Nonempty → 0 < (p.replacePrv i r).sizes.prod →
      ∀ t ∈ p.prvs, t.Tabular := by
    intro hne hpos
    rw [hrefits.solutions_eq] at hne
    have hall : ∀ t ∈ (p.replacePrv i r).prvs, 0 < t.rangeSize := fun t ht =>
      Nat.pos_of_ne_zero fun hzero => hpos.ne' (List.prod_eq_zero (List.mem_map.mpr ⟨t, ht, hzero⟩))
    refine hp.tabular hne (prod_rangeSize_pos fun t ht => ?_)
    rcases mem_set_or_eq (a := r) hi ht with ht | rfl
    · exact hall t ht
    · exact h.positive hne (hall r hnew)
  have hsound : (p.replacePrv i r).Sound := by
    refine ⟨fun t ht => ?_, hp.satisfiable, fun f hf => ?_, fun γ hγ t ht => ?_,
      fun hne hpos t ht => ?_⟩
    · rcases mem_prvs_replacePrv ht with ht | rfl
      · exact hp.valid t ht
      · exact h.valid
    · rcases mem_prvs_replacePrv hf with hf | hf
      · exact hrefits.bound hp.proper hf
      · exact fun hx => h.bound f hf.symm ((hrefits.logVars _).mp hx)
    · rw [hrefits.solutions_eq] at hγ
      rcases mem_prvs_replacePrv ht with ht | rfl
      · exact hp.exact γ hγ t ht
      · exact h.exact γ hγ
    · have hall := htabular hne hpos
      rcases mem_prvs_replacePrv ht with ht | rfl
      · exact hall t ht
      · exact h.tabular (hrefits.solutions_eq ▸ hne) (hall s hmem)
  exact ⟨hrefits, hrefits.restates hsound fun γ hγ w hw => value_replacePrv hp.readable hi h hγ hw⟩

/-- a formula over one individual and its atom -/
theorem standsFor_sole {f : CountingFormula} {a : Atom} (hf : f.Valid) (hsize : f.domainSize = 1)
    (ha : soleAtom? f = some a) : StandsFor p (.count f) (.atom a) := by
  obtain ⟨c, rfl, hvars, hcounted⟩ := soleAtom?_ok hf hsize ha
  refine ⟨trivial, fun x => ?_, fun _ h => (nomatch h), fun _ _ => trivial,
    fun γ _ => (owned_sole (hcounted γ)).symm, fun γ _ w hw => (read_sole (hcounted γ) hsize ?_).symm,
    fun _ hpos => rangeSize_pos_of_sole hsize hpos, fun _ htab => ?_, fun _ _ => trivial⟩
  · show x ∈ (f.instantiate (.const c)).variables ↔ x ∈ f.freeVars
    rw [mem_variables_instantiate, CountingFormula.mem_freeVars, hvars]
    simp
  · refine hw (f.member γ c) ?_
    rw [Prv.owned_count, hcounted]
    exact mem_image_of_mem _ (mem_singleton_self c)
  · rw [← show f.histograms.length = (Prv.count f).rangeSize from htab, CountingFormula.histograms,
      hsize, Histogram.all_one, List.length_map, List.length_range]
    rfl

section
variable [ExactScalar K]

theorem restates_simplifyRound (hp : p.Sound) (hne : p.solutions.Nonempty)
    (h : p.simplifyRound = .ok (some q)) :
    q.solutions = p.solutions ∧ Restates (.standard p) [.standard q] := by
  obtain ⟨i, f, hi, ⟨hsize, -⟩ | ⟨hsize, a, ha, rfl⟩⟩ := simplifyRound_ok h
  · obtain ⟨γ, hγ⟩ := hne
    have hpos : 0 < f.domainSize := (hp.exact γ hγ _ (List.mem_of_getElem? hi)).pos
    omega
  · have hrestates := restates_replacePrv hp hi
      (standsFor_sole (hp.valid _ (List.mem_of_getElem? hi)) hsize ha)
    exact ⟨hrestates.1.solutions_eq, hrestates.2⟩

/-! ## repeated random variables -/

/-- a digit that is taken out and put back -/
theorem insertIdx_eraseIdx {α : Type} {l : List α} {j : Nat} {a : α} (h : l[j]? = some a) :
    (l.eraseIdx j).insertIdx j a = l := by
  obtain ⟨hlt, rfl⟩ := List.getElem?_eq_some_iff.mp h
  exact List.insertIdx_eraseIdx_getElem hlt

theorem mem_eraseIdx_iff {α : Type} {l : List α} {i j : Nat} {a : α} (hij : i < j)
    (hi : l[i]? = some a) (hj : l[j]? = some a) (r : α) : r ∈ l.eraseIdx j ↔ r ∈ l := by
  refine ⟨List.mem_of_mem_eraseIdx, fun hr => ?_⟩
  obtain ⟨k, hk⟩ := List.mem_iff_getElem?.mp hr
  rcases Nat.lt_trichotomy k j with hkj | rfl | hkj
  · exact List.mem_of_getElem? (i := k) (by rw [List.getElem?_eraseIdx_of_lt hkj, hk])
  · rw [hj] at hk
    cases hk
    exact List.mem_of_getElem? (i := i) (by rw [List.getElem?_eraseIdx_of_lt hij, hi])
  · obtain ⟨k, rfl⟩ : ∃ n, k = n + 1 := ⟨k - 1, by omega⟩
    exact List.mem_of_getElem? (i := k) (by rw [List.getElem?_eraseIdx_of_ge (by omega), hk])

omit [ExactScalar K] in
/-- merging leaves the random variables as they are -/
theorem mem_prvs_mergeRound (h : p.mergeRound = .ok (some q)) (t : Prv) :
    t ∈ q.prvs ↔ t ∈ p.prvs := by
  obtain ⟨i, j, r, hij, hi, hj, hq⟩ := mergeRound_ok h
  obtain ⟨-, hprvs, -⟩ := rebuild_ok hq
  rw [hprvs]
  exact mem_eraseIdx_iff hij hi hj t

omit [ExactScalar K] in
theorem refits_mergeRound (h : p.mergeRound = .ok (some q)) : Refits p q := by
  have hmem := mem_prvs_mergeRound h
  have hcs : q.constraints = p.constraints := by
    obtain ⟨_, _, _, -, -, -, hq⟩ := mergeRound_ok h
    exact (rebuild_ok hq).1
  refine ⟨hcs, mem_logVars_iff hcs (fun t ht x hx => ?_) (fun t ht x hx => ?_), fun γ _ v hv => ?_⟩
  · exact mem_logVars.mpr (.inl ⟨t, (hmem t).mp ht, hx⟩)
  · exact mem_logVars.mpr (.inl ⟨t, (hmem t).mpr ht, hx⟩)
  · obtain ⟨t, ht, hv⟩ := mem_owned.mp hv
    exact mem_owned.mpr ⟨t, (hmem t).mp ht, hv⟩

/-- both digits of a repeated random variable are the same -/
theorem value_mergeRound (h : p.mergeRound = .ok (some q)) (hq : q.Readable) (hγ : γ ∈ q.solutions)
    (hw : w.Legal (q.owned γ)) : q.value γ w = p.value γ w := by
  obtain ⟨i, j, r, hij, hi, hj, hmerge⟩ := mergeRound_ok h
  obtain ⟨-, hprvs, -⟩ := rebuild_ok hmerge
  have hentry := value_rebuild hmerge hq hγ hw
  have hdigits : q.digits γ w = (p.digits γ w).eraseIdx j := by
    rw [digits, digits, hprvs, List.eraseIdx_map]
  have hdi : ((p.digits γ w).eraseIdx j).getD i 0 = r.read γ w := by
    rw [List.getD_eq_getElem?_getD, List.getElem?_eraseIdx_of_lt hij, digits, List.getElem?_map, hi]
    rfl
  have hdj : (p.digits γ w)[j]? = some (r.read γ w) := by
    rw [digits, List.getElem?_map, hj]
    rfl
  rw [hdigits, hdi, insertIdx_eraseIdx hdj] at hentry
  exact (Factor.lookup_of_entry hentry).symm

/-- **A repeated random variable** is merged on the diagonal. -/
theorem restates_mergeRound (hp : p.Sound) (h : p.mergeRound = .ok (some q)) :
    q.solutions = p.solutions ∧ Restates (.standard p) [.standard q] := by
  have hrefits := refits_mergeRound h
  obtain ⟨i, j, r, -, -, -, hmerge⟩ := mergeRound_ok h
  have hsub : ∀ t ∈ p.prvs.eraseIdx j, t ∈ p.prvs := fun t => List.mem_of_mem_eraseIdx
  have hsound : q.Sound := sound_rebuild hmerge (fun t ht => hp.valid t (hsub t ht)) hp.satisfiable
    (fun f hf => hrefits.bound hp.proper (hsub _ hf))
    (fun γ hγ t ht => hp.exact γ (hrefits.solutions_eq ▸ hγ) t (hsub t ht))
  refine ⟨hrefits.solutions_eq, hrefits.restates hsound fun γ hγ w hw => ?_⟩
  exact value_mergeRound h hsound.readable (hrefits.solutions_eq.symm ▸ hγ)
    (hw.mono (hrefits.owned γ hγ))

/-! ## the normal form -/

/-- **The normal form restates the parfactor.** -/
theorem restates_normalize {r : Option (Parfactor K)} (hp : p.Sound) (h : p.normalize = .ok r) :
    Restates (.standard p) (r.toList.map .standard) := by
  obtain ⟨g, hg, ⟨rfl, rfl⟩ | ⟨q, s, t, rfl, hs, ht, rfl⟩⟩ := normalize_ok h
  · exact (restates_groundSingletons hp hg).1
  · obtain ⟨hpq, hsat⟩ := restates_groundSingletons hp hg
    have hq : q.Sound := hpq.sound _ (List.mem_singleton.mpr rfl)
    -- what is satisfiable has groundings, so that its formulas count somebody
    have hne : q.solutions.Nonempty := ConstraintSet.solutions_nonempty.mpr
      (ConstraintSet.exists_solves q.nodup_logVars (fun c hc _ => hq.satisfiable c hc) (hsat q rfl))
    have hstep : ∀ a b : Parfactor K, (a.solutions.Nonempty ∧ Restates (.standard q) [.standard a]) →
        (b.solutions = a.solutions ∧ Restates (.standard a) [.standard b]) →
        b.solutions.Nonempty ∧ Restates (.standard q) [.standard b] :=
      fun a b ha hab => ⟨hab.1 ▸ ha.1, ha.2.trans hab.2⟩
    have hsound : ∀ a : Parfactor K, Restates (.standard q) [.standard a] → a.Sound :=
      fun a ha => ha.sound _ (List.mem_singleton.mpr rfl)
    have hqs := (settle_ok (fun a b ha hab => hstep a b ha
      (restates_simplifyRound (hsound a ha.2) ha.1 hab)) ⟨hne, .refl hq⟩ hs).1
    have hqt := (settle_ok (fun a b ha hab => hstep a b ha
      (restates_mergeRound (hsound a ha.2) hab)) hqs ht).1
    exact hpq.trans hqt.2

end

end Parfactor

/-! ## aggregation parfactors -/

namespace Aggregation

variable {a : Aggregation K}

theorem nodup_logVars (a : Aggregation K) : a.logVars.Nodup :=
  (nodup_addVars (nodup_addVars List.nodup_nil)).filter _

theorem solutions_eq_empty_of_apply {b : Binding} (ha : a.Sound) (hb : Binds a.logVars b)
    (h : a.apply (.single b) = none) :
    a.solutions.filter (fun γ => γ b.source = b.target.eval γ) = ∅ := by
  have hsource : b.source ≠ a.extra := fun h => a.extra_notMem_logVars (h ▸ hb.source_mem)
  have hnone : a.constraints.apply (.single b) = none := by
    have hnone := Option.map_eq_none_iff.mp h
    rwa [Substitution.without_single hsource] at hnone
  refine filter_eq_empty_iff.mpr fun γ hγ heq => ?_
  obtain ⟨c, hc, hviolated⟩ := ConstraintSet.apply_eq_none.mp hnone
  have hviolates : ∀ δ : Valuation, δ b.source = b.target.eval δ → ¬ c.Holds δ := by
    intro δ hδ hholds
    rw [← Binds.pull_of_eq hδ] at hholds
    refine hholds ?_
    rw [← Substitution.eval_apply]
    exact congrArg (Term.eval δ) (beq_iff_eq.mp hviolated)
  by_cases hextra : a.extra ∈ c.variables
  · -- a parent that is counted satisfies the constraints on the extra variable
    have hexact := ha.exact γ hγ
    have hpos : 0 < (a.formula.counted γ).card := hexact.card.symm ▸ hexact.pos
    obtain ⟨d, hd⟩ := card_pos.mp hpos
    have hholds := (CountingFormula.mem_counted.mp hd).2 c
      (ConstraintSet.mem_onVariable.mpr ⟨hc, hextra⟩)
    refine hviolates _ ?_ hholds
    show Function.update γ a.extra d b.source = b.target.eval (Function.update γ a.extra d)
    rw [Function.update_of_ne hsource, heq]
    cases ht : b.target with
    | const e => rfl
    | var y =>
      have hy : y ≠ a.extra := fun h => a.extra_notMem_logVars (h ▸ (hb.var y ht).1)
      rw [Term.eval_var, Term.eval_var, Function.update_of_ne hy]
  · refine hviolates γ heq ((ConstraintSet.solves_of_mem hγ).holds c hc fun x hx => ?_)
    exact mem_logVars.mpr ⟨.inr (ConstraintSet.mem_variables.mpr ⟨c, hc, hx⟩),
      fun h => hextra (h ▸ hx)⟩

section
variable [ExactScalar K]

theorem restates_empty (h : a.solutions = ∅) : Restates (.aggregation a) [] where
  sound _ hd := absurd hd List.not_mem_nil
  scope _ hd := absurd hd List.not_mem_nil
  meaning w _ := by
    show 1 = a.meaning w
    rw [meaning, h, prod_empty]

theorem restates_grounded {x : LogVar} {c : Constant} (ha : a.Sound) (hx : x ∈ a.logVars)
    (hc : (x.domain a.constraints).individuals = [c]) :
    Restates (.aggregation a) ((a.apply (.single ⟨x, .const c⟩)).toList.map .aggregation) := by
  have hb := binds_of_individuals_eq hc hx
  have hall : a.solutions.filter (fun γ => γ x = (Term.const c).eval γ) = a.solutions :=
    filter_of_individuals_eq hc hx
  cases h : a.apply (.single ⟨x, .const c⟩) with
  | none =>
    have hempty := solutions_eq_empty_of_apply ha hb h
    rw [show (⟨x, .const c⟩ : Binding).source = x from rfl] at hempty
    exact restates_empty (hall ▸ hempty)
  | some a' =>
    refine ⟨fun d hd => ?_, fun d hd => ?_, fun w _ => ?_⟩
    · rw [List.mem_singleton.mp hd]
      exact ha.apply hb h
    · rw [List.mem_singleton.mp hd]
      exact scope_apply ha hb h
    · show a'.meaning w * 1 = a.meaning w
      rw [mul_one, meaning_apply ha hb h, meaning, hall]

theorem restates_normalize {r : Option (Aggregation K)} (ha : a.Sound) (h : a.normalize = .ok r) :
    Restates (.aggregation a) (r.toList.map .aggregation) := by
  refine (groundSingletons_ok (I := fun r => Restates (.aggregation a) (r.toList.map .aggregation))
    (fun q hq hsat => ?_) (fun q x c hq hx hc => ?_) (.refl ha) h).1
  · exact hq.trans (restates_empty (solutions_eq_empty q.nodup_logVars hsat))
  · exact hq.trans (restates_grounded (hq.sound _ (List.mem_singleton.mpr rfl)) hx hc)

end

end Aggregation

/-- **The normal form restates the component.** -/
theorem Component.restates_normalize [ExactScalar K] {c : Component K} {r : Option (Component K)}
    (hc : c.Sound) (h : c.normalize = .ok r) : Restates c r.toList := by
  cases c with
  | standard p =>
    obtain ⟨q, hq, rfl⟩ := map_ok h
    rw [Option.toList_map]
    exact Parfactor.restates_normalize hc hq
  | aggregation a =>
    obtain ⟨q, hq, rfl⟩ := map_ok h
    rw [Option.toList_map]
    exact Aggregation.restates_normalize hc hq

end LiftedElimination
